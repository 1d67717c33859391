import OsLabs.VirtualMemory.Display
import OsLabs.VirtualMemory.Equiv.Range
import OsLabs.VirtualMemory.Equiv.Room

/-!
# What the maps and the translations tell

Every cell of the printed map has its place, so `memory_printout` tells the state of each frame and
the page in each occupied one, and nothing else (`memoryPrintout_eq_iff`).
-/

namespace OsLabs.VirtualMemory.Display

/-! ### Cells -/

/-- The value of hexadecimal digits. -/
def hexValue (text : List Char) : ℕ := text.foldl (fun v c => 16 * v + digitVal c) 0

/-- A page number takes four characters, `0x` included. -/
theorem length_hex : ∀ n < 256, (hex 4 n).length = 4 := by decide +kernel

/-- It can be read back. -/
theorem hexValue_hex : ∀ n < 256, hexValue ((hex 4 n).drop 2) = n := by decide +kernel

/-- Each cell has the same width, whatever it holds. -/
theorem length_content (block : Frame) : (content block).length = 4 := by
  unfold content
  cases block.state with
  | free => rfl
  | preoccupied => rfl
  | occupied => exact length_hex _ block.vPage.toNat_lt

theorem length_stsClrs (state : FrameState) : (STS_CLRS state).length = 5 := by
  cases state <;> rfl

theorem length_frameDisplay (frameNum : ℕ) (block : Frame) :
    (frameDisplay frameNum block).length = 16 + (dec3 frameNum).length := by
  unfold frameDisplay
  simp only [List.length_append, List.length_cons, length_content, length_stsClrs]
  show _ + (3 + 1) = _
  omega

/-- Each state has a colour of its own. -/
theorem stsClrs_injective : Function.Injective STS_CLRS := by
  intro a b h
  cases a <;> cases b <;> first | rfl | exact absurd h (by decide)

/-- Two frames that look the same. -/
def SameFrame (block block' : Frame) : Prop :=
  block.state = block'.state ∧ (block.state = .occupied → block.vPage = block'.vPage)

/-- What stands in a cell tells the page of an occupied frame. -/
theorem content_eq_iff {block block' : Frame} (hstate : block.state = block'.state) :
    content block = content block' ↔ SameFrame block block' := by
  obtain ⟨state, vPage⟩ := block
  obtain ⟨state', vPage'⟩ := block'
  obtain rfl : state = state' := hstate
  cases state with
  | free => exact iff_of_true rfl ⟨rfl, nofun⟩
  | preoccupied => exact iff_of_true rfl ⟨rfl, nofun⟩
  | occupied =>
    constructor
    · intro h
      refine ⟨rfl, fun _ => UInt8.toNat_inj.mp ?_⟩
      have hvalue := congrArg (fun text => hexValue (text.drop 2)) h
      exact (hexValue_hex _ vPage.toNat_lt).symm.trans
        (hvalue.trans (hexValue_hex _ vPage'.toNat_lt))
    · rintro ⟨-, h⟩
      rw [show vPage = vPage' from h rfl]

/-- A cell tells the state of its frame and the page in it. -/
theorem frameDisplay_eq_iff (frameNum : ℕ) (block block' : Frame) :
    frameDisplay frameNum block = frameDisplay frameNum block' ↔ SameFrame block block' := by
  constructor
  · intro h
    unfold frameDisplay at h
    simp only [List.append_assoc, List.cons_append] at h
    -- first the colour, then the number of the frame, then the content
    obtain ⟨hclr, h⟩ := List.append_inj h (by rw [length_stsClrs, length_stsClrs])
    have hcell := (List.append_cancel_left (List.cons.inj h).2)
    obtain ⟨hcontent, -⟩ := List.append_inj (List.cons.inj hcell).2
      (by rw [length_content, length_content])
    exact (content_eq_iff (stsClrs_injective hclr)).mp hcontent
  · intro h
    unfold frameDisplay
    rw [h.1, (content_eq_iff h.1).mpr h]

/-! ### Maps -/

/-- Pieces of the same lengths can be told apart when they are joined. -/
theorem flatMap_inj {α : Type*} {xs : List α} {f g : α → List Char}
    (hlen : ∀ x, (f x).length = (g x).length) (h : xs.flatMap f = xs.flatMap g) :
    ∀ x ∈ xs, f x = g x := by
  induction xs with
  | nil => exact nofun
  | cons x xs ih =>
    rw [List.flatMap_cons, List.flatMap_cons] at h
    obtain ⟨hx, hxs⟩ := List.append_inj h (hlen x)
    intro y hy
    obtain rfl | hy := List.mem_cons.mp hy
    · exact hx
    · exact ih hxs y hy

section Maps

variable (view view' : Fin NUM_FRAMES → Frame)

theorem length_mapCell (i : Fin NUM_FRAMES) :
    (mapCell view i).length = (mapCell view' i).length := by
  unfold mapCell
  split_ifs
  · rw [List.length_cons, List.length_cons, length_frameDisplay, length_frameDisplay]
  · rw [List.length_append, List.length_append, length_frameDisplay, length_frameDisplay]
  · rw [length_frameDisplay, length_frameDisplay]

/-- The same with what separates the cells. -/
theorem mapCell_eq_iff (i : Fin NUM_FRAMES) :
    mapCell view i = mapCell view' i ↔ SameFrame (view i) (view' i) := by
  rw [← frameDisplay_eq_iff i]
  unfold mapCell
  split_ifs
  · exact List.cons_inj_right _
  · exact List.append_left_inj _
  · exact Iff.rfl

theorem length_RAMMap : (RAMMap view).length = (RAMMap view').length := by
  have hcells : ((List.finRange NUM_FRAMES).flatMap (mapCell view)).length
      = ((List.finRange NUM_FRAMES).flatMap (mapCell view')).length := by
    rw [List.length_flatMap, List.length_flatMap]
    exact congrArg List.sum (List.map_congr_left fun i _ => length_mapCell view view' i)
  unfold RAMMap
  simp only [List.length_append, hcells]

/-- The map tells about every frame. -/
theorem RAMMap_eq_iff : RAMMap view = RAMMap view' ↔ ∀ i, SameFrame (view i) (view' i) := by
  constructor
  · intro h i
    unfold RAMMap at h
    have hcells := List.append_cancel_left (List.append_cancel_right (List.append_cancel_right h))
    exact (mapCell_eq_iff view view' i).mp
      (flatMap_inj (length_mapCell view view') hcells i (List.mem_finRange i))
  · intro h
    have hcells : mapCell view = mapCell view' :=
      funext fun i => (mapCell_eq_iff view view' i).mpr (h i)
    unfold RAMMap
    rw [hcells]

/-- The number of occupied frames in the summary adds nothing to the map. -/
theorem occupiedCount_congr {frames frames' : Fin NUM_FRAMES → Frame}
    (h : ∀ i, (frames i).state = (frames' i).state) :
    occupiedCount frames = occupiedCount frames' := by
  unfold occupiedCount
  simp only [h]

/-- **What the map tells**: two memories are printed alike if and only if each frame is in the same
state in both, and each occupied frame holds the same page. -/
theorem memoryPrintout_eq_iff (frames frames' : Fin NUM_FRAMES → Frame) :
    memoryPrintout frames = memoryPrintout frames' ↔
      ∀ i, (frames i).state = (frames' i).state ∧
        ((frames i).state = .occupied → (frames i).vPage = (frames' i).vPage) := by
  constructor
  · intro h
    -- the maps are the last parts, of one length
    exact (RAMMap_eq_iff frames frames').mp
      (List.append_inj' h (length_RAMMap frames frames')).2
  · intro h
    unfold memoryPrintout summary
    rw [(RAMMap_eq_iff frames frames').mpr h, occupiedCount_congr fun i => (h i).1]

end Maps

end OsLabs.VirtualMemory.Display
