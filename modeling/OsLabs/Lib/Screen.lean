import Mathlib.Data.Nat.Notation

/-!
# Text on a terminal

An escape sequence goes from `ESC` to the next letter, and what is not in one is visible.  `Shows`,
`Paints` and `HasFields` say what a text shows, in which styles, and which words are in it, wherever
it stands: all three are proved piece by piece.
-/

namespace OsLabs

/-! ### Escape sequences -/

/-- The character that starts an escape sequence. -/
def ESC : Char := Char.ofNat 27

/-- The visible characters, from the inside of an escape sequence or from the outside. -/
def visibleFrom : Bool → List Char → List Char
  | _, [] => []
  | true, c :: cs => visibleFrom (!c.isAlpha) cs
  | false, c :: cs => if c = ESC then visibleFrom true cs else c :: visibleFrom false cs

/-- The visible characters. -/
def visible (text : List Char) : List Char := visibleFrom false text

/-- A text that shows these characters and ends outside of an escape sequence. -/
def Shows (text shown : List Char) : Prop :=
  ∀ rest, visible (text ++ rest) = shown ++ visible rest

variable {text text' shown shown' : List Char}

theorem Shows.visible_eq (h : Shows text shown) : visible text = shown := by
  have hnil := h []
  rwa [List.append_nil, show visible [] = [] from rfl, List.append_nil] at hnil

theorem Shows.append (h : Shows text shown) (h' : Shows text' shown') :
    Shows (text ++ text') (shown ++ shown') := by
  intro rest
  rw [List.append_assoc, h, h', List.append_assoc]

theorem shows_nil : Shows [] [] := fun _ => rfl

theorem shows_plain (h : ESC ∉ text) : Shows text text := by
  intro rest
  induction text with
  | nil => rfl
  | cons c cs ih =>
    rw [List.mem_cons, not_or] at h
    obtain ⟨hc, hcs⟩ := h
    show visibleFrom false (c :: (cs ++ rest)) = _
    rw [visibleFrom, if_neg (Ne.symm hc), List.cons_append]
    exact congrArg (c :: ·) (ih hcs)

/-! ### Styles -/

/-- The visible characters, each with the last escape sequence before it.  The sequence that is
being read, if one is, has begun with these characters. -/
def paintedFrom (style : List Char) : Option (List Char) → List Char → List (Char × List Char)
  | _, [] => []
  | some begun, c :: cs =>
    if c.isAlpha then paintedFrom (begun ++ [c]) none cs
    else paintedFrom style (some (begun ++ [c])) cs
  | none, c :: cs =>
    if c = ESC then paintedFrom style (some [c]) cs else (c, style) :: paintedFrom style none cs

/-- A text that shows these characters in these styles, when `style` is the one before it, and that
leaves `style'`. -/
def Paints (style text : List Char) (cells : List (Char × List Char)) (style' : List Char) : Prop :=
  ∀ rest, paintedFrom style none (text ++ rest) = cells ++ paintedFrom style' none rest

section Paints

variable {style style' style'' : List Char} {cells cells' : List (Char × List Char)}

theorem Paints.append (h : Paints style text cells style')
    (h' : Paints style' text' cells' style'') :
    Paints style (text ++ text') (cells ++ cells') style'' := by
  intro rest
  rw [List.append_assoc, h, h', List.append_assoc]

theorem Paints.painted_eq (h : Paints style text cells style') :
    paintedFrom style none text = cells := by
  have hnil := h []
  rwa [List.append_nil, show paintedFrom style' none [] = [] from rfl, List.append_nil] at hnil

theorem paints_nil (style : List Char) : Paints style [] [] style := fun _ => rfl

theorem paints_plain (style : List Char) (h : ESC ∉ text) :
    Paints style text (text.map (·, style)) style := by
  intro rest
  induction text with
  | nil => rfl
  | cons c cs ih =>
    rw [List.mem_cons, not_or] at h
    obtain ⟨hc, hcs⟩ := h
    rw [List.cons_append, paintedFrom, if_neg (Ne.symm hc), ih hcs]
    rfl

theorem Paints.flatMap {α : Type*} {xs : List α} {f : α → List Char} {g : α → Char × List Char}
    (h : ∀ x ∈ xs, Paints style (f x) [g x] style) :
    Paints style (xs.flatMap f) (xs.map g) style := by
  induction xs with
  | nil => exact paints_nil style
  | cons x xs ih =>
    exact (h x List.mem_cons_self).append (ih fun y hy => h y (List.mem_cons_of_mem x hy))

end Paints

/-! ### Words -/

variable {sep : Char → Bool} {ws ws' : List (List Char)}

/-- The words of a text. -/
def fields (sep : Char → Bool) (text : List Char) : List (List Char) :=
  (text.splitOnP sep).filter (· ≠ [])

/-- A text with these words that ends at the end of a word. -/
def HasFields (sep : Char → Bool) (text : List Char) (ws : List (List Char)) : Prop :=
  ∀ rest, fields sep (text ++ rest) = ws ++ fields sep rest

theorem HasFields.fields_eq (h : HasFields sep text ws) : fields sep text = ws := by
  have hnil := h []
  rwa [List.append_nil, show fields sep [] = [] from rfl, List.append_nil] at hnil

theorem HasFields.append (h : HasFields sep text ws) (h' : HasFields sep text' ws') :
    HasFields sep (text ++ text') (ws ++ ws') := by
  intro rest
  rw [List.append_assoc, h, h', List.append_assoc]

theorem hasFields_nil : HasFields sep [] [] := fun _ => rfl

/-- A text and a separator behind it. -/
theorem hasFields_fields (text : List Char) {c : Char} (hc : sep c = true) :
    HasFields sep (text ++ [c]) (fields sep text) := by
  intro rest
  rw [List.append_assoc, List.singleton_append, fields, List.splitOnP_append_cons text rest hc,
    List.filter_append]
  rfl

/-- A word and the separator behind it. -/
theorem hasFields_word {w : List Char} (hne : w ≠ []) (hw : ∀ c ∈ w, sep c = false) {c : Char}
    (hc : sep c = true) : HasFields sep (w ++ [c]) [w] := by
  have hfields := hasFields_fields w hc
  rwa [fields, List.splitOnP_eq_singleton hw, List.filter_cons_of_pos (by simpa using hne),
    List.filter_nil] at hfields

theorem hasFields_seps (h : ∀ c ∈ text, sep c = true) : HasFields sep text [] := by
  intro rest
  induction text with
  | nil => rfl
  | cons c cs ih =>
    obtain ⟨hc, hcs⟩ := List.forall_mem_cons.mp h
    rw [List.cons_append, ← ih hcs, fields, ← List.nil_append (c :: _),
      List.splitOnP_append_cons_of_forall_mem (by simp) c hc, List.filter_cons_of_neg (by simp)]
    rfl

theorem HasFields.flatMap {α : Type*} {xs : List α} {f : α → List Char}
    {g : α → List (List Char)} (h : ∀ x ∈ xs, HasFields sep (f x) (g x)) :
    HasFields sep (xs.flatMap f) (xs.flatMap g) := by
  induction xs with
  | nil => exact hasFields_nil
  | cons x xs ih =>
    rw [List.flatMap_cons, List.flatMap_cons]
    exact (h x List.mem_cons_self).append (ih fun y hy => h y (List.mem_cons_of_mem x hy))

end OsLabs
