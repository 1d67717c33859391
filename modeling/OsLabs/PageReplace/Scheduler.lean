import OsLabs.Lib.CInt
import OsLabs.Lib.DList
import Mathlib.Data.List.FinRange

/-!
# The page-replacement scheduler (`010PageReplace/os/scheduler.c`, `os/RAM.c`)

The static data of `scheduler.c` and `RAM.c` is one `State N`, for `N = num_frames` frames.  Each
of the four policies is a function from the state before an access to the `AccessResult` and the
state after it.

* `frames` is a function on `Fin N`; a subscript computed by the program goes through `getFrame`
  and `setFrame`, which fail with `Fault.frames` when it is not in `0..N-1`.  The loops of
  `find_page`, `find_empty` and `scheduler_min` run over `i < num_frames`, so their reads need no
  check.
* A pointer into a node pool of 256 nodes is an `Option UInt8`, and `&pool[count++]` the value of
  the `uint8_t` counter.  The fields of the nodes are kept field by field: `prev` and `next`
  in a `DList`, the others as functions on the pool.
* A walk along a list that meets more than 256 nodes has met one of them twice and never ends;
  it fails with `Fault.diverge`.  Following a null pointer fails with `Fault.null`.

The state is arbitrary before `schedulerReset`: what the pools hold then is whatever an earlier
run left there.
-/

namespace OsLabs.PageReplace

open Function

/-! ### Data (`os/RAM.h`, `os/scheduler.h`) -/

/-- `FRAME_EMPTY` -/
def FRAME_EMPTY : UInt8 := 0xFF

/-- What can stop an access. -/
inductive Fault where
  /-- `frames[i]` with `i` outside `0..num_frames-1`. -/
  | frames (i : ℤ)
  /-- A null pointer is followed. -/
  | null
  /-- A loop along a list that never ends. -/
  | diverge
  deriving DecidableEq, Repr

/-- `access_result` -/
structure AccessResult where
  hit : UInt8
  evicted : UInt8
  loaded : UInt8
  frameIdx : UInt8
  deriving DecidableEq, Repr

/-- `fifo_queue`, `fifo_head`, `fifo_count` -/
structure Fifo where
  queue : UInt8 → UInt8
  head : UInt8
  count : UInt8

/-- `lru_pool`, `lru_head`, `lru_tail`, `lru_count` -/
structure Lru where
  links : DList UInt8
  page : UInt8 → UInt8
  frameIdx : UInt8 → UInt8
  count : UInt8

/-- `sc_pool`, `sc_head`, `sc_tail`, `sc_count` -/
structure SecondChance where
  links : DList UInt8
  page : UInt8 → UInt8
  frameIdx : UInt8 → UInt8
  refBit : UInt8 → UInt8
  count : UInt8

/-- The memory of the simulator with `N` frames. -/
structure State (N : ℕ) where
  frames : Fin N → UInt8
  hits : UInt32
  misses : UInt32
  refSeq : List UInt8
  fifo : Fifo
  lru : Lru
  sc : SecondChance

/-- One access: the state before, the page and the step index. -/
abbrev Algo (N : ℕ) := State N → UInt8 → UInt16 → Except Fault (AccessResult × State N)

variable {N : ℕ}

/-- `frames[i]`, read -/
def getFrame (frames : Fin N → UInt8) (i : ℤ) : Except Fault UInt8 :=
  if h : 0 ≤ i ∧ i.toNat < N then .ok (frames ⟨i.toNat, h.2⟩) else .error (.frames i)

/-- `frames[i] = page` -/
def setFrame (frames : Fin N → UInt8) (i : ℤ) (page : UInt8) : Except Fault (Fin N → UInt8) :=
  if h : 0 ≤ i ∧ i.toNat < N then .ok (update frames ⟨i.toNat, h.2⟩ page)
  else .error (.frames i)

/-! ### Helpers -/

/-- `find_page` -/
def findPage (frames : Fin N → UInt8) (page : UInt8) : ℤ :=
  match (List.finRange N).find? fun i => frames i == page with
  | some i => int8 (i : ℕ)
  | none => -1

/-- `find_empty` -/
def findEmpty (frames : Fin N → UInt8) : ℤ :=
  match (List.finRange N).find? fun i => frames i == FRAME_EMPTY with
  | some i => int8 (i : ℕ)
  | none => -1

/-- `scheduler_init` -/
def schedulerInit (s : State N) (query : List UInt8) : State N := { s with refSeq := query }

/-- `scheduler_reset` -/
def schedulerReset (s : State N) : State N :=
  { s with
    hits := 0
    misses := 0
    frames := fun _ => FRAME_EMPTY
    fifo := { queue := fun _ => FRAME_EMPTY, head := 0, count := 0 }
    lru := { s.lru with links := s.lru.links.clear, count := 0 }
    sc := { s.sc with links := s.sc.links.clear, count := 0 } }

/-! ### FIFO -/

/-- `scheduler_fifo` -/
def schedulerFifo : Algo N := fun s page _step =>
  let r : AccessResult := { hit := 0, evicted := FRAME_EMPTY, loaded := page, frameIdx := 0 }
  let idx := findPage s.frames page
  if idx ≠ -1 then
    .ok ({ r with hit := 1, frameIdx := .ofInt idx }, { s with hits := s.hits + 1 })
  else
    let s := { s with misses := s.misses + 1 }
    let freeIdx := findEmpty s.frames
    if freeIdx ≠ -1 then do
      let frames ← setFrame s.frames freeIdx page
      -- the operands are promoted to `int`: only the remainder is cut to `uint8_t`
      let slot := UInt8.ofNat ((s.fifo.head.toNat + s.fifo.count.toNat) % N)
      let fifo := { s.fifo with
        queue := update s.fifo.queue slot (.ofInt freeIdx)
        count := s.fifo.count + 1 }
      return ({ r with frameIdx := .ofInt freeIdx }, { s with frames := frames, fifo := fifo })
    else do
      -- the victim's entry stays in place and becomes the newest, as the head moves past it
      let victimFi := s.fifo.queue s.fifo.head
      let evicted ← getFrame s.frames victimFi.toNat
      let frames ← setFrame s.frames victimFi.toNat page
      let fifo := { s.fifo with
        queue := update s.fifo.queue s.fifo.head victimFi
        head := UInt8.ofNat ((s.fifo.head.toNat + 1) % N) }
      return ({ r with evicted := evicted, frameIdx := victimFi },
        { s with frames := frames, fifo := fifo })

/-! ### MIN -/

/-- The inner loop of `scheduler_min`: the next use of page `p` after `step`, or `-1`. -/
def nextUse (refSeq : List UInt8) (step : UInt16) (p : UInt8) : ℤ :=
  -- `j` is a `uint16_t`: after step 65535 the scan starts again at 0
  let j := (step.toNat + 1) % 65536
  match (refSeq.drop j).findIdx? fun q => q == p with
  | some d => int16 (j + d)
  | none => -1

/-- `key` in `scheduler_min` -/
def minKey (refSeq : List UInt8) (step : UInt16) (p : UInt8) : ℤ :=
  if nextUse refSeq step p = -1 then 30000 else nextUse refSeq step p

/-- `victim_fi`, `farthest`, `victim_page` -/
structure Victim where
  fi : ℤ
  farthest : ℤ
  page : UInt8

/-- One round of the victim search of `scheduler_min`. -/
def victimStep (frames : Fin N → UInt8) (refSeq : List UInt8) (step : UInt16) (v : Victim)
    (i : Fin N) : Victim :=
  let p := frames i
  let key := minKey refSeq step p
  -- a tie goes to the smaller page number
  if key > v.farthest ∨ (key = v.farthest ∧ p < v.page) then
    { fi := int8 (i : ℕ), farthest := key, page := p }
  else v

/-- The victim search of `scheduler_min`; `victim_page` starts as `frames[0]`. -/
def minVictim (frames : Fin N → UInt8) (refSeq : List UInt8) (step : UInt16)
    (victimPage : UInt8) : Victim :=
  (List.finRange N).foldl (victimStep frames refSeq step)
    { fi := 0, farthest := -1, page := victimPage }

/-- `scheduler_min` -/
def schedulerMin : Algo N := fun s page step =>
  let r : AccessResult := { hit := 0, evicted := FRAME_EMPTY, loaded := page, frameIdx := 0 }
  let idx := findPage s.frames page
  if idx ≠ -1 then
    .ok ({ r with hit := 1, frameIdx := .ofInt idx }, { s with hits := s.hits + 1 })
  else
    let s := { s with misses := s.misses + 1 }
    let freeIdx := findEmpty s.frames
    if freeIdx ≠ -1 then do
      let frames ← setFrame s.frames freeIdx page
      return ({ r with frameIdx := .ofInt freeIdx }, { s with frames := frames })
    else do
      -- `victim_page = frames[0]` before the loop
      let victimPage ← getFrame s.frames 0
      let v := minVictim s.frames s.refSeq step victimPage
      let evicted ← getFrame s.frames v.fi
      let frames ← setFrame s.frames v.fi page
      return ({ r with evicted := evicted, frameIdx := .ofInt v.fi }, { s with frames := frames })

/-! ### LRU -/

/-- The size of `lru_pool` and `sc_pool`. -/
def POOL_SIZE : ℕ := 256

/-- `lru_remove` -/
def lruRemove (lru : Lru) (n : UInt8) : Lru := { lru with links := lru.links.remove n }

/-- `lru_push_front` -/
def lruPushFront (lru : Lru) (n : UInt8) : Lru := { lru with links := lru.links.pushFront n }

/-- `scheduler_lru` -/
def schedulerLru : Algo N := fun s page _step =>
  let r : AccessResult := { hit := 0, evicted := FRAME_EMPTY, loaded := page, frameIdx := 0 }
  match DList.search s.lru.links.next (fun n => s.lru.page n == page) POOL_SIZE
      s.lru.links.head with
  | none => .error .diverge
  | some (some n) =>
    .ok ({ r with hit := 1, frameIdx := s.lru.frameIdx n },
      { s with hits := s.hits + 1, lru := lruPushFront (lruRemove s.lru n) n })
  | some none =>
    let s := { s with misses := s.misses + 1 }
    let freeIdx := findEmpty s.frames
    if freeIdx ≠ -1 then do
      let frames ← setFrame s.frames freeIdx page
      let n := s.lru.count
      let lru := { s.lru with
        count := s.lru.count + 1
        page := update s.lru.page n page
        frameIdx := update s.lru.frameIdx n (.ofInt freeIdx) }
      return ({ r with frameIdx := .ofInt freeIdx },
        { s with frames := frames, lru := lruPushFront lru n })
    else
      match s.lru.links.tail with
      | none => .error .null
      | some victim => do
        let frames ← setFrame s.frames (s.lru.frameIdx victim).toNat page
        -- the node of the victim is reused, so the pool does not grow on an eviction
        let lru := lruRemove s.lru victim
        let lru := { lru with page := update lru.page victim page }
        return ({ r with evicted := s.lru.page victim, frameIdx := s.lru.frameIdx victim },
          { s with frames := frames, lru := lruPushFront lru victim })

/-! ### Second Chance -/

/-- `sc_remove` -/
def scRemove (sc : SecondChance) (n : UInt8) : SecondChance :=
  { sc with links := sc.links.remove n }

/-- `sc_push_back` -/
def scPushBack (sc : SecondChance) (n : UInt8) : SecondChance :=
  { sc with links := sc.links.pushBack n }

/-- The clock sweep: while the head has its bit set, clear it and move the node to the back.
Every round clears a bit, so there are at most `POOL_SIZE` of them. -/
def scSweep : ℕ → SecondChance → Except Fault SecondChance
  | fuel, sc =>
    match sc.links.head with
    | none => .error .null
    | some n =>
      if sc.refBit n ≠ 0 then
        match fuel with
        | 0 => .error .diverge
        | fuel + 1 =>
          scSweep fuel (scPushBack (scRemove { sc with refBit := update sc.refBit n 0 } n) n)
      else .ok sc

/-- `scheduler_second_chance` -/
def schedulerSecondChance : Algo N := fun s page _step =>
  let r : AccessResult := { hit := 0, evicted := FRAME_EMPTY, loaded := page, frameIdx := 0 }
  match DList.search s.sc.links.next (fun n => s.sc.page n == page) POOL_SIZE
      s.sc.links.head with
  | none => .error .diverge
  | some (some n) =>
    .ok ({ r with hit := 1, frameIdx := s.sc.frameIdx n },
      { s with hits := s.hits + 1, sc := { s.sc with refBit := update s.sc.refBit n 1 } })
  | some none =>
    let s := { s with misses := s.misses + 1 }
    let freeIdx := findEmpty s.frames
    if freeIdx ≠ -1 then do
      let frames ← setFrame s.frames freeIdx page
      let n := s.sc.count
      let sc := { s.sc with
        count := s.sc.count + 1
        page := update s.sc.page n page
        frameIdx := update s.sc.frameIdx n (.ofInt freeIdx)
        refBit := update s.sc.refBit n 0 }
      return ({ r with frameIdx := .ofInt freeIdx },
        { s with frames := frames, sc := scPushBack sc n })
    else do
      let sc ← scSweep POOL_SIZE s.sc
      match sc.links.head with
      | none => .error .null
      | some victim => do
        let frames ← setFrame s.frames (sc.frameIdx victim).toNat page
        let sc' := scRemove sc victim
        let sc' := { sc' with
          page := update sc'.page victim page
          refBit := update sc'.refBit victim 0 }
        return ({ r with evicted := sc.page victim, frameIdx := sc.frameIdx victim },
          { s with frames := frames, sc := scPushBack sc' victim })

/-! ### A run (`lib/logger.c`) -/

/-- The static data as the program starts. -/
def zeroMemory (N : ℕ) : State N where
  frames _ := 0
  hits := 0
  misses := 0
  refSeq := []
  fifo := { queue := fun _ => 0, head := 0, count := 0 }
  lru :=
    { links := { head := none, tail := none, prev := fun _ => none, next := fun _ => none }
      page := fun _ => 0
      frameIdx := fun _ => 0
      count := 0 }
  sc :=
    { links := { head := none, tail := none, prev := fun _ => none, next := fun _ => none }
      page := fun _ => 0
      frameIdx := fun _ => 0
      refBit := fun _ => 0
      count := 0 }

/-- The four algorithms `logger_run` can dispatch. -/
inductive Policy where
  | fifo
  | min
  | lru
  | secondChance
  deriving DecidableEq, Repr

/-- The function `logger_run` passes to `run_one`. -/
def Policy.algo : Policy → Algo N
  | .fifo => schedulerFifo
  | .min => schedulerMin
  | .lru => schedulerLru
  | .secondChance => schedulerSecondChance

/-- The first `k` steps of `run_one` on `query`, from whatever the memory held: the state reached
and the results so far. -/
def runSteps (fn : Algo N) (s : State N) (query : List UInt8) :
    ℕ → Except Fault (State N × List AccessResult)
  | 0 => .ok (schedulerReset (schedulerInit s query), [])
  | k + 1 => do
    let (s, rs) ← runSteps fn s query k
    let (r, s) ← fn s (query.getD k 0) (UInt16.ofNat k)
    return (s, rs ++ [r])

/-- `run_one` after `logger_init`: all steps of `query`. -/
def runOne (fn : Algo N) (s : State N) (query : List UInt8) :
    Except Fault (State N × List AccessResult) :=
  runSteps fn s query query.length

end OsLabs.PageReplace
