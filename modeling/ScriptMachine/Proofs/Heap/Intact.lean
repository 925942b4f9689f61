import Mathlib
import ScriptMachine.Proofs.Heap.Marking
import ScriptMachine.Proofs.Stack.Intact

/-!
# A heap that is never left

The roots of a collection are any values at all: arrays that overlap, arrays of another heap, iterators
that were made by hand. What holds whatever they are is that the bitmap covers the slots and no bit
past the last slot is set, and that is enough for every index and every slice to be in range: a value
refers to slots only if all of them are on the heap, and a free block is taken only if it ends there.

As for the stack, this is said by a second version of every operation that has no outcome when an
access is out of range.
-/

namespace ScriptMachine

/-! ### Guarded access to a bitmap -/

namespace Bitmap

namespace Guarded

def isSet (b : Bitmap) (slot : Nat) : Option Bool :=
  (b.pages[slot / pageBits]?).map fun page => pageBit page (slot % pageBits)

def setPages (start stop : Nat) (b : Bitmap) : (index count : Nat) → Option Bitmap
  | _, 0 => some b
  | index, count + 1 =>
    if index < b.pages.size then
      setPages start stop ⟨b.pages.modify index (· ||| pageRange start stop index)⟩ (index + 1) count
    else none

def setRange (b : Bitmap) (start length : Nat) : Option Bitmap :=
  if length = 0 then some b
  else
    let firstPage := start / pageBits
    let lastPage := (start + length - 1) / pageBits
    setPages start (start + length) b firstPage (lastPage + 1 - firstPage)

def findWindow (b : Bitmap) (count : Nat) : (left index : Nat) → Option (Option Nat)
  | 0, _ => some none
  | left + 1, index => do
    match windowIn? count (← b.pages[index]?) with
    | some bit => return some (index * pageBits + bit)
    | none => findWindow b count left (index + 1)

def emptyRun (b : Bitmap) : (left index : Nat) → Option Nat
  | 0, _ => some 0
  | left + 1, index => do
    if (← b.pages[index]?) == 0 then (emptyRun b left (index + 1)).map (1 + ·) else return 0

/-- The pages from `index` to the last one are a slice. -/
def emptyRunFrom (b : Bitmap) (index : Nat) : Option Nat :=
  if index ≤ b.pages.size then emptyRun b (b.pages.size - index) index else none

def fitsAt (b : Bitmap) (fullPages trailing index run : Nat) : Option Bool :=
  if fullPages < run then some true
  else if run = fullPages then
    if trailing = 0 then some true
    else if index + run < b.pages.size then
      (b.pages[index + run]?).map fun page => page &&& lowMask trailing == 0
    else some false
  else some false

def findPages (b : Bitmap) (fullPages trailing : Nat) : (left index : Nat) → Option (Option Nat)
  | 0, _ => some none
  | left + 1, index =>
    if b.pages.size < index + fullPages then some none
    else do
      let run ← emptyRunFrom b index
      if ← fitsAt b fullPages trailing index run then return some (index * pageBits)
      else findPages b fullPages trailing left (index + max run 1)

def findFree (b : Bitmap) (capacity count : Nat) : Option (Option Nat) := do
  let start ←
    if count < pageBits then findWindow b count b.pages.size 0
    else findPages b (count / pageBits) (count % pageBits) (b.pages.size + 1) 0
  return start.filter fun start => decide (start + count ≤ capacity)

end Guarded

variable {b : Bitmap}

theorem page_eq {index : Nat} (h : index < b.pages.size) : b.pages[index]? = some (b.page index) := by
  rw [page, Array.getD_eq_getD_getElem?, Array.getElem?_eq_getElem h]
  rfl

theorem guarded_isSet {slot : Nat} (h : slot < 64 * b.pages.size) :
    Guarded.isSet b slot = some (b.isSet slot) := by
  have hpage : slot / pageBits < b.pages.size := Nat.div_lt_of_lt_mul h
  rw [Guarded.isSet, page_eq hpage]
  rfl

theorem guarded_setPages {start stop : Nat} (b : Bitmap) {index count : Nat}
    (h : index + count ≤ b.pages.size) :
    Guarded.setPages start stop b index count = some (b.setPages start stop index count) := by
  induction count generalizing b index with
  | zero => rfl
  | succ count ih =>
    rw [Guarded.setPages, if_pos (by omega), setPages]
    apply ih
    rw [Array.size_modify]
    omega

theorem guarded_setRange {start length : Nat} (h : start + length ≤ 64 * b.pages.size) :
    Guarded.setRange b start length = some (b.setRange start length) := by
  unfold Guarded.setRange setRange
  split
  · rfl
  · have hlast : (start + length - 1) / pageBits < b.pages.size :=
      Nat.div_lt_of_lt_mul (by rw [pageBits]; omega)
    have hfirst : start / pageBits ≤ (start + length - 1) / pageBits :=
      Nat.div_le_div_right (by omega)
    apply guarded_setPages
    omega

theorem guarded_findWindow {count left index : Nat} (h : index + left ≤ b.pages.size) :
    Guarded.findWindow b count left index = some (b.findWindow? count left index) := by
  induction left generalizing index with
  | zero => rfl
  | succ left ih =>
    rw [Guarded.findWindow, page_eq (by omega), findWindow?, Option.bind_eq_bind, Option.bind_some]
    cases windowIn? count (b.page index) with
    | some bit => rfl
    | none => exact ih (by omega)

theorem guarded_emptyRun {left index : Nat} (h : index + left ≤ b.pages.size) :
    Guarded.emptyRun b left index = some (b.emptyRun left index) := by
  induction left generalizing index with
  | zero => rfl
  | succ left ih =>
    rw [Guarded.emptyRun, page_eq (by omega), emptyRun, ih (by omega), Option.bind_eq_bind, Option.bind_some]
    split <;> rfl

theorem guarded_fitsAt (b : Bitmap) (fullPages trailing index run : Nat) :
    Guarded.fitsAt b fullPages trailing index run = some (b.fitsAt fullPages trailing index run) := by
  unfold Guarded.fitsAt fitsAt
  split_ifs with hrun hfull htrailing hnext
  · simp [hrun]
  · simp [hfull, htrailing]
  · rw [page_eq hnext]
    simp [hfull, htrailing, hfull ▸ hnext]
  · simp [hrun, htrailing, hnext]
  · simp [hrun, hfull]

theorem guarded_findPages (b : Bitmap) (fullPages trailing left index : Nat) :
    Guarded.findPages b fullPages trailing left index = some (b.findPages? fullPages trailing left index) := by
  induction left generalizing index with
  | zero => rfl
  | succ left ih =>
    rw [Guarded.findPages, findPages?]
    split
    · rfl
    · have hindex : index ≤ b.pages.size := by omega
      have hrun : Guarded.emptyRun b (b.pages.size - index) index
          = some (b.emptyRun (b.pages.size - index) index) := guarded_emptyRun (by omega)
      simp only [Guarded.emptyRunFrom, if_pos hindex, hrun, guarded_fitsAt, ih, Option.bind_eq_bind,
        Option.bind_some]
      split <;> rfl

theorem guarded_findFree (b : Bitmap) (capacity count : Nat) :
    Guarded.findFree b capacity count = some (b.findFree? capacity count) := by
  have hwindow : Guarded.findWindow b count b.pages.size 0 = some (b.findWindow? count b.pages.size 0) :=
    guarded_findWindow (Nat.zero_add _).le
  rw [Guarded.findFree, findFree?, hwindow, guarded_findPages]
  split <;> rfl

/-! ### Bitmaps of a number of slots -/

/-- The bitmap covers the slots, and no other slot is in use. -/
structure Fits (capacity : Nat) (b : Bitmap) : Prop where
  pages : b.pages.size = (capacity + 63) / 64
  clear : ∀ slot, capacity ≤ slot → b.isSet slot = false

namespace Fits

variable {capacity : Nat}

theorem empty (capacity : Nat) : Fits capacity (Bitmap.empty capacity) :=
  ⟨size_pages_empty capacity, fun slot _ => isSet_empty capacity slot⟩

theorem le_pages (h : b.Fits capacity) : capacity ≤ 64 * b.pages.size := by
  have hpages := h.pages
  omega

theorem setRange (h : b.Fits capacity) {start length : Nat} (hrange : start + length ≤ capacity) :
    Fits capacity (b.setRange start length) := by
  constructor
  · rw [size_pages_setRange]
    exact h.pages
  · intro slot hslot
    rw [isSet_setRange _ _ _ _ (hrange.trans h.le_pages), h.clear slot hslot, Bool.false_or,
      decide_eq_false_iff_not]
    omega

theorem countP_lt (bound n : Nat) : (List.range n).countP (fun bit => decide (bit < bound)) ≤ bound := by
  have hmin : (List.range n).countP (fun bit => decide (bit < bound)) = min n bound := by
    induction n with
    | zero => simp
    | succ n ih =>
      rw [List.range_succ, List.countP_append, ih, List.countP_singleton]
      split <;> simp_all <;> omega
  rw [hmin]
  exact Nat.min_le_right _ _

theorem pageCount_le (h : b.Fits capacity) (index : Nat) :
    pageCount (b.page index) ≤ min 64 (capacity - 64 * index) := by
  refine Nat.le_min.mpr ⟨?_, ?_⟩
  · exact List.countP_le_length.trans List.length_range.le
  · refine (List.countP_mono_left ?_).trans (countP_lt (capacity - 64 * index) pageBits)
    intro bit hbit hset
    have hbit : bit < 64 := List.mem_range.mp hbit
    by_contra hge
    have hclear := h.clear (64 * index + bit) (by simp at hge; omega)
    rw [isSet, pageBits, Nat.mul_add_div (by decide), Nat.div_eq_of_lt hbit, Nat.mul_add_mod,
      Nat.mod_eq_of_lt hbit, Nat.add_zero, hset] at hclear
    cases hclear

/-- The first pages do not count more bits than they have slots. -/
theorem count_take_le (h : b.Fits capacity) (n : Nat) (hn : n ≤ b.pages.size) :
    (b.pages.toList.take n).foldl (fun total page => total + pageCount page) 0 ≤ min (64 * n) capacity := by
  induction n with
  | zero => simp
  | succ n ih =>
    have hpage := page_eq (b := b) hn
    rw [List.take_add_one, List.foldl_append, Array.getElem?_toList, hpage, Option.toList_some,
      List.foldl_cons, List.foldl_nil]
    have hbelow := ih (Nat.le_of_succ_le hn)
    have hcount := h.pageCount_le n
    omega

theorem count_le (h : b.Fits capacity) : b.count ≤ capacity := by
  have hall := h.count_take_le b.pages.size le_rfl
  rw [← Array.length_toList, List.take_length, Array.foldl_toList] at hall
  exact hall.trans (Nat.min_le_right _ _)

end Fits

end Bitmap

/-! ### Guarded operations -/

namespace Heap

namespace Guarded

/-- The outcome of an action. A guarded action has none when an access is out of range. -/
abbrev Result (α : Type) := EStateM.Result HeapError Heap α

def isMarked (h : Heap) (slot : Nat) : Option Bool :=
  if slot < h.capacity then Bitmap.Guarded.isSet h.marks slot else some false

def get (h : Heap) (address : Address) : Option (Option Value) :=
  match h.slotAt? address 1 with
  | none => some none
  | some slot => (h.slots[slot]?).map some

def elements (h : Heap) (address : Address) (length : Nat) : Option (Option (List Value)) :=
  if length = 0 then some (some [])
  else
    match h.slotAt? address length with
    | none => some none
    | some start => (Slots.slice? h.slots start (start + length)).map some

def rangesIn (h : Heap) (range : Nat × Nat) : Option (List (Nat × Nat)) :=
  (Slots.slice? h.slots range.1 (range.1 + range.2)).map fun values => (values.filterMap h.range?).reverse

/-- The pending ranges from the first one on whose first slot is not marked. -/
def unmarked (marks : Bitmap) : List (Nat × Nat) → Option (List (Nat × Nat))
  | [] => some []
  | range :: rest => do
    if ← Bitmap.Guarded.isSet marks range.1 then unmarked marks rest else return range :: rest

def mark (h : Heap) : (rounds : Nat) → (pending : List (Nat × Nat)) → Bitmap → Option Bitmap
  | 0, _, marks => some marks
  | rounds + 1, pending, marks => do
    match ← unmarked marks pending with
    | [] => return marks
    | range :: rest =>
      let marks ← Bitmap.Guarded.setRange marks range.1 range.2
      let inner ← rangesIn h range
      mark h rounds (inner ++ rest) marks

def collect (roots : List Value) (h : Heap) : Option Heap :=
  (mark h (h.capacity + 1) (roots.filterMap h.range?).reverse (Bitmap.empty h.capacity)).map fun marks =>
    { h with marks := marks, collections := h.collections + 1 }

/-- The address of the block has to be one that can be written down. -/
def take (count start : Nat) : Heap → Option (Result Address) := fun ⟨slots, marks, base, collections⟩ => do
  let marks ← Bitmap.Guarded.setRange marks start count
  let slots ← Slots.clear? slots start (start + count)
  if base + start ≤ maxOffset then
    return .ok (.mutable (.ofNat (base + start))) ⟨slots, marks, base, collections⟩
  else none

def allocate (count : Nat) (roots : List Value) (h : Heap) : Option (Result Address) :=
  if count = 0 then some (.ok .null h)
  else if h.capacity < count ∨ maxArrayLength < count then some (.error (.tooLarge count h.capacity) h)
  else do
    match ← Bitmap.Guarded.findFree h.marks h.capacity count with
    | some start => take count start h
    | none =>
      let h ← collect roots h
      match ← Bitmap.Guarded.findFree h.marks h.capacity count with
      | some start => take count start h
      | none => return .error (.exhausted count) h

def copyInto (values : List Value) (address : Address) (length : Nat) (h : Heap) : Option (Result Nat) :=
  let count := min values.length length
  if count = 0 then some (.ok 0 h)
  else
    match h.slotAt? address length with
    | none => some (.error (.outOfBounds address) h)
    | some start =>
      (Slots.write? h.slots start (values.take count)).map fun slots => .ok count { h with slots := slots }

end Guarded

/-- Every index and every slice that an operation takes lies in the row or among the pages. -/
structure AccessesInRange (h : Heap) : Prop where
  isMarked : ∀ slot, Guarded.isMarked h slot = some (h.isMarked slot)
  get : ∀ address, Guarded.get h address = some (h.get? address)
  elements : ∀ address length, Guarded.elements h address length = some (h.elements? address length)
  collect : ∀ roots, Guarded.collect roots h = some (h.collect roots)
  allocate : ∀ count roots, Guarded.allocate count roots h = some (Heap.allocate count roots h)
  copyInto : ∀ values address length,
    Guarded.copyInto values address length h = some (Heap.copyInto values address length h)

def leftBy {α : Type} (action : Action α) (h : Heap) : Heap :=
  match action h with
  | .ok _ left => left
  | .error _ left => left

/-- The shape that every operation keeps. -/
structure Intact (capacity base : Nat) (h : Heap) : Prop where
  capacity_eq : h.capacity = capacity
  base_eq : h.base = base
  marks : h.marks.Fits capacity
  reach : base + capacity ≤ 2 ^ 30

variable {h : Heap} {capacity base : Nat}

/-! ### A collection -/

/-- Everything that is pending is on the heap. -/
def Bounded (h : Heap) (pending : List (Nat × Nat)) : Prop :=
  ∀ range ∈ pending, 0 < range.2 ∧ range.1 + range.2 ≤ h.capacity

theorem bounded_filterMap (h : Heap) (values : List Value) : h.Bounded (values.filterMap h.range?).reverse := by
  intro range hrange
  obtain ⟨value, -, hvalue⟩ := List.mem_filterMap.mp (List.mem_reverse.mp hrange)
  exact range?_bounds hvalue

theorem guarded_unmarked {marks : Bitmap} (hmarks : marks.Fits h.capacity) {pending : List (Nat × Nat)}
    (hpending : h.Bounded pending) :
    Guarded.unmarked marks pending = some (pending.dropWhile fun range => marks.isSet range.1) := by
  induction pending with
  | nil => rfl
  | cons range rest ih =>
    have hrange := hpending range (by simp)
    have hpages := hmarks.le_pages
    rw [Guarded.unmarked, Bitmap.guarded_isSet (by omega), List.dropWhile_cons,
      ih fun other hother => hpending other (by simp [hother])]
    cases marks.isSet range.1 <;> rfl

/-- One round of a collection: the range is on the heap, and so is what its slots refer to. -/
theorem Bounded.round {range : Nat × Nat} {pending rest : List (Nat × Nat)} {marks : Bitmap}
    (hpending : h.Bounded pending)
    (hnext : pending.dropWhile (fun range => marks.isSet range.1) = range :: rest) :
    range.1 + range.2 ≤ h.capacity ∧ h.Bounded (h.rangesIn range ++ rest) := by
  have hleft : h.Bounded (range :: rest) := by
    intro other hother
    rw [← hnext] at hother
    exact hpending other ((List.dropWhile_sublist _).subset hother)
  refine ⟨(hleft range (by simp)).2, ?_⟩
  intro other hother
  rcases List.mem_append.mp hother with hinner | hrest
  · exact bounded_filterMap h _ other hinner
  · exact hleft other (by simp [hrest])

theorem guarded_mark (rounds : Nat) {pending : List (Nat × Nat)} {marks : Bitmap}
    (hmarks : marks.Fits h.capacity) (hpending : h.Bounded pending) :
    Guarded.mark h rounds pending marks = some (h.mark rounds pending marks) ∧
      (h.mark rounds pending marks).Fits h.capacity := by
  induction rounds generalizing pending marks with
  | zero => exact ⟨rfl, hmarks⟩
  | succ rounds ih =>
    rw [Guarded.mark, guarded_unmarked hmarks hpending, mark, Option.bind_eq_bind, Option.bind_some]
    cases hnext : pending.dropWhile fun range => marks.isSet range.1 with
    | nil => exact ⟨rfl, hmarks⟩
    | cons range rest =>
      obtain ⟨hrange, hinner⟩ := hpending.round hnext
      have hset := Bitmap.guarded_setRange (hrange.trans hmarks.le_pages)
      have hslice := Slots.slice?_eq (Nat.le_add_right range.1 range.2) hrange
      simp only [hset, Guarded.rangesIn, hslice, Option.bind_some, Option.map_some]
      exact ih (hmarks.setRange hrange) hinner

/-! ### Intact heaps are in range -/

namespace Intact

theorem create {settings : HeapSettings} (hcreate : Heap.create settings = .ok h) :
    h.Intact settings.size settings.base := by
  unfold Heap.create at hcreate
  split at hcreate
  · cases hcreate
  · rename_i hcheck
    cases hcreate
    unfold HeapSettings.check at hcheck
    split_ifs at hcheck with hempty hreach
    exact ⟨Slots.size_empty _, rfl, Bitmap.Fits.empty _, by simp [maxOffset] at hreach; omega⟩

theorem size_eq (hi : h.Intact capacity base) : h.slots.size = capacity :=
  hi.capacity_eq

theorem mark (hi : h.Intact capacity base) (roots : List Value) :
    Guarded.collect roots h = some (h.collect roots) ∧ (h.reachableMarks roots).Fits capacity := by
  have hempty : (Bitmap.empty h.capacity).Fits h.capacity := Bitmap.Fits.empty _
  obtain ⟨hmark, hfits⟩ := guarded_mark (h.capacity + 1) hempty (bounded_filterMap h roots)
  rw [hi.capacity_eq] at hfits
  refine ⟨?_, ?_⟩
  · rw [Guarded.collect, hmark]
    rfl
  · rw [reachableMarks, hi.capacity_eq]
    exact hfits

theorem collect (hi : h.Intact capacity base) (roots : List Value) :
    Intact capacity base (h.collect roots) :=
  ⟨hi.capacity_eq, hi.base_eq, (hi.mark roots).2, hi.reach⟩

theorem take (hi : h.Intact capacity base) {count start : Nat} (hcount : 0 < count)
    (hfree : start + count ≤ capacity) :
    Guarded.take count start h = some (Heap.take count start h) ∧
      Intact capacity base (leftBy (Heap.take count start) h) := by
  obtain ⟨slots, marks, base', collections⟩ := h
  obtain rfl : base' = base := hi.base_eq
  have hsize : slots.size = capacity := hi.size_eq
  have hreach := hi.reach
  refine ⟨?_, ?_⟩
  · have hset := Bitmap.guarded_setRange (hfree.trans hi.marks.le_pages)
    have hclear : Slots.clear? slots start (start + count) = some (Slots.clear slots start count) := by
      rw [Slots.clear?, if_pos (by omega), Nat.add_sub_cancel_left]
    have haddress : base' + start ≤ maxOffset := by
      rw [maxOffset]
      omega
    simp only [Guarded.take, hset, hclear, haddress, if_true, Option.bind_eq_bind, Option.bind_some]
    rfl
  · exact ⟨(Slots.size_clear _ _ _).trans hsize, rfl, hi.marks.setRange hfree, hreach⟩

theorem take_of_findFree (hi : h.Intact capacity base) {count start : Nat} (hcount : 0 < count)
    (hfree : h.marks.findFree? h.capacity count = some start) :
    Guarded.take count start h = some (Heap.take count start h) ∧
      Intact capacity base (leftBy (Heap.take count start) h) := by
  obtain ⟨hbound, -⟩ := Bitmap.findFree?_ok hcount hfree
  rw [hi.capacity_eq] at hbound
  exact hi.take hcount hbound

theorem allocate (hi : h.Intact capacity base) (count : Nat) (roots : List Value) :
    Guarded.allocate count roots h = some (Heap.allocate count roots h) ∧
      Intact capacity base (leftBy (Heap.allocate count roots) h) := by
  rw [Guarded.allocate, leftBy, Heap.allocate]
  by_cases hzero : count = 0
  · simp only [hzero, if_true]
    exact ⟨trivial, hi⟩
  have hcount : 0 < count := Nat.pos_of_ne_zero hzero
  by_cases hlarge : h.capacity < count ∨ maxArrayLength < count
  · simp only [hzero, hlarge, if_true, if_false]
    exact ⟨trivial, hi⟩
  simp only [hzero, hlarge, if_false, Bitmap.guarded_findFree, (hi.mark roots).1, Option.bind_eq_bind,
    Option.bind_some]
  cases hfree : h.marks.findFree? h.capacity count with
  | some start => exact hi.take_of_findFree hcount hfree
  | none =>
    have hcollected := hi.collect roots
    cases hagain : (h.collect roots).marks.findFree? (h.collect roots).capacity count with
    | some start => exact hcollected.take_of_findFree hcount hagain
    | none => exact ⟨rfl, hcollected⟩

theorem copyInto (hi : h.Intact capacity base) (values : List Value) (address : Address) (length : Nat) :
    Guarded.copyInto values address length h = some (Heap.copyInto values address length h) ∧
      Intact capacity base (leftBy (Heap.copyInto values address length) h) := by
  simp only [Guarded.copyInto, leftBy, Heap.copyInto]
  by_cases hzero : min values.length length = 0
  · simp only [hzero, if_true]
    exact ⟨trivial, hi⟩
  simp only [hzero, if_false]
  cases hstart : h.slotAt? address length with
  | none => exact ⟨rfl, hi⟩
  | some start =>
    obtain ⟨-, -, -, hbound⟩ := slotAt?_eq_some.mp hstart
    have hwrite : start + (values.take (min values.length length)).length ≤ h.slots.size := by
      rw [List.length_take]
      exact Nat.le_trans (by omega) hbound
    simp only [Slots.write?, if_pos hwrite, Option.map_some]
    exact ⟨trivial, (Slots.size_write _ _ _).trans hi.size_eq, hi.base_eq, hi.marks, hi.reach⟩

/-- On an intact heap no access is out of range. -/
theorem accessesInRange (hi : h.Intact capacity base) : h.AccessesInRange where
  isMarked slot := by
    unfold Guarded.isMarked Heap.isMarked
    by_cases hslot : slot < h.capacity
    · have hpages := hi.marks.le_pages
      have hcapacity := hi.capacity_eq
      rw [if_pos hslot, Bitmap.guarded_isSet (by omega), decide_eq_true hslot, Bool.true_and]
    · rw [if_neg hslot, decide_eq_false hslot, Bool.false_and]
  get address := by
    unfold Guarded.get get?
    cases hstart : h.slotAt? address 1 with
    | none => rfl
    | some start =>
      obtain ⟨-, -, -, hbound⟩ := slotAt?_eq_some.mp hstart
      simp only [Slots.getElem?_eq_read hbound, Option.map_some]
  elements address length := by
    unfold Guarded.elements elements?
    by_cases hzero : length = 0
    · rw [if_pos hzero, if_pos hzero]
    · rw [if_neg hzero, if_neg hzero]
      cases hstart : h.slotAt? address length with
      | none => rfl
      | some start =>
        obtain ⟨-, -, -, hbound⟩ := slotAt?_eq_some.mp hstart
        simp only [Slots.slice?_eq (Nat.le_add_right start length) hbound, Option.map_some]
  collect roots := (hi.mark roots).1
  allocate count roots := (hi.allocate count roots).1
  copyInto values address length := (hi.copyInto values address length).1

theorem used_le (hi : h.Intact capacity base) : h.used ≤ capacity :=
  hi.marks.count_le

end Intact

/-! ### Every operation keeps a heap intact -/

/-- What a host may do with the heap of a machine. -/
inductive Method where
  | collect (roots : List Value)
  | allocate (count : Nat) (roots : List Value)
  | copyInto (values : List Value) (address : Address) (length : Nat)

def Method.apply : Method → Heap → Heap
  | .collect roots => Heap.collect roots
  | .allocate count roots => leftBy (Heap.allocate count roots)
  | .copyInto values address length => leftBy (Heap.copyInto values address length)

/-- No method breaks the heap. -/
theorem Intact.apply (hi : h.Intact capacity base) (method : Method) :
    Intact capacity base (method.apply h) := by
  cases method with
  | collect roots => exact hi.collect roots
  | allocate count roots => exact (hi.allocate count roots).2
  | copyInto values address length => exact (hi.copyInto values address length).2

end Heap

end ScriptMachine
