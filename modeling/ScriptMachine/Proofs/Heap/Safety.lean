import Mathlib
import ScriptMachine.Proofs.Heap.Marking

/-!
# What can be reached stays

A heap is safe for its roots if every slot that they reach is in use and ranges in reach that overlap end
together. Collecting, taking a free block into use, writing values that are roots already and giving up
roots keep a heap safe. A block that is taken lies apart from everything in reach, so the values of a new
array are stored without touching anything that its user still has.
-/

namespace ScriptMachine

/-- The slots that an array or an iterator refers to, as an address and a number. -/
def Value.reference? : Value → Option (Address × UInt32)
  | .array address length | .iterator address length => some (address, length)
  | _ => none

namespace Heap

variable {h h' : Heap} {roots values : List Value} {range : Nat × Nat} {value : Value} {start count : Nat}

theorem range?_eq (h : Heap) (value : Value) :
    h.range? value = value.reference?.bind fun (address, length) =>
      if length = 0 then none else (h.slotAt? address length.toNat).map (·, length.toNat) := by
  cases value <;> rfl

theorem range?_congr (hsize : h'.slots.size = h.slots.size) (hbase : h'.base = h.base) (value : Value) :
    h'.range? value = h.range? value := by
  have hslot (address : Address) (length : Nat) : h'.slotAt? address length = h.slotAt? address length := by
    apply Option.ext
    intro start
    simp only [slotAt?_eq_some, capacity, hsize, hbase]
  rw [range?_eq, range?_eq]
  simp only [hslot]

/-- Only the slots and where they begin matter for what can be reached. -/
theorem Reachable.congr (hslots : h'.slots = h.slots) (hbase : h'.base = h.base)
    (hrange : h'.Reachable roots range) : h.Reachable roots range := by
  have hsame := range?_congr (congrArg Array.size hslots) hbase
  induction hrange with
  | root hvalue hrange =>
    rw [hsame] at hrange
    exact .root hvalue hrange
  | slot _ hslot hrange ih =>
    rw [hsame, hslots] at hrange
    exact .slot ih hslot hrange

theorem tailsMeet_congr (hslots : h'.slots = h.slots) (hbase : h'.base = h.base)
    (htails : h.TailsMeet roots) : h'.TailsMeet roots := by
  intro range other slot hrange hother
  exact htails range other slot (hrange.congr hslots hbase) (hother.congr hslots hbase)

theorem range?_mutable {offset length : UInt32} (hvalue : value.reference? = some (.mutable offset, length))
    {start : Nat} (hoffset : offset.toNat = h.base + start) (hlength : length ≠ 0)
    (hbound : start + length.toNat ≤ h.capacity) : h.range? value = some (start, length.toNat) := by
  have hslot : h.slotAt? (.mutable offset) length.toNat = some start :=
    slotAt?_eq_some.mpr ⟨offset, rfl, hoffset, hbound⟩
  rw [range?_eq, hvalue]
  simp [hlength, hslot]

theorem range?_eq_some (hrange : h.range? value = some range) :
    ∃ offset length, value.reference? = some (.mutable offset, length) ∧ length ≠ 0 ∧
      offset.toNat = h.base + range.1 ∧ length.toNat = range.2 ∧ range.1 + range.2 ≤ h.capacity := by
  rw [range?_eq] at hrange
  obtain ⟨⟨address, length⟩, hreference, hrange⟩ := Option.bind_eq_some_iff.mp hrange
  dsimp only at hrange
  split at hrange
  · cases hrange
  · rename_i hlength
    obtain ⟨start, hstart, rfl⟩ := Option.map_eq_some_iff.mp hrange
    obtain ⟨offset, rfl, hoffset, hbound⟩ := slotAt?_eq_some.mp hstart
    exact ⟨offset, length, hreference, hlength, hoffset, rfl, hbound⟩

/-! ### Safe heaps -/

/-- What can be reached from the roots is in use, and ranges that overlap end together. -/
structure Safe (h : Heap) (roots : List Value) : Prop where
  shaped : h.Shaped
  marked : ∀ range slot, h.Reachable roots range → InRange range slot → h.marks.isSet slot = true
  tails : h.TailsMeet roots

theorem Reachable.mono {fewer : List Value} (hroots : fewer ⊆ roots) (hrange : h.Reachable fewer range) :
    h.Reachable roots range := by
  induction hrange with
  | root hvalue hrange => exact .root (hroots hvalue) hrange
  | slot _ hslot hrange ih => exact .slot ih hslot hrange

theorem Safe.mono {fewer : List Value} (hs : h.Safe roots) (hroots : fewer ⊆ roots) : h.Safe fewer where
  shaped := hs.shaped
  marked range slot hrange := hs.marked range slot (hrange.mono hroots)
  tails range other slot hrange hother := hs.tails range other slot (hrange.mono hroots) (hother.mono hroots)

theorem Safe.collect (hs : h.Safe roots) : Safe (h.collect roots) roots := by
  obtain ⟨done, hprogress⟩ := exists_progress h roots
  have hslots : (h.collect roots).slots = h.slots := rfl
  have hbase : (h.collect roots).base = h.base := rfl
  refine ⟨⟨hprogress.pages, hs.shaped.reach⟩, fun range slot hrange hslot => ?_,
    tailsMeet_congr hslots hbase hs.tails⟩
  exact isSet_reachableMarks hs.tails (hrange.congr hslots hbase) hslot

/-- Free slots cannot be reached. -/
theorem Safe.apart (hs : h.Safe roots) (hfree : h.marks.FreeIn start (start + count)) {slot : Nat}
    (hrange : h.Reachable roots range) (hslot : InRange range slot) : ¬InRange (start, count) slot := by
  intro hin
  have hset := hs.marked range slot hrange hslot
  rw [hfree slot hin.1 hin.2] at hset
  cases hset

/-! ### Taking a block into use -/

/-- The heap after a block of free slots was taken into use. -/
def taken (h : Heap) (start count : Nat) : Heap :=
  { h with slots := Slots.clear h.slots start count, marks := h.marks.setRange start count }

def block (h : Heap) (start count : Nat) : Value :=
  .array (.mutable (.ofNat (h.base + start))) (.ofNat count)

@[simp] theorem capacity_taken (h : Heap) (start count : Nat) : (h.taken start count).capacity = h.capacity :=
  Slots.size_clear _ _ _

theorem toNat_blockOffset (hreach : h.base + h.capacity ≤ maxOffset + 1) (hcount : 0 < count)
    (hbound : start + count ≤ h.capacity) : (UInt32.ofNat (h.base + start)).toNat = h.base + start := by
  have hmax : maxOffset = 0x3fffffff := rfl
  rw [UInt32.toNat_ofNat']
  omega

theorem toNat_blockLength (hlarge : count ≤ maxArrayLength) : (UInt32.ofNat count).toNat = count := by
  have hlargest : maxArrayLength = 0xffffff := rfl
  rw [UInt32.toNat_ofNat']
  omega

/-- The slots of a block are those at its address. -/
theorem slotAt?_block (hreach : h.base + h.capacity ≤ maxOffset + 1) (hcount : 0 < count)
    (hbound : start + count ≤ h.capacity) :
    h.slotAt? (.mutable (.ofNat (h.base + start))) count = some start :=
  slotAt?_eq_some.mpr ⟨_, rfl, toNat_blockOffset hreach hcount hbound, hbound⟩

theorem range?_block (hshaped : h.Shaped) (hcount : 0 < count) (hlarge : count ≤ maxArrayLength)
    (hbound : start + count ≤ h.capacity) : h.range? (h.block start count) = some (start, count) := by
  have hexact := toNat_blockLength hlarge
  have hne : UInt32.ofNat count ≠ 0 := by
    intro hzero
    rw [hzero] at hexact
    exact absurd hexact (by simp; omega)
  have hrange : h.range? (h.block start count) = some (start, (UInt32.ofNat count).toNat) :=
    range?_mutable rfl (toNat_blockOffset hshaped.reach hcount hbound) hne (by omega)
  rwa [hexact] at hrange

theorem range?_taken (h : Heap) (start count : Nat) (value : Value) :
    (h.taken start count).range? value = h.range? value := by
  have hsize : (h.taken start count).slots.size = h.slots.size := by simp [taken]
  exact range?_congr hsize rfl value

theorem shaped_taken (hshaped : h.Shaped) (start count : Nat) : (h.taken start count).Shaped where
  pages := by
    rw [capacity_taken, taken, Bitmap.size_pages_setRange]
    exact hshaped.pages
  reach := by
    rw [capacity_taken]
    exact hshaped.reach

/-- What is reached after an allocation is the block or was reached before. -/
theorem reachable_taken (hshaped : h.Shaped) (hcount : 0 < count) (hlarge : count ≤ maxArrayLength)
    (hbound : start + count ≤ h.capacity)
    (hrange : (h.taken start count).Reachable (roots ++ [h.block start count]) range) :
    range = (start, count) ∨ h.Reachable roots range := by
  induction hrange with
  | root hvalue hrange =>
    rw [range?_taken] at hrange
    rcases List.mem_append.mp hvalue with hold | hnew
    · exact .inr (.root hold hrange)
    · rw [List.mem_singleton.mp hnew, range?_block hshaped hcount hlarge hbound] at hrange
      cases hrange
      exact .inl rfl
  | @slot outer range slot _ hslot hrange ih =>
    rw [range?_taken, taken, Slots.read_clear] at hrange
    split at hrange
    · cases hrange
    · rename_i houtside
      rcases ih with rfl | houter
      · exact absurd hslot houtside
      · exact .inr (.slot houter hslot hrange)

theorem Safe.take (hs : h.Safe roots) (hcount : 0 < count) (hlarge : count ≤ maxArrayLength)
    (hbound : start + count ≤ h.capacity) (hfree : h.marks.FreeIn start (start + count)) :
    (h.taken start count).Safe (roots ++ [h.block start count]) := by
  have hcases {range : Nat × Nat}
      (hrange : (h.taken start count).Reachable (roots ++ [h.block start count]) range) :=
    reachable_taken hs.shaped hcount hlarge hbound hrange
  refine ⟨shaped_taken hs.shaped start count, fun range slot hrange hslot => ?_,
    fun range other slot hrange hother hin hin' => ?_⟩
  · have hset := Bitmap.isSet_setRange h.marks start count slot (hbound.trans hs.shaped.pages)
    simp only [taken, hset, Bool.or_eq_true, decide_eq_true_eq]
    rcases hcases hrange with rfl | hold
    · exact .inr hslot
    · exact .inl (hs.marked range slot hold hslot)
  · rcases hcases hrange with rfl | hold <;> rcases hcases hother with rfl | hold'
    · rfl
    · exact absurd hin (hs.apart hfree hold' hin')
    · exact absurd hin' (hs.apart hfree hold hin)
    · exact hs.tails range other slot hold hold' hin hin'

/-! ### Writing values -/

def written (h : Heap) (start : Nat) (values : List Value) : Heap :=
  { h with slots := Slots.write h.slots start values }

@[simp] theorem capacity_written (h : Heap) (start : Nat) (values : List Value) :
    (h.written start values).capacity = h.capacity :=
  Slots.size_write _ _ _

theorem range?_written (h : Heap) (start : Nat) (values : List Value) (value : Value) :
    (h.written start values).range? value = h.range? value := by
  have hsize : (h.written start values).slots.size = h.slots.size := by simp [written]
  exact range?_congr hsize rfl value

theorem shaped_written (hshaped : h.Shaped) (start : Nat) (values : List Value) :
    (h.written start values).Shaped where
  pages := by
    rw [capacity_written]
    exact hshaped.pages
  reach := by
    rw [capacity_written]
    exact hshaped.reach

theorem read_written (hbound : start + values.length ≤ h.capacity) (slot : Nat) :
    Slots.read (h.written start values).slots slot
      = if start ≤ slot ∧ slot < start + values.length then values.getD (slot - start) .nothing
        else Slots.read h.slots slot := by
  rw [written, Slots.read_write]
  congr 1
  simp only [eq_iff_iff, and_congr_right_iff, and_iff_left_iff_imp]
  intro _ hlt
  exact Nat.lt_of_lt_of_le hlt hbound

/-- A slot holds one of the values that were written, or what it held. -/
theorem read_written_mem (hbound : start + values.length ≤ h.capacity) (slot : Nat) :
    Slots.read (h.written start values).slots slot ∈ values ∨
      Slots.read (h.written start values).slots slot = Slots.read h.slots slot := by
  rw [read_written hbound]
  split
  · left
    rw [List.getD_eq_getElem _ _ (by omega)]
    exact List.getElem_mem _
  · exact .inr rfl

/-- Values that are roots already bring nothing new into reach. -/
theorem reachable_written (hvalues : values ⊆ roots) (hbound : start + values.length ≤ h.capacity)
    (hrange : (h.written start values).Reachable roots range) : h.Reachable roots range := by
  induction hrange with
  | root hvalue hrange =>
    rw [range?_written] at hrange
    exact .root hvalue hrange
  | @slot outer range slot _ hslot hrange ih =>
    rw [range?_written] at hrange
    rcases read_written_mem hbound slot with hroot | hsame
    · exact .root (hvalues hroot) hrange
    · rw [hsame] at hrange
      exact .slot ih hslot hrange

theorem Safe.write (hs : h.Safe roots) (hvalues : values ⊆ roots)
    (hbound : start + values.length ≤ h.capacity) : (h.written start values).Safe roots where
  shaped := shaped_written hs.shaped start values
  marked range slot hrange := hs.marked range slot (reachable_written hvalues hbound hrange)
  tails range other slot hrange hother :=
    hs.tails range other slot (reachable_written hvalues hbound hrange)
      (reachable_written hvalues hbound hother)

theorem copyInto_error {address : Address} {length : Nat} {e : HeapError}
    (hcopy : copyInto values address length h = .error e h') :
    h' = h ∧ h.slotAt? address length = none ∧ 0 < min values.length length := by
  simp only [copyInto] at hcopy
  split_ifs at hcopy with hzero
  split at hcopy
  · rename_i hstart
    cases hcopy
    exact ⟨rfl, hstart, Nat.pos_of_ne_zero hzero⟩
  · cases hcopy

theorem copyInto_ok {address : Address} {length copied : Nat}
    (hcopy : copyInto values address length h = .ok copied h') :
    copied = min values.length length ∧ ((copied = 0 ∧ h' = h) ∨
      ∃ start, h.slotAt? address length = some start ∧ h' = h.written start (values.take copied)) := by
  simp only [copyInto] at hcopy
  split at hcopy
  · rename_i hzero
    cases hcopy
    exact ⟨hzero.symm, .inl ⟨rfl, rfl⟩⟩
  · split at hcopy
    · cases hcopy
    · rename_i start hstart
      cases hcopy
      exact ⟨rfl, .inr ⟨start, hstart, rfl⟩⟩

/-! ### Allocating -/

/-- The heap in which an allocation looks for its block in the end: the heap as it is if a block is found
there, and what a collection leaves of it otherwise. -/
def searched (count : Nat) (roots : List Value) (h : Heap) : Heap :=
  if (h.marks.findFree? h.capacity count).isSome then h else h.collect roots

theorem searched_of_some (hfree : h.marks.findFree? h.capacity count = some start) :
    h.searched count roots = h := by
  rw [searched, hfree, Option.isSome_some, if_pos rfl]

theorem searched_of_none (hfree : h.marks.findFree? h.capacity count = none) :
    h.searched count roots = h.collect roots := by
  rw [searched, hfree, Option.isSome_none, if_neg Bool.false_ne_true]

theorem searched_cases (count : Nat) (roots : List Value) (h : Heap) :
    h.searched count roots = h ∨ h.searched count roots = h.collect roots := by
  cases hfree : h.marks.findFree? h.capacity count with
  | some start => exact .inl (searched_of_some hfree)
  | none => exact .inr (searched_of_none hfree)

@[simp] theorem slots_searched (count : Nat) (roots : List Value) (h : Heap) :
    (h.searched count roots).slots = h.slots := by
  rcases searched_cases count roots h with hsame | hsame
  · rw [hsame]
  · rw [hsame]
    rfl

@[simp] theorem base_searched (count : Nat) (roots : List Value) (h : Heap) :
    (h.searched count roots).base = h.base := by
  rcases searched_cases count roots h with hsame | hsame
  · rw [hsame]
  · rw [hsame]
    rfl

@[simp] theorem capacity_searched (count : Nat) (roots : List Value) (h : Heap) :
    (h.searched count roots).capacity = h.capacity :=
  congrArg Array.size (slots_searched count roots h)

theorem Safe.searched (hs : h.Safe roots) (count : Nat) : (h.searched count roots).Safe roots := by
  rcases searched_cases count roots h with hsame | hsame
  · rw [hsame]
    exact hs
  · rw [hsame]
    exact hs.collect

/-- A block that is found in the end is taken. -/
theorem allocate_eq_ok (hcount : 0 < count) (hfits : count ≤ h.capacity) (hlarge : count ≤ maxArrayLength)
    (hfound : (h.searched count roots).marks.findFree? h.capacity count = some start) :
    allocate count roots h
      = .ok (.mutable (.ofNat (h.base + start))) ((h.searched count roots).taken start count) := by
  rw [allocate, if_neg (Nat.ne_of_gt hcount), if_neg (by omega)]
  cases hfree : h.marks.findFree? h.capacity count with
  | some first =>
    rw [searched_of_some hfree] at hfound ⊢
    rw [hfree] at hfound
    cases hfound
    rfl
  | none =>
    rw [searched_of_none hfree] at hfound ⊢
    have hagain : (h.collect roots).marks.findFree? (h.collect roots).capacity count = some start := hfound
    simp only [hagain]
    rfl

/-- If no block is found in the end, a collection was tried. -/
theorem allocate_eq_error (hcount : 0 < count) (hfits : count ≤ h.capacity)
    (hlarge : count ≤ maxArrayLength)
    (hfound : (h.searched count roots).marks.findFree? h.capacity count = none) :
    h.searched count roots = h.collect roots ∧
      allocate count roots h = .error (.exhausted count) (h.collect roots) := by
  rw [allocate, if_neg (Nat.ne_of_gt hcount), if_neg (by omega)]
  cases hfree : h.marks.findFree? h.capacity count with
  | some first =>
    rw [searched_of_some hfree, hfree] at hfound
    cases hfound
  | none =>
    rw [searched_of_none hfree] at hfound
    have hagain : (h.collect roots).marks.findFree? (h.collect roots).capacity count = none := hfound
    simp only [hagain]
    exact ⟨searched_of_none hfree, trivial⟩

/-- Too many slots are refused before anything is looked at. -/
theorem allocate_tooLarge (roots : List Value) (hlarge : h.capacity < count ∨ maxArrayLength < count) :
    allocate count roots h = .error (.tooLarge count h.capacity) h := by
  rw [allocate, if_neg (by omega), if_pos hlarge]

/-- An allocation asks for nothing, takes a block that was found in the end, or fails. -/
theorem allocate_cases (count : Nat) (roots : List Value) (h : Heap) :
    (count = 0 ∧ allocate count roots h = .ok .null h) ∨
    (0 < count ∧ count ≤ maxArrayLength ∧ ∃ start,
      (h.searched count roots).marks.findFree? h.capacity count = some start ∧
      allocate count roots h
        = .ok (.mutable (.ofNat (h.base + start))) ((h.searched count roots).taken start count)) ∨
    ∃ e left, allocate count roots h = .error e left ∧ (left = h ∨ left = h.collect roots) := by
  rcases Nat.eq_zero_or_pos count with rfl | hcount
  · exact .inl ⟨rfl, rfl⟩
  by_cases hlarge : h.capacity < count ∨ maxArrayLength < count
  · exact .inr (.inr ⟨_, _, allocate_tooLarge roots hlarge, .inl rfl⟩)
  obtain ⟨hfits, hlength⟩ : count ≤ h.capacity ∧ count ≤ maxArrayLength := by omega
  cases hfound : (h.searched count roots).marks.findFree? h.capacity count with
  | some start =>
    exact .inr (.inl ⟨hcount, hlength, start, rfl, allocate_eq_ok hcount hfits hlength hfound⟩)
  | none => exact .inr (.inr ⟨_, _, (allocate_eq_error hcount hfits hlength hfound).2, .inr rfl⟩)

theorem allocate_ok {address : Address} (hallocate : allocate count roots h = .ok address h') :
    (count = 0 ∧ address = .null ∧ h' = h) ∨
    0 < count ∧ count ≤ maxArrayLength ∧ ∃ start, start + count ≤ h.capacity ∧
      (h.searched count roots).marks.FreeIn start (start + count) ∧
      address = .mutable (.ofNat (h.base + start)) ∧ h' = (h.searched count roots).taken start count := by
  rcases allocate_cases count roots h with
    ⟨hnone, hsame⟩ | ⟨hcount, hlarge, start, hfound, htaken⟩ | ⟨e, left, herror, -⟩
  · rw [hsame] at hallocate
    cases hallocate
    exact .inl ⟨hnone, rfl, rfl⟩
  · obtain ⟨hbound, hfree⟩ := Bitmap.findFree?_ok hcount hfound
    rw [htaken] at hallocate
    cases hallocate
    exact .inr ⟨hcount, hlarge, start, hbound, hfree, rfl, rfl⟩
  · rw [herror] at hallocate
    cases hallocate

/-- The length of a new array is the number of its slots. -/
theorem toNat_of_allocate {address : Address} (hallocate : allocate count roots h = .ok address h') :
    (UInt32.ofNat count).toNat = count := by
  obtain ⟨rfl, -⟩ | ⟨-, hlarge, -⟩ := allocate_ok hallocate
  · rfl
  · exact toNat_blockLength hlarge

theorem allocate_error {e : HeapError} (hallocate : allocate count roots h = .error e h') :
    h' = h ∨ h' = h.collect roots := by
  rcases allocate_cases count roots h with
    ⟨-, hsame⟩ | ⟨-, -, start, -, htaken⟩ | ⟨e, left, herror, hleft⟩
  · rw [hsame] at hallocate
    cases hallocate
  · rw [htaken] at hallocate
    cases hallocate
  · rw [herror] at hallocate
    cases hallocate
    exact hleft

/-! ### Storing values in a new array -/

/-- A value that refers to no slots brings nothing into reach. -/
theorem Reachable.of_inert (hvalue : h.range? value = none) (hrange : h.Reachable (roots ++ [value]) range) :
    h.Reachable roots range := by
  induction hrange with
  | root hroot hrange =>
    rcases List.mem_append.mp hroot with hold | hnew
    · exact .root hold hrange
    · rw [List.mem_singleton.mp hnew, hvalue] at hrange
      cases hrange
  | slot _ hslot hrange ih => exact .slot ih hslot hrange

theorem Safe.addInert (hs : h.Safe roots) (hvalue : h.range? value = none) : h.Safe (roots ++ [value]) where
  shaped := hs.shaped
  marked range slot hrange := hs.marked range slot (hrange.of_inert hvalue)
  tails range other slot hrange hother :=
    hs.tails range other slot (hrange.of_inert hvalue) (hother.of_inert hvalue)

theorem copyInto_eq {address : Address} (hpos : 0 < values.length)
    (hstart : h.slotAt? address values.length = some start) :
    copyInto values address values.length h = .ok values.length (h.written start values) := by
  simp only [copyInto, Nat.min_self, Nat.ne_of_gt hpos, if_false, hstart, List.take_length]
  rfl

theorem elements?_written (hreach : h.base + h.capacity ≤ maxOffset + 1) (hpos : 0 < values.length)
    (hbound : start + values.length ≤ h.capacity) :
    (h.written start values).elements? (.mutable (.ofNat (h.base + start))) values.length = some values := by
  have hslot : (h.written start values).slotAt? (.mutable (.ofNat (h.base + start))) values.length
      = some start := by
    refine slotAt?_block (h := h.written start values) ?_ hpos ?_
    · rwa [capacity_written]
    · rwa [capacity_written]
  rw [elements?, if_neg (Nat.ne_of_gt hpos), hslot, Option.map_some, written, Slots.slice_write hbound]

/-- Roots that are stored in a new array: copying them cannot fail, the array holds them, and every slot
that was in reach keeps its value. -/
theorem Safe.store (hs : h.Safe roots) (hvalues : values ⊆ roots) {address : Address}
    (hallocate : allocate values.length roots h = .ok address h') :
    ∃ stored, copyInto values address values.length h' = .ok values.length stored ∧
      stored.Safe (roots ++ [.array address (.ofNat values.length)]) ∧
      stored.elements? address (UInt32.ofNat values.length).toNat = some values ∧
      ∀ range slot, h.Reachable roots range → InRange range slot →
        Slots.read stored.slots slot = Slots.read h.slots slot := by
  obtain ⟨hnone, rfl, rfl⟩ | ⟨hpos, hlarge, start, hbound, hfree, rfl, rfl⟩ := allocate_ok hallocate
  · obtain rfl := List.eq_nil_of_length_eq_zero hnone
    exact ⟨h', rfl, hs.addInert rfl, rfl, fun _ _ _ _ => rfl⟩
  · have hsearched := hs.searched values.length
    have hroom : start + values.length ≤ (h.searched values.length roots).capacity := by
      rwa [capacity_searched]
    have htaken := hsearched.take hpos hlarge hroom hfree
    rw [block, base_searched] at htaken
    generalize hblock : (h.searched values.length roots).taken start values.length = fresh at htaken
    have hbase : fresh.base = h.base := by rw [← hblock, taken, base_searched]
    have hcapacity : fresh.capacity = h.capacity := by rw [← hblock, capacity_taken, capacity_searched]
    have hinside : start + values.length ≤ fresh.capacity := by rwa [hcapacity]
    refine ⟨fresh.written start values, copyInto_eq hpos ?_, ?_, ?_, fun range slot hrange hslot => ?_⟩
    · rw [← hbase]
      exact slotAt?_block htaken.shaped.reach hpos hinside
    · exact htaken.write (fun v hv => List.mem_append_left _ (hvalues hv)) hinside
    · rw [toNat_blockLength hlarge, ← hbase]
      exact elements?_written htaken.shaped.reach hpos hinside
    · have hreached := hrange.congr (slots_searched values.length roots h).symm
        (base_searched values.length roots h).symm
      have houtside : ¬(start ≤ slot ∧ slot < start + values.length) :=
        hsearched.apart hfree hreached hslot
      rw [read_written hinside, if_neg houtside, ← hblock, taken, Slots.read_clear, if_neg houtside,
        slots_searched]

end Heap

end ScriptMachine
