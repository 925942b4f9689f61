import Mathlib
import ScriptMachine.Proofs.Heap.Safety

/-!
# A heap and its user

A user of a heap keeps values as roots and goes on from them: it allocates, copies rooted values into
rooted arrays, reads slots of rooted arrays and iterators, turns arrays into iterators, advances
iterators, drops roots and collects. Whatever it does in whatever order, what it can reach is in use,
overlapping ranges end together, and every slot that it can reach holds what was last written to it.
-/

namespace ScriptMachine

inductive Change where
  | allocated (start count : Nat)
  | written (start : Nat) (values : List Value)

/-- What was last written to a slot since it was last allocated; the latest change comes first. -/
def lastWritten : (past : List Change) → (slot : Nat) → Value
  | [], _ => .nothing
  | .allocated start count :: past, slot =>
    if start ≤ slot ∧ slot < start + count then .nothing else lastWritten past slot
  | .written start values :: past, slot =>
    if start ≤ slot ∧ slot < start + values.length then values.getD (slot - start) .nothing
    else lastWritten past slot

/-- A heap with the roots of its user and the changes to its slots so far. -/
structure Mutator where
  heap : Heap
  roots : List Value
  past : List Change := []

namespace Mutator

open Heap (InRange)

/-- The change to the slots at an address, if there are any. -/
def record (s : Mutator) (address : Address) (length : Nat) (change : Nat → Change) : List Change :=
  match s.heap.slotAt? address length with
  | some start => change start :: s.past
  | none => s.past

inductive Step : Mutator → Mutator → Prop where
  | allocate {s : Mutator} {count : Nat} {address : Address} {heap : Heap}
      (h : Heap.allocate count s.roots s.heap = .ok address heap) :
      Step s ⟨heap, s.roots ++ [.array address (.ofNat count)],
        s.record address count (.allocated · count)⟩
  | refuse {s : Mutator} {count : Nat} {e : HeapError} {heap : Heap}
      (h : Heap.allocate count s.roots s.heap = .error e heap) : Step s { s with heap := heap }
  | copy {s : Mutator} {values : List Value} {address : Address} {length : UInt32} {count : Nat}
      {heap : Heap} (hvalues : values ⊆ s.roots) (harray : .array address length ∈ s.roots)
      (h : Heap.copyInto values address length.toNat s.heap = .ok count heap) :
      Step s ⟨heap, s.roots,
        s.record address length.toNat (.written · (values.take (min values.length length.toNat)))⟩
  | reject {s : Mutator} {values : List Value} {address : Address} {length : UInt32} {e : HeapError}
      {heap : Heap} (hvalues : values ⊆ s.roots) (harray : .array address length ∈ s.roots)
      (h : Heap.copyInto values address length.toNat s.heap = .error e heap) :
      Step s { s with heap := heap }
  | read {s : Mutator} {value element : Value} {address place : Address} {length index : UInt32}
      (hvalue : value ∈ s.roots) (hreference : value.reference? = some (address, length))
      (hindex : index < length) (hplace : address.advance? index = some place)
      (h : s.heap.get? place = some element) : Step s { s with roots := s.roots ++ [element] }
  | iterate {s : Mutator} {address : Address} {length : UInt32} (harray : .array address length ∈ s.roots) :
      Step s { s with roots := s.roots ++ [.iterator address length] }
  | advance {s : Mutator} {current : Address} {remaining : UInt32}
      (hiterator : .iterator current remaining ∈ s.roots) (hremaining : remaining ≠ 0) :
      Step s { s with
        roots := s.roots ++ [.iterator ((current.advance? 1).getD .null) (remaining - 1)] }
  | drop {s : Mutator} {roots : List Value} (h : roots ⊆ s.roots) : Step s { s with roots := roots }
  | collect {s : Mutator} : Step s { s with heap := s.heap.collect s.roots }

/-- An array or iterator with slots left lies on the heap, unless it is one of constants. -/
def Placed (h : Heap) (value : Value) : Prop :=
  ∀ offset length, value.reference? = some (.mutable offset, length) → length ≠ 0 →
    ∃ range, h.range? value = some range

/-- A value that the user has or can read. -/
def Holds (s : Mutator) (value : Value) : Prop :=
  value ∈ s.roots ∨
    ∃ range slot, s.heap.Reachable s.roots range ∧ InRange range slot ∧ value = Slots.read s.heap.slots slot

/-- What stays true whatever the user does. -/
structure Sound (s : Mutator) : Prop where
  shaped : s.heap.Shaped
  marked : ∀ range slot, s.heap.Reachable s.roots range → InRange range slot →
    s.heap.marks.isSet slot = true
  tails : s.heap.TailsMeet s.roots
  placed : ∀ value, s.Holds value → Placed s.heap value
  contents : ∀ slot, Slots.read s.heap.slots slot = lastWritten s.past slot

end Mutator

namespace Mutator

open Heap (InRange taken slotAt?_block)

variable {s : Mutator} {roots : List Value} {value : Value}

/-! ### Steps that leave the slots alone -/

/-- The value brings nothing into reach but tails of what is in reach already. -/
structure Covers (s : Mutator) (value : Value) : Prop where
  tail : ∀ range, s.heap.range? value = some range → ∃ outer, s.heap.Reachable s.roots outer ∧
    outer.1 ≤ range.1 ∧ outer.1 + outer.2 = range.1 + range.2
  placed : Placed s.heap value

theorem Sound.covers (h : s.Sound) (hvalue : s.Holds value) : s.Covers value := by
  refine ⟨fun range hrange => ?_, h.placed value hvalue⟩
  rcases hvalue with hroot | ⟨outer, slot, houter, hslot, rfl⟩
  · exact ⟨range, .root hroot hrange, Nat.le_refl _, rfl⟩
  · exact ⟨range, .slot houter hslot hrange, Nat.le_refl _, rfl⟩

/-- What the new roots reach is a tail of what the old ones reach. -/
theorem reachable_of_covers (hroots : ∀ v ∈ roots, s.Covers v) {range : Nat × Nat}
    (hrange : s.heap.Reachable roots range) : ∃ outer, s.heap.Reachable s.roots outer ∧
      outer.1 ≤ range.1 ∧ outer.1 + outer.2 = range.1 + range.2 := by
  induction hrange with
  | root hvalue hrange => exact (hroots _ hvalue).tail _ hrange
  | slot _ hslot hrange ih =>
    obtain ⟨outer, houter, hlow, hend⟩ := ih
    obtain ⟨hin, hlt⟩ := hslot
    exact ⟨_, .slot houter ⟨by omega, by omega⟩ hrange, Nat.le_refl _, rfl⟩

theorem Sound.reroot (h : s.Sound) (hroots : ∀ v ∈ roots, s.Covers v) :
    Sound { s with roots := roots } := by
  have hinside {range outer : Nat × Nat} {slot : Nat} (hslot : InRange range slot)
      (hlow : outer.1 ≤ range.1) (hend : outer.1 + outer.2 = range.1 + range.2) : InRange outer slot := by
    obtain ⟨hin, hlt⟩ := hslot
    exact ⟨by omega, by omega⟩
  refine ⟨h.shaped, fun range slot hrange hslot => ?_, fun range other slot hrange hother hin hin' => ?_,
    fun value hvalue => ?_, h.contents⟩
  · obtain ⟨outer, houter, hlow, hend⟩ := reachable_of_covers hroots hrange
    exact h.marked outer slot houter (hinside hslot hlow hend)
  · obtain ⟨outer, houter, hlow, hend⟩ := reachable_of_covers hroots hrange
    obtain ⟨outer', houter', hlow', hend'⟩ := reachable_of_covers hroots hother
    have hmeet := h.tails outer outer' slot houter houter' (hinside hin hlow hend)
      (hinside hin' hlow' hend')
    omega
  · rcases hvalue with hroot | ⟨range, slot, hrange, hslot, rfl⟩
    · exact (hroots value hroot).placed
    · obtain ⟨outer, houter, hlow, hend⟩ := reachable_of_covers hroots hrange
      exact h.placed _ (.inr ⟨outer, slot, houter, hinside hslot hlow hend, rfl⟩)

theorem Sound.addRoot (h : s.Sound) (hvalue : s.Covers value) :
    Sound { s with roots := s.roots ++ [value] } := by
  refine h.reroot fun v hv => ?_
  rcases List.mem_append.mp hv with hold | hnew
  · exact h.covers (.inl hold)
  · rw [List.mem_singleton.mp hnew]
    exact hvalue

/-- An element of a rooted array or iterator is held already. -/
theorem Sound.holds_element (h : s.Sound) {element : Value} {address place : Address}
    {length index : UInt32} (hvalue : value ∈ s.roots)
    (hreference : value.reference? = some (address, length)) (hindex : index < length)
    (hplace : address.advance? index = some place) (hget : s.heap.get? place = some element) :
    s.Holds element := by
  obtain ⟨slot, hslot, rfl⟩ := Option.map_eq_some_iff.mp hget
  obtain ⟨offset, rfl, hoffset, hbound⟩ := Heap.slotAt?_eq_some.mp hslot
  cases address with
  | null => cases hplace
  | constant start =>
    simp only [Address.advance?, Address.constant?] at hplace
    split at hplace <;> cases hplace
  | mutable start =>
    have hlt : index.toNat < length.toNat := hindex
    have hlength : length ≠ 0 := by
      rintro rfl
      simp at hlt
    obtain ⟨range, hrange⟩ := h.placed value (.inl hvalue) start length hreference hlength
    obtain ⟨start', length', hsame, -, hstart, hcount, -⟩ := Heap.range?_eq_some hrange
    rw [hreference] at hsame
    cases hsame
    refine .inr ⟨range, slot, .root hvalue hrange, ?_, rfl⟩
    simp only [Address.advance?, Address.mutable?] at hplace
    split at hplace
    · rename_i hreach
      cases hplace
      have hmax : maxOffset = 0x3fffffff := rfl
      rw [UInt32.toNat_ofNat', Nat.mod_eq_of_lt (by omega)] at hoffset
      exact ⟨by omega, by omega⟩
    · cases hplace

theorem Sound.covers_iterator (h : s.Sound) {address : Address} {length : UInt32}
    (harray : .array address length ∈ s.roots) : s.Covers (.iterator address length) := by
  have hcovers := h.covers (.inl harray)
  exact ⟨hcovers.tail, hcovers.placed⟩

theorem advance?_eq_mutable {address : Address} {offset : UInt32}
    (h : (address.advance? 1).getD .null = .mutable offset) :
    ∃ before, address = .mutable before ∧ offset.toNat = before.toNat + 1 := by
  have hmax : maxOffset = 0x3fffffff := rfl
  have hone : (1 : UInt32).toNat = 1 := rfl
  cases address with
  | null => cases h
  | constant start =>
    simp only [Address.advance?, Address.constant?] at h
    split at h <;> cases h
  | mutable start =>
    refine ⟨start, rfl, ?_⟩
    simp only [Address.advance?, Address.mutable?, hone] at h
    split at h
    · cases h
      rw [UInt32.toNat_ofNat']
      omega
    · cases h

/-- An iterator that has moved on covers a tail of what it covered. -/
theorem Sound.covers_advanced (h : s.Sound) {current : Address} {remaining : UInt32}
    (hiterator : .iterator current remaining ∈ s.roots) (hremaining : remaining ≠ 0) :
    s.Covers (.iterator ((current.advance? 1).getD .null) (remaining - 1)) := by
  have hless : (remaining - 1).toNat = remaining.toNat - 1 := by
    have hpos : 0 < remaining.toNat := Nat.pos_of_ne_zero fun hzero => hremaining (UInt32.toNat_inj.mp hzero)
    have hone : (1 : UInt32).toNat = 1 := rfl
    rw [UInt32.toNat_sub_of_le _ _ (UInt32.le_iff_toNat_le.mpr (by omega)), hone]
  -- A mutable address now was one before, and the iterator lay on the heap then.
  have hbefore {offset : UInt32} (hoffset : (current.advance? 1).getD .null = .mutable offset) :
      ∃ range, s.heap.Reachable s.roots range ∧ range.1 + range.2 ≤ s.heap.capacity ∧
        offset.toNat = s.heap.base + (range.1 + 1) ∧ remaining.toNat = range.2 := by
    obtain ⟨before, rfl, hnext⟩ := advance?_eq_mutable hoffset
    obtain ⟨range, hrange⟩ := h.placed _ (.inl hiterator) before remaining rfl hremaining
    obtain ⟨_, _, hsame, -, hstart, hcount, hbound⟩ := Heap.range?_eq_some hrange
    cases hsame
    exact ⟨range, .root hiterator hrange, hbound, by omega, hcount⟩
  refine ⟨fun range hrange => ?_, fun offset length hreference hlength => ?_⟩
  · obtain ⟨offset, length, hreference, hlength, hstart, hcount, -⟩ := Heap.range?_eq_some hrange
    simp only [Value.reference?, Option.some.injEq, Prod.mk.injEq] at hreference
    obtain ⟨hoffset, rfl⟩ := hreference
    obtain ⟨outer, houter, -, hnext, hall⟩ := hbefore hoffset
    have hpos := houter.bounds.1
    exact ⟨outer, houter, by omega, by omega⟩
  · simp only [Value.reference?, Option.some.injEq, Prod.mk.injEq] at hreference
    obtain ⟨hoffset, rfl⟩ := hreference
    obtain ⟨outer, houter, hbound, hnext, hall⟩ := hbefore hoffset
    have hpos := houter.bounds.1
    refine ⟨(outer.1 + 1, (remaining - 1).toNat), Heap.range?_mutable ?_ hnext hlength (by omega)⟩
    rw [hoffset]
    rfl

/-! ### Collecting and allocating -/

theorem Sound.safe (h : s.Sound) : s.heap.Safe s.roots :=
  ⟨h.shaped, h.marked, h.tails⟩

theorem Sound.collect (h : s.Sound) : Sound { s with heap := s.heap.collect s.roots } := by
  have hslots : (s.heap.collect s.roots).slots = s.heap.slots := rfl
  have hbase : (s.heap.collect s.roots).base = s.heap.base := rfl
  obtain ⟨hshaped, hmarked, htails⟩ := h.safe.collect
  refine ⟨hshaped, hmarked, htails, fun value hvalue => h.placed value ?_, h.contents⟩
  rcases hvalue with hroot | ⟨range, slot, hrange, hslot, rfl⟩
  · exact .inl hroot
  · exact .inr ⟨range, slot, hrange.congr hslots hbase, hslot, rfl⟩

/-- Free slots cannot be reached. -/
theorem Sound.apart (h : s.Sound) {start count : Nat}
    (hfree : s.heap.marks.FreeIn start (start + count)) {range : Nat × Nat} {slot : Nat}
    (hrange : s.heap.Reachable s.roots range) (hslot : InRange range slot) :
    ¬InRange (start, count) slot :=
  h.safe.apart hfree hrange hslot

theorem Sound.take (h : s.Sound) {start count : Nat} (hcount : 0 < count)
    (hlarge : count ≤ maxArrayLength) (hbound : start + count ≤ s.heap.capacity)
    (hfree : s.heap.marks.FreeIn start (start + count)) :
    Sound ⟨s.heap.taken start count, s.roots ++ [s.heap.block start count],
      .allocated start count :: s.past⟩ := by
  have hread (slot : Nat) := Slots.read_clear count s.heap.slots start slot
  obtain ⟨hshaped, hmarked, htails⟩ := h.safe.take hcount hlarge hbound hfree
  refine ⟨hshaped, hmarked, htails, fun value hvalue => ?_, fun slot => ?_⟩
  · intro offset length hreference hlength
    rw [Heap.range?_taken]
    rcases hvalue with hroot | ⟨range, slot, hrange, hslot, rfl⟩
    · rcases List.mem_append.mp hroot with hold | hnew
      · exact h.placed value (.inl hold) offset length hreference hlength
      · rw [List.mem_singleton.mp hnew]
        exact ⟨_, Heap.range?_block h.shaped hcount hlarge hbound⟩
    · simp only [Heap.taken, hread] at hreference ⊢
      split at hreference
      · cases hreference
      · rename_i houtside
        rw [if_neg houtside]
        rcases Heap.reachable_taken h.shaped hcount hlarge hbound hrange with rfl | hold
        · exact absurd hslot houtside
        · exact h.placed _ (.inr ⟨range, slot, hold, hslot, rfl⟩) offset length hreference hlength
  · simp only [Heap.taken, hread, lastWritten, h.contents slot]

/-- An allocation takes a block that is free on the heap or on what a collection leaves of it. -/
theorem Sound.searched (h : s.Sound) {count : Nat} {address : Address} {heap : Heap} (hcount : 0 < count)
    (hallocate : Heap.allocate count s.roots s.heap = .ok address heap) :
    count ≤ maxArrayLength ∧ ∃ searched start, Sound { s with heap := searched } ∧
      searched.slots = s.heap.slots ∧ searched.base = s.heap.base ∧
      start + count ≤ searched.capacity ∧ searched.marks.FreeIn start (start + count) ∧
      address = .mutable (.ofNat (searched.base + start)) ∧ heap = taken searched start count := by
  obtain ⟨rfl, -⟩ | ⟨-, hlarge, start, hbound, hfree, rfl, rfl⟩ := Heap.allocate_ok hallocate
  · exact absurd hcount (Nat.lt_irrefl 0)
  · refine ⟨hlarge, s.heap.searched count s.roots, start, ?_⟩
    rcases Heap.searched_cases count s.roots s.heap with hsame | hsame
    · rw [hsame] at hfree ⊢
      exact ⟨h, rfl, rfl, hbound, hfree, rfl, rfl⟩
    · rw [hsame] at hfree ⊢
      exact ⟨h.collect, rfl, rfl, hbound, hfree, rfl, rfl⟩

theorem Sound.allocate (h : s.Sound) {count : Nat} {address : Address} {heap : Heap}
    (hallocate : Heap.allocate count s.roots s.heap = .ok address heap) :
    Sound ⟨heap, s.roots ++ [.array address (.ofNat count)],
      s.record address count (.allocated · count)⟩ := by
  rcases Nat.eq_zero_or_pos count with rfl | hcount
  · cases hallocate
    refine h.addRoot ⟨fun range hrange => ?_, fun offset length hreference _ => ?_⟩
    · cases hrange
    · cases hreference
  · obtain ⟨hlarge, searched, start, hsound, hslots, hbase, hbound, hfree, rfl, rfl⟩ :=
      h.searched hcount hallocate
    have hcapacity : searched.capacity = s.heap.capacity := congrArg Array.size hslots
    have hslot : s.heap.slotAt? (.mutable (.ofNat (s.heap.base + start))) count = some start :=
      slotAt?_block h.shaped.reach hcount (by omega)
    rw [record, hbase, hslot, ← hbase]
    exact hsound.take hcount hlarge hbound hfree

/-! ### Copying -/

/-- Only values that are held already come into the slots that are written. -/
theorem Sound.write (h : s.Sound) {values : List Value} (hvalues : values ⊆ s.roots) {start : Nat}
    (hbound : start + values.length ≤ s.heap.capacity) :
    Sound ⟨s.heap.written start values, s.roots, .written start values :: s.past⟩ := by
  obtain ⟨hshaped, hmarked, htails⟩ := h.safe.write hvalues hbound
  refine ⟨hshaped, hmarked, htails, fun value hvalue => ?_, fun slot => ?_⟩
  · have hplaced : Placed s.heap value := by
      refine h.placed value ?_
      rcases hvalue with hroot | ⟨range, slot, hrange, hslot, rfl⟩
      · exact .inl hroot
      · rcases Heap.read_written_mem hbound slot with hroot | hsame
        · exact .inl (hvalues hroot)
        · exact .inr ⟨range, slot, Heap.reachable_written hvalues hbound hrange, hslot, hsame⟩
    intro offset length hreference hlength
    rw [Heap.range?_written]
    exact hplaced offset length hreference hlength
  · rw [Heap.read_written hbound, lastWritten, h.contents slot]

theorem Sound.copy (h : s.Sound) {values : List Value} {address : Address} {length count : Nat}
    {heap : Heap} (hvalues : values ⊆ s.roots)
    (hcopy : Heap.copyInto values address length s.heap = .ok count heap) :
    Sound ⟨heap, s.roots,
      s.record address length (.written · (values.take (min values.length length)))⟩ := by
  obtain ⟨hcount, hcases⟩ := Heap.copyInto_ok hcopy
  rw [← hcount]
  have htake : (values.take count) ⊆ s.roots := fun v hv => hvalues (List.mem_of_mem_take hv)
  have hfits {start : Nat} (hstart : s.heap.slotAt? address length = some start) :
      start + (values.take count).length ≤ s.heap.capacity := by
    obtain ⟨-, -, -, hbound⟩ := Heap.slotAt?_eq_some.mp hstart
    rw [List.length_take]
    omega
  rw [record]
  cases hstart : s.heap.slotAt? address length with
  | none =>
    obtain ⟨-, rfl⟩ | ⟨start, hother, -⟩ := hcases
    · exact h
    · rw [hstart] at hother
      cases hother
  | some start =>
    obtain ⟨hzero, rfl⟩ | ⟨start', hother, rfl⟩ := hcases
    · have hwrite := h.write htake (hfits hstart)
      rw [hzero] at hwrite ⊢
      exact hwrite
    · rw [hstart] at hother
      cases hother
      exact h.write htake (hfits hstart)

/-! ### All steps -/

theorem Sound.step (h : s.Sound) {t : Mutator} (hstep : Step s t) : t.Sound := by
  cases hstep with
  | allocate hallocate => exact h.allocate hallocate
  | refuse hrefuse =>
    rcases Heap.allocate_error hrefuse with rfl | rfl
    · exact h
    · exact h.collect
  | copy hvalues harray hcopy => exact h.copy hvalues hcopy
  | reject hvalues harray hreject =>
    rw [(Heap.copyInto_error hreject).1]
    exact h
  | read hvalue hreference hindex hplace hget =>
    exact h.addRoot (h.covers (h.holds_element hvalue hreference hindex hplace hget))
  | iterate harray => exact h.addRoot (h.covers_iterator harray)
  | advance hiterator hremaining => exact h.addRoot (h.covers_advanced hiterator hremaining)
  | drop hroots => exact h.reroot fun v hv => h.covers (.inl (hroots hv))
  | collect => exact h.collect

theorem sound_start {settings : HeapSettings} {heap : Heap} {roots : List Value}
    (hcreate : Heap.create settings = .ok heap)
    (hroots : ∀ v ∈ roots, ∀ offset length, v.reference? ≠ some (.mutable offset, length)) :
    Sound ⟨heap, roots, []⟩ := by
  unfold Heap.create at hcreate
  split at hcreate
  · cases hcreate
  · rename_i hcheck
    have hreach : settings.base + settings.size ≤ maxOffset + 1 := by
      unfold HeapSettings.check at hcheck
      split_ifs at hcheck
      omega
    cases hcreate
    have hnothing {range : Nat × Nat}
        (hrange : Heap.Reachable ⟨Slots.empty settings.size, Bitmap.empty settings.size, settings.base, 0⟩
          roots range) : False := by
      induction hrange with
      | root hvalue hrange =>
        obtain ⟨offset, length, hreference, -⟩ := Heap.range?_eq_some hrange
        exact hroots _ hvalue offset length hreference
      | slot _ _ _ ih => exact ih
    refine ⟨⟨?_, by simpa [Heap.capacity] using hreach⟩, fun range slot hrange => (hnothing hrange).elim,
      fun range other slot hrange => (hnothing hrange).elim, fun value hvalue => ?_,
      fun slot => Slots.read_empty _ _⟩
    · simp only [Heap.capacity, Slots.size_empty, Bitmap.size_pages_empty]
      omega
    · rcases hvalue with hroot | ⟨range, slot, hrange, -⟩
      · exact fun offset length hreference => absurd hreference (hroots value hroot offset length)
      · exact (hnothing hrange).elim

/-- Whatever the user of a fresh heap does: all slots of all ranges that it can reach are in use and
hold what was last written to them, ranges that overlap end together, and an allocation never hands
out a slot that can be reached. -/
theorem reachable_slots_are_safe {settings : HeapSettings} {heap : Heap} {roots : List Value}
    {s : Mutator} (hcreate : Heap.create settings = .ok heap)
    (hroots : ∀ v ∈ roots, ∀ offset length, v.reference? ≠ some (.mutable offset, length))
    (hsteps : Relation.ReflTransGen Step ⟨heap, roots, []⟩ s) :
    (∀ range slot, s.heap.Reachable s.roots range → InRange range slot →
      s.heap.isMarked slot = true ∧ Slots.read s.heap.slots slot = lastWritten s.past slot) ∧
    s.heap.TailsMeet s.roots ∧
    ∀ count address heap', 0 < count → Heap.allocate count s.roots s.heap = .ok address heap' →
      ∃ start, heap'.slotAt? address count = some start ∧
        ∀ range slot, s.heap.Reachable s.roots range → InRange range slot →
          ¬InRange (start, count) slot := by
  have hsound : s.Sound := by
    induction hsteps with
    | refl => exact sound_start hcreate hroots
    | tail _ hstep ih => exact ih.step hstep
  refine ⟨fun range slot hrange hslot => ⟨?_, hsound.contents slot⟩, hsound.tails, ?_⟩
  · have hbound := hrange.bounds.2
    have hlt := hslot.2
    rw [Heap.isMarked, hsound.marked range slot hrange hslot, Bool.and_true, decide_eq_true_eq]
    omega
  · intro count address heap' hcount hallocate
    obtain ⟨-, searched, start, hsearched, hslots, hbase, hbound, hfree, rfl, rfl⟩ :=
      hsound.searched hcount hallocate
    have hreach : (taken searched start count).base + (taken searched start count).capacity
        ≤ maxOffset + 1 := by
      simpa [taken, Heap.capacity] using hsearched.shaped.reach
    refine ⟨start, slotAt?_block hreach hcount (by simpa [taken, Heap.capacity] using hbound), ?_⟩
    intro range slot hrange hslot
    exact hsearched.apart hfree (hrange.congr hslots.symm hbase.symm) hslot

/-- A heap of four slots whose first two hold a value, with the roots of its user. -/
def sampleState (value : Value) (page : UInt64) (collections : Nat) (roots : List Value)
    (past : List Change) : Mutator :=
  ⟨⟨#[value, value, .nothing, .nothing], ⟨#[page]⟩, 10, collections⟩, roots, past⟩

/-- What was done to the first two slots: they were allocated and filled. -/
def samplePast : List Change :=
  [.written 0 [.bool true, .bool true], .allocated 0 2]

/-- The user makes an array of two slots, fills it, and keeps only an iterator that has moved on, so
that the first of the two slots is given up. -/
theorem steps_sampleState : Relation.ReflTransGen Step (sampleState .nothing 0 0 [.bool true] [])
    (sampleState (.bool true) 2 1 [.iterator (.mutable 11) 1] samplePast) := by
  have hallocate : Step (sampleState .nothing 0 0 [.bool true] [])
      (sampleState .nothing 3 0 [.bool true, .array (.mutable 10) 2] [.allocated 0 2]) :=
    Step.allocate (s := sampleState .nothing 0 0 [.bool true] []) rfl
  have hcopy (past : List Change) : Step (sampleState .nothing 3 0 [.bool true, .array (.mutable 10) 2] past)
      (sampleState (.bool true) 3 0 [.bool true, .array (.mutable 10) 2]
        (.written 0 [.bool true, .bool true] :: past)) :=
    Step.copy (s := sampleState .nothing 3 0 [.bool true, .array (.mutable 10) 2] past)
      (show [Value.bool true, .bool true] ⊆ _ by simp [sampleState])
      (List.mem_cons_of_mem _ List.mem_cons_self) rfl
  have hiterate (past : List Change) :
      Step (sampleState (.bool true) 3 0 [.bool true, .array (.mutable 10) 2] past)
        (sampleState (.bool true) 3 0
          [.bool true, .array (.mutable 10) 2, .iterator (.mutable 10) 2] past) :=
    Step.iterate (List.mem_cons_of_mem _ List.mem_cons_self)
  have hadvance (past : List Change) :
      Step (sampleState (.bool true) 3 0
          [.bool true, .array (.mutable 10) 2, .iterator (.mutable 10) 2] past)
        (sampleState (.bool true) 3 0
          [.bool true, .array (.mutable 10) 2, .iterator (.mutable 10) 2, .iterator (.mutable 11) 1] past) :=
    Step.advance (s := sampleState (.bool true) 3 0
        [.bool true, .array (.mutable 10) 2, .iterator (.mutable 10) 2] past)
      (show Value.iterator (.mutable 10) 2 ∈ _ by simp [sampleState]) (by decide)
  have hdrop (past : List Change) :
      Step (sampleState (.bool true) 3 0
          [.bool true, .array (.mutable 10) 2, .iterator (.mutable 10) 2, .iterator (.mutable 11) 1] past)
        (sampleState (.bool true) 3 0 [.iterator (.mutable 11) 1] past) :=
    Step.drop (by simp [sampleState])
  have hcollect (past : List Change) :
      Step (sampleState (.bool true) 3 0 [.iterator (.mutable 11) 1] past)
        (sampleState (.bool true) 2 1 [.iterator (.mutable 11) 1] past) := by
    let s := sampleState (.bool true) 3 0 [.iterator (.mutable 11) 1] past
    have hheap : Heap.collect s.roots s.heap
        = (sampleState (.bool true) 2 1 [.iterator (.mutable 11) 1] past).heap := by cbv
    have hstep : Step s ⟨Heap.collect s.roots s.heap, s.roots, s.past⟩ := Step.collect
    rw [hheap] at hstep
    exact hstep
  exact ((((((Relation.ReflTransGen.refl).tail hallocate).tail (hcopy _)).tail (hiterate _)).tail
    (hadvance _)).tail (hdrop _)).tail (hcollect _)

/-- After those steps only the second slot is in use, and it holds what was written to it. -/
theorem reachable_slots_are_safe_sample : ∃ s : Mutator, s.roots = [.iterator (.mutable 11) 1] ∧
    s.past = samplePast ∧ s.heap.marks = ⟨#[2]⟩ ∧ s.heap.isMarked 1 = true ∧
    lastWritten s.past 1 = .bool true ∧ Slots.read s.heap.slots 1 = .bool true := by
  have hcreate : Heap.create ⟨4, 10⟩ = .ok (sampleState .nothing 0 0 [.bool true] []).heap := rfl
  have hsafe := reachable_slots_are_safe hcreate (by simp [Value.reference?]) steps_sampleState
  have hreachable : (sampleState (.bool true) 2 1 [.iterator (.mutable 11) 1] samplePast).heap.Reachable
      [.iterator (.mutable 11) 1] (1, 1) := .root List.mem_cons_self rfl
  obtain ⟨hmarked, hread⟩ := hsafe.1 (1, 1) 1 hreachable ⟨by decide, by decide⟩
  exact ⟨_, rfl, rfl, rfl, hmarked, rfl, hread⟩

end Mutator

end ScriptMachine
