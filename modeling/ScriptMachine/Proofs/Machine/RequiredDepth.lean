import Mathlib
import ScriptMachine.Proofs.Machine.Validation
import ScriptMachine.Proofs.Number

/-!
# The depths that checks ask for

The check before an instruction asks for a number of values on the stack. An instruction or a native
function says this number itself, in a byte or two. Only the one that makes an array takes it from the
stack: it wants the number on top and as many values as that number says. A number can stand for more
than a word holds. It is then held at the largest word, and the one for the number itself comes on top
of that.
-/

namespace ScriptMachine.Check

variable {stack : Stack} {program : Program} {env : Environment} {i : Instruction}

/-! ### Depths of a word -/

/-- If the check fails for want of values, the depth that it asked for fits a word. -/
def Fits (outcome : Outcome) : Prop :=
  ∀ cause, outcome = .error cause → cause.fitsWord = true

theorem fits_ok : Fits (.ok ()) :=
  nofun

theorem fits_error {cause : ViolationCause} (h : cause.fitsWord = true) : Fits (.error cause) := by
  rintro _ ⟨⟩
  exact h

theorem Fits.then {first rest : Outcome} (h : Fits first) (h' : Fits rest) :
    Fits (first >>= fun _ => rest) := by
  cases first with
  | error cause => exact h
  | ok _ => exact h'

theorem fits_ite {c : Prop} [Decidable c] {cause : ViolationCause} (h : cause.fitsWord = true) :
    Fits (if c then .error cause else .ok ()) := by
  by_cases hc : c
  · rw [if_pos hc]
    exact fits_error h
  · rw [if_neg hc]
    exact fits_ok

theorem fits_depth {needed : Nat} (h : needed ≤ 0xffffffffffffffff) : Fits (depth stack needed) :=
  fits_ite (decide_eq_true h)

theorem fits_typed {n : Nat} {expected : String} {test : Value → Bool} (h : n < 0xffffffffffffffff) :
    Fits (typed stack n expected test) := by
  refine (fits_depth h).then ?_
  dsimp only
  cases test (Slots.read stack.slots (stack.depth - 1 - n)) with
  | false => exact fits_error rfl
  | true => exact fits_ok

theorem fits_localSlot (index : UInt32) : Fits (localSlot stack index) := by
  unfold localSlot
  cases stack.currentFrame with
  | none => exact fits_error rfl
  | some frame => exact fits_ite rfl

theorem fits_operand (kind : OperandKind) (value : UInt32) : Fits (operand program kind value) := by
  cases kind with
  | address => exact fits_ite rfl
  | constant => exact fits_ite rfl
  | numeric => exact fits_ok

theorem fits_operands : Fits (operands program i) := by
  unfold operands
  induction i.op.operands.zip [i.first, i.second] with
  | nil => exact fits_ok
  | cons pair pairs ih => exact (fits_operand pair.1 pair.2).then ih

/-- Every other instruction asks for a depth that it says itself. -/
theorem fits_operation (hop : i.op ≠ .makeArray) : Fits (operation stack program env i) := by
  unfold operation
  cases hcase : i.op with
  | makeArray => exact absurd hcase hop
  | and | or | mul | div | mod | add | sub | cmpLessThan | cmpMoreThan | cmpLessThanOrEqual
  | cmpMoreThanOrEqual => exact (fits_typed (by decide)).then (fits_typed (by decide))
  | not | jumpIfFalse | neg | arrayLength | makeIter | iterNext => exact fits_typed (by decide)
  | cmpEqual | cmpNotEqual | dup2 | rot2 | pop2 | dup1 | pop1 | print => exact fits_depth (by decide)
  | storeLocal => exact (fits_depth (by decide)).then (fits_localSlot _)
  | loadLocal => exact fits_localSlot _
  | call =>
    dsimp only
    cases program.opensFrameAt i.first.toNat with
    | false => exact fits_error rfl
    | true => exact fits_ok
  | makeFrame =>
    have hfirst := i.first.toNat_lt
    exact (fits_ite rfl).then ((fits_ite rfl).then ((fits_typed (by decide)).then (fits_depth (by omega))))
  | callNative =>
    dsimp only
    cases env.get? i.first.toNat with
    | none => exact fits_error rfl
    | some native =>
      have harity := native.arity.toNat_lt
      exact fits_depth (by omega)
  | halt | pushValue | jump | exit | entryPoint | returnNothing | returnValue => exact fits_ok

/-! ### The number of elements -/

theorem elementCount_of_number {x : Number} (h : stack.peek 0 = .ok (.number x)) :
    elementCount stack = if x.isCount then depth stack (x.toCount + 1)
      else .error (.operandType "element count" "number") := by
  obtain ⟨hlive, hread⟩ := Stack.peek_eq_ok.mp h
  rw [Nat.sub_zero] at hread
  have hnumber : number stack 0 = .ok () := by
    rw [number, typed, depth_eq_ok.mpr hlive]
    simp [hread, Value.number?, bind, Except.bind]
  rw [elementCount, hnumber, hread]
  rfl

/-- The check of a number that counts asks for one value more than it says, or for one more than the
largest word if it says more than that. -/
theorem elementCount_of_value? {x : Number} {c : Nat} (htop : stack.peek 0 = .ok (.number x))
    (hvalue : x.value? = some (c : ℚ)) :
    elementCount stack = depth stack (min c 0xffffffffffffffff + 1) := by
  rw [elementCount_of_number htop, if_pos (Number.isCount_iff.mpr ⟨c, hvalue⟩), Number.toCount_eq hvalue]

/-- Where no number on top counts past a word, neither does the check. -/
theorem fits_elementCount (h : ∀ (x : Number) (c : Nat), stack.peek 0 = .ok (.number x) →
    x.value? = some (c : ℚ) → c + 1 ≤ 0xffffffffffffffff) : Fits (elementCount stack) := by
  cases hcheck : number stack 0 with
  | error cause =>
    have hnumber : Fits (number stack 0) := fits_typed (by decide)
    rw [elementCount, hcheck]
    rwa [hcheck] at hnumber
  | ok _ =>
    obtain ⟨v, y, htop, hv⟩ := typed_ok hcheck
    cases v with
    | number x =>
      by_cases hcount : x.isCount = true
      · obtain ⟨c, hvalue⟩ := Number.isCount_iff.mp hcount
        have hsmall := h x c htop hvalue
        rw [elementCount_of_value? htop hvalue]
        exact fits_depth (by omega)
      · rw [elementCount_of_number htop, if_neg hcount]
        exact fits_error rfl
    | _ => cases hv

/-- On a stack whose depth is a word, all that lies behind the largest word is refused. -/
theorem elementCount_eq_ok (hdepth : stack.depth ≤ 0xffffffffffffffff) : elementCount stack = .ok () ↔
    ∃ (x : Number) (c : Nat), stack.peek 0 = .ok (.number x) ∧ x.value? = some (c : ℚ) ∧
      c + 1 ≤ stack.depth := by
  constructor
  · intro h
    obtain ⟨x, htop, hcount, hlt⟩ := elementCount_ok h
    obtain ⟨c, hvalue⟩ := Number.isCount_iff.mp hcount
    rw [Number.toCount_eq hvalue] at hlt
    exact ⟨x, c, htop, hvalue, by omega⟩
  · rintro ⟨x, c, htop, hvalue, hle⟩
    rw [elementCount_of_value? htop hvalue]
    exact depth_eq_ok.mpr (by omega)

/-- An array is to be made of so many values that a word cannot count them and their number. -/
def CountsPastWord (stack : Stack) (i : Instruction) : Prop :=
  i.op = .makeArray ∧ ∃ (x : Number) (c : Nat), stack.peek 0 = .ok (.number x) ∧
    x.value? = some (c : ℚ) ∧ 0xffffffffffffffff < c + 1

/-- The depths that the check before an instruction asks for fit a word, except where an array is to be
made of more values than that. Then the depth is the first one that does not fit. The check accepts the
making of an array exactly if the number on top stands for a natural number and so many values lie below
it. -/
theorem required_depth_fits_word_iff (program : Program) (env : Environment) (i : Instruction)
    (hdepth : stack.depth ≤ 0xffffffffffffffff) :
    (Fits (before stack program env i) ↔ ¬ CountsPastWord stack i) ∧
    (CountsPastWord stack i →
      before stack program env i = .error (.stackDepth 0x10000000000000000 stack.depth)) ∧
    (i.op = .makeArray → (before stack program env i = .ok () ↔
      ∃ (x : Number) (c : Nat), stack.peek 0 = .ok (.number x) ∧ x.value? = some (c : ℚ) ∧
        c + 1 ≤ stack.depth)) := by
  have hmake (hop : i.op = .makeArray) : before stack program env i = elementCount stack := by
    rw [before_of_operandCount (by rw [hop]; rfl), operation, hop]
  have hpast (h : CountsPastWord stack i) :
      before stack program env i = .error (.stackDepth 0x10000000000000000 stack.depth) := by
    obtain ⟨hop, x, c, htop, hvalue, hlarge⟩ := h
    rw [hmake hop, elementCount_of_value? htop hvalue, Nat.min_eq_right (by omega)]
    exact if_pos (by omega)
  refine ⟨⟨fun hfits h => ?_, fun h => ?_⟩, hpast, fun hop => ?_⟩
  · exact absurd (hfits _ (hpast h)) (by simp [ViolationCause.fitsWord])
  · by_cases hop : i.op = .makeArray
    · rw [hmake hop]
      refine fits_elementCount fun x c htop hvalue => ?_
      by_contra hlarge
      exact h ⟨hop, x, c, htop, hvalue, Nat.not_le.mp hlarge⟩
    · exact fits_operands.then (fits_operation hop)
  · rw [hmake hop, elementCount_eq_ok hdepth]

/-- A stack with so many values below a number. -/
def countStack (values : Nat) (bits : UInt32) : Stack :=
  ⟨(Array.replicate values .nothing).push (.number ⟨bits⟩), values + 1, none⟩

theorem value?_two : Number.value? ⟨0x40000000⟩ = some ((2 : Nat) : ℚ) := by
  have hshape : Number.shape ⟨0x40000000⟩ = .finite false 0x800000 (-22) := by decide
  rw [Number.value?, hshape]
  norm_num

theorem value?_word : Number.value? ⟨0x5f800000⟩ = some ((0x10000000000000000 : Nat) : ℚ) := by
  have hshape : Number.shape ⟨0x5f800000⟩ = .finite false 0x800000 41 := by decide
  rw [Number.value?, hshape]
  norm_num

theorem required_depth_fits_word_iff_sample :
    before (countStack 2 0x40000000) {} {} ⟨0, .makeArray, 0, 0⟩ = .ok () ∧
    before (countStack 2 0x5f800000) {} {} ⟨0, .makeArray, 0, 0⟩
      = .error (.stackDepth 0x10000000000000000 3) := by
  obtain ⟨-, -, hok⟩ := required_depth_fits_word_iff {} {} ⟨0, .makeArray, 0, 0⟩
    (show (countStack 2 0x40000000).depth ≤ 0xffffffffffffffff by decide)
  obtain ⟨-, hpast, -⟩ := required_depth_fits_word_iff {} {} ⟨0, .makeArray, 0, 0⟩
    (show (countStack 2 0x5f800000).depth ≤ 0xffffffffffffffff by decide)
  exact ⟨(hok rfl).mpr ⟨_, 2, rfl, value?_two, by decide⟩, hpast ⟨rfl, _, _, rfl, value?_word, by decide⟩⟩

/-- The first number that no word holds. -/
theorem required_depth_exceeds_word :
    Number.value? ⟨0x5f800000⟩ = some ((0x10000000000000000 : Nat) : ℚ) ∧
    ¬ Fits (before (countStack 0 0x5f800000) {} {} ⟨0, .makeArray, 0, 0⟩) :=
  ⟨value?_word, fun hfits => absurd (hfits (.stackDepth 0x10000000000000000 1) (by decide)) (by decide)⟩

end ScriptMachine.Check
