import Mathlib
import ScriptMachine.Proofs.Expression
import ScriptMachine.Proofs.Machine.Run
import ScriptMachine.Proofs.Slots

/-!
# One operation

The instructions of expressions take their operands from the top of the stack and leave one result
there. Each of them is described by a result that is computed without the machine: the machine leaves
the value on the stack or fails as the result does, and the check before the instruction fails exactly
when an operand has a wrong type.
-/

namespace ScriptMachine

namespace Machine

variable {program : Program} {env : Environment} {m : Machine} {i : Instruction}

/-! ### Carrying an operation out -/

/-- The machine with only so many values on its stack. -/
def cut (m : Machine) (depth : Nat) : Machine :=
  ⟨⟨m.stack.slots, depth, m.stack.frame⟩, m.heap, m.events⟩

/-- The machine with so many values on its stack and another one on top of them. -/
def withResult (m : Machine) (depth : Nat) (value : Value) : Machine :=
  ⟨⟨m.stack.slots.setIfInBounds depth value, depth + 1, m.stack.frame⟩, m.heap, m.events⟩

/-- The action leaves its result on top of so many values, or fails as the result does. -/
def Delivers (action : Action Flow) (m : Machine) (depth : Nat) : Except Fault Value → Prop
  | .ok value => action m = .ok .next (m.withResult depth value)
  | .error fault => ∃ m', action m = .error fault m'

theorem pop_eq {depth : Nat} (h : m.stack.depth = depth + 1) :
    pop m = .ok (Slots.read m.stack.slots depth) (m.cut depth) := by
  obtain ⟨⟨slots, _, frame⟩, heap, events⟩ := m
  cases h
  rfl

theorem Delivers.pop {f : Value → Action Flow} {top depth : Nat} {result : Except Fault Value}
    (htop : m.stack.depth = top + 1)
    (h : Delivers (f (Slots.read m.stack.slots top)) (m.cut top) depth result) :
    Delivers (pop >>= f) m depth result := by
  have hbind : (Machine.pop >>= f) m = f (Slots.read m.stack.slots top) (m.cut top) := by
    show EStateM.bind Machine.pop f m = _
    rw [EStateM.bind, pop_eq htop]
  cases result with
  | ok value => exact hbind.trans h
  | error fault =>
    obtain ⟨m', hm'⟩ := h
    exact ⟨m', hbind.trans hm'⟩

theorem Delivers.expect {α : Type} {op : Opcode} {type : String} {as : Value → Option α} {value : Value}
    {f : α → Action Flow} {g : α → Except Fault Value} {depth : Nat}
    (h : ∀ a, Delivers (f a) m depth (g a)) :
    Delivers (expect op type as value >>= f) m depth (value.require op type as >>= g) := by
  unfold Machine.expect Value.require
  cases has : as value with
  | none => exact ⟨m, rfl⟩
  | some a => exact h a

theorem push_eq (value : Value) (hroom : m.stack.depth < m.stack.capacity) :
    push value m = .ok () (m.withResult m.stack.depth value) := by
  obtain ⟨⟨slots, depth, frame⟩, heap, events⟩ := m
  have hpush : Stack.push value ⟨slots, depth, frame⟩
      = .ok () ⟨slots.setIfInBounds depth value, depth + 1, frame⟩ := if_pos hroom
  simp only [push, onStack, hpush]
  rfl

theorem delivers_push {depth : Nat} (value : Value) (hdepth : m.stack.depth = depth)
    (hroom : depth < m.stack.capacity) : Delivers (thenNext (push value)) m depth (.ok value) := by
  cases hdepth
  show EStateM.bind (push value) _ m = _
  rw [EStateM.bind, push_eq value hroom]
  rfl

theorem delivers_throw {fault : Fault} {depth : Nat} :
    Delivers (throw fault) m depth (.error fault) :=
  ⟨m, rfl⟩

theorem arithmetic_mod (x y : Number) :
    arithmetic .mod x y = if y.toInt32 = 0 then .error .divisionByZero
      else .ok (.number (.ofInt (Int.tmod x.toInt32 y.toInt32))) := by
  by_cases hzero : y.toInt32 = 0
  · simp [arithmetic, Number.mod?, hzero]
  · simp [arithmetic, Number.mod?, hzero]

theorem valuesEqual_eq (v w : Value) : valuesEqual v w = v.agrees w := by
  cases v <;> cases w <;> rfl

theorem delivers_numberOperator (op : Opcode) {depth : Nat} (hdepth : m.stack.depth = depth + 2)
    (hroom : depth < m.stack.capacity) :
    Delivers (numberOperator op) m depth (do
      let x ← (Slots.read m.stack.slots (depth + 1)).require op "number" Value.number?
      let y ← (Slots.read m.stack.slots depth).require op "number" Value.number?
      arithmetic op x y) := by
  simp only [numberOperator, popNumber, bind_assoc]
  refine .pop hdepth (.expect fun x => .pop rfl (.expect fun y => ?_))
  cases harithmetic : arithmetic op x y with
  | error fault => exact delivers_throw
  | ok value => exact delivers_push value rfl hroom

theorem delivers_boolOperator (op : Opcode) (f : Bool → Bool → Bool) {depth : Nat}
    (hdepth : m.stack.depth = depth + 2) (hroom : depth < m.stack.capacity) :
    Delivers (boolOperator op f) m depth (do
      let a ← (Slots.read m.stack.slots (depth + 1)).require op "bool" Value.bool?
      let b ← (Slots.read m.stack.slots depth).require op "bool" Value.bool?
      return .bool (f a b)) := by
  simp only [boolOperator, popBool, bind_assoc]
  refine .pop hdepth (.expect fun a => .pop rfl (.expect fun b => ?_))
  exact delivers_push (.bool (f a b)) rfl hroom

theorem delivers_compare (equal : Bool) {depth : Nat} (hdepth : m.stack.depth = depth + 2)
    (hroom : depth < m.stack.capacity) :
    Delivers (compare equal) m depth (.ok (.bool
      ((Slots.read m.stack.slots (depth + 1)).agrees (Slots.read m.stack.slots depth) == equal))) := by
  simp only [compare, valuesEqual_eq]
  exact .pop hdepth (.pop rfl (delivers_push _ rfl hroom))

/-- An operator of the machine computes what the operator means. -/
theorem delivers_binary (op : BinaryOp) (hop : i.op = op.opcode) {depth : Nat}
    (hdepth : m.stack.depth = depth + 2) (hroom : depth < m.stack.capacity) :
    Delivers (step program env i) m depth
      (op.apply (Slots.read m.stack.slots (depth + 1)) (Slots.read m.stack.slots depth)) := by
  unfold step
  rw [hop]
  cases op with
  | add | sub | mul | div | less | greater | lessEqual | greaterEqual =>
    exact delivers_numberOperator _ hdepth hroom
  | mod =>
    have hmod := delivers_numberOperator .mod hdepth hroom
    simp only [arithmetic_mod] at hmod
    exact hmod
  | and | or => exact delivers_boolOperator _ _ hdepth hroom
  | equal =>
    have hequal := delivers_compare true hdepth hroom
    rw [beq_true] at hequal
    exact hequal
  | notEqual =>
    have hequal := delivers_compare false hdepth hroom
    rw [beq_false] at hequal
    exact hequal

theorem delivers_unary (op : UnaryOp) (hop : i.op = op.opcode) {depth : Nat}
    (hdepth : m.stack.depth = depth + 1) (hroom : depth < m.stack.capacity) :
    Delivers (step program env i) m depth (op.apply (Slots.read m.stack.slots depth)) := by
  unfold step
  rw [hop]
  cases op with
  | neg =>
    simp only [UnaryOp.opcode, popNumber, bind_assoc]
    exact .pop hdepth (.expect fun x => delivers_push _ rfl hroom)
  | not =>
    simp only [UnaryOp.opcode, popBool, bind_assoc]
    exact .pop hdepth (.expect fun a => delivers_push _ rfl hroom)

theorem delivers_arrayLength (hop : i.op = .arrayLength) {depth : Nat}
    (hdepth : m.stack.depth = depth + 1) (hroom : depth < m.stack.capacity) :
    Delivers (step program env i) m depth (Slots.read m.stack.slots depth).count := by
  unfold step
  rw [hop]
  simp only [popArray, bind_assoc]
  exact .pop hdepth (.expect fun range => delivers_push _ rfl hroom)

theorem delivers_pushValue (hop : i.op = .pushValue) {value : Value}
    (hvalue : program.constants[i.first.toNat]? = some value)
    (hroom : m.stack.depth < m.stack.capacity) :
    Delivers (step program env i) m m.stack.depth (.ok value) := by
  unfold step
  rw [hop]
  simp only [hvalue]
  exact delivers_push value rfl hroom

theorem delivers_loadLocal (hop : i.op = .loadLocal) {value : Value}
    (hvalue : m.stack.load i.first.toNat = .ok value) (hroom : m.stack.depth < m.stack.capacity) :
    Delivers (step program env i) m m.stack.depth (.ok value) := by
  unfold step
  rw [hop]
  have hread : readStack (·.load i.first.toNat) m = .ok value m := by rw [readStack, hvalue]
  show EStateM.bind (readStack _) _ m = _
  rw [EStateM.bind, hread]
  exact delivers_push value rfl hroom

end Machine

/-! ### Checking before it -/

namespace Check

variable {program : Program} {env : Environment} {stack : Stack} {i : Instruction}

/-- What the check before an operation finds: operands of a wrong type, and nothing else. -/
def foreseen {α : Type} : Except Fault α → Outcome
  | .error (.typeMismatch _ expected found) => .error (.operandType expected found)
  | _ => .ok ()

theorem foreseen_require_bind {α : Type} {op : Opcode} {type : String} {as : Value → Option α}
    {value : Value} {f : α → Except Fault Value} {outcome : Outcome} (hf : ∀ a, foreseen (f a) = outcome) :
    foreseen (value.require op type as >>= f)
      = (foreseen (value.require op type as) >>= fun _ => outcome) := by
  unfold Value.require
  cases as value with
  | none => rfl
  | some a => exact hf a

theorem typed_eq {α : Type} (op : Opcode) (type : String) (as : Value → Option α) {n d : Nat}
    (hn : stack.depth = d + n + 1) :
    typed stack n type (fun v => (as v).isSome)
      = foreseen ((Slots.read stack.slots d).require op type as) := by
  have hdepth : depth stack (n + 1) = .ok () := if_neg (by omega)
  have hslot : stack.depth - 1 - n = d := by omega
  rw [typed, hdepth, hslot, Value.require]
  cases has : as (Slots.read stack.slots d) with
  | none => simp [has, foreseen, bind, Except.bind]
  | some a => simp [has, foreseen, bind, Except.bind]

theorem before_of_operandCount (h : i.op.operandCount = 0) :
    before stack program env i = operation stack program env i := by
  have hoperands : i.op.operands = [] := List.eq_nil_of_length_eq_zero h
  simp [before, operands, hoperands, bind, Except.bind, pure, Except.pure]

/-- The checks of two operands of one type, the topmost first. -/
theorem typed_typed {α : Type} (op : Opcode) (type : String) (as : Value → Option α) {d : Nat}
    (hdepth : stack.depth = d + 2) {f : α → α → Except Fault Value}
    (hf : ∀ a b, foreseen (f a b) = .ok ()) :
    (typed stack 0 type (fun v => (as v).isSome) >>= fun _ => typed stack 1 type fun v => (as v).isSome)
      = foreseen (do
        let a ← (Slots.read stack.slots (d + 1)).require op type as
        let b ← (Slots.read stack.slots d).require op type as
        f a b) := by
  rw [typed_eq op type as (d := d + 1) (n := 0) hdepth, typed_eq op type as (d := d) (n := 1) hdepth,
    foreseen_require_bind fun a => foreseen_require_bind (hf a)]
  congr 1
  funext u
  cases foreseen ((Slots.read stack.slots d).require op type as) <;> rfl

theorem depth_eq {n : Nat} (h : n ≤ stack.depth) : depth stack n = .ok () :=
  if_neg (Nat.not_lt.mpr h)

theorem before_binary (op : BinaryOp) (hop : i.op = op.opcode) {d : Nat} (hdepth : stack.depth = d + 2) :
    before stack program env i
      = foreseen (op.apply (Slots.read stack.slots (d + 1)) (Slots.read stack.slots d)) := by
  rw [before_of_operandCount (by rw [hop]; cases op <;> rfl), operation, hop]
  cases op with
  | add | sub | mul | div | less | greater | lessEqual | greaterEqual =>
    exact typed_typed _ _ _ hdepth fun x y => rfl
  | mod =>
    refine typed_typed _ _ _ hdepth fun x y => ?_
    split <;> rfl
  | and | or => exact typed_typed _ _ _ hdepth fun a b => rfl
  | equal | notEqual => exact depth_eq (by omega)

theorem typed_require {α : Type} (op : Opcode) (type : String) (as : Value → Option α) {d : Nat}
    (hdepth : stack.depth = d + 1) {f : α → Except Fault Value} (hf : ∀ a, foreseen (f a) = .ok ()) :
    typed stack 0 type (fun v => (as v).isSome)
      = foreseen ((Slots.read stack.slots d).require op type as >>= f) := by
  rw [typed_eq op type as (n := 0) hdepth, foreseen_require_bind hf]
  cases foreseen ((Slots.read stack.slots d).require op type as) <;> rfl

theorem before_unary (op : UnaryOp) (hop : i.op = op.opcode) {d : Nat} (hdepth : stack.depth = d + 1) :
    before stack program env i = foreseen (op.apply (Slots.read stack.slots d)) := by
  rw [before_of_operandCount (by rw [hop]; cases op <;> rfl), operation, hop]
  cases op with
  | neg => exact typed_require _ _ _ hdepth fun x => rfl
  | not => exact typed_require _ _ _ hdepth fun a => rfl

theorem before_arrayLength (hop : i.op = .arrayLength) {d : Nat} (hdepth : stack.depth = d + 1) :
    before stack program env i = foreseen (Slots.read stack.slots d).count := by
  rw [before_of_operandCount (by rw [hop]; rfl), operation, hop]
  exact typed_require _ _ _ hdepth fun range => rfl

theorem before_pushValue (hop : i.op = .pushValue) (hindex : i.first.toNat < program.constants.size) :
    before stack program env i = .ok () := by
  have hoperand : operand program .constant i.first = .ok () := if_neg (by omega)
  simp [before, operands, operation, hop, Opcode.operands, hoperand, bind, Except.bind, pure, Except.pure]

theorem before_loadLocal (hop : i.op = .loadLocal) {frame : Frame} (hframe : stack.currentFrame = some frame)
    (hindex : i.first.toNat < frame.reserved) : before stack program env i = .ok () := by
  have hlocal : localSlot stack i.first = .ok () := by simp [localSlot, hframe, hindex]
  simp [before, operands, operation, hop, Opcode.operands, operand, hlocal, bind, Except.bind, pure, Except.pure]
end Check

/-! ### Whose fault it is -/

/-- A wrong type is reported for one operation only. -/
def Concerns (op : Opcode) (result : Except Fault Value) : Prop :=
  ∀ other expected found, result = .error (.typeMismatch other expected found) → other = op

theorem concerns_ok {op : Opcode} (value : Value) : Concerns op (.ok value) := by
  intro other expected found h
  cases h

theorem concerns_require {α : Type} {op : Opcode} {type : String} {as : Value → Option α} {value : Value}
    {f : α → Except Fault Value} (hf : ∀ a, Concerns op (f a)) :
    Concerns op (value.require op type as >>= f) := by
  intro other expected found h
  unfold Value.require at h
  cases has : as value with
  | none =>
    rw [has] at h
    cases h
    rfl
  | some a =>
    rw [has] at h
    exact hf a other expected found h

theorem UnaryOp.concerns (op : UnaryOp) (value : Value) : Concerns op.opcode (op.apply value) := by
  cases op with
  | neg => exact concerns_require fun x => concerns_ok _
  | not => exact concerns_require fun a => concerns_ok _

theorem BinaryOp.concerns (op : BinaryOp) (left right : Value) :
    Concerns op.opcode (op.apply left right) := by
  cases op with
  | add | sub | mul | div | less | greater | lessEqual | greaterEqual | and | or =>
    exact concerns_require fun x => concerns_require fun y => concerns_ok _
  | mod =>
    refine concerns_require fun x => concerns_require fun y => ?_
    intro other expected found h
    simp only at h
    split at h <;> cases h
  | equal | notEqual => exact concerns_ok _

theorem Value.concerns_count (value : Value) : Concerns .arrayLength value.count :=
  concerns_require fun _ => concerns_ok _

/-! ### One cycle -/

namespace Machine

variable {program : Program} {env : Environment} {validate : Bool} {m : Machine} {i : Instruction}

/-- The instruction leaves its result on top of so many values, and the check before it finds the same
wrong operands. -/
structure Performs (program : Program) (env : Environment) (i : Instruction) (m : Machine) (depth : Nat)
    (result : Except Fault Value) : Prop where
  delivers : Delivers (step program env i) m depth result
  checked : Check.before m.stack program env i = Check.foreseen result
  concerns : Concerns i.op result

theorem perform_ok {m' : Machine} (h : step program env i m = .ok .next m') :
    perform program env validate i m = continueAt validate i i.nextOffset m' := by
  show EStateM.bind (step program env i) _ m = _
  rw [EStateM.bind, h]

theorem perform_error {m' : Machine} {fault : Fault} (h : step program env i m = .error fault m') :
    perform program env validate i m = .error fault m' := by
  show EStateM.bind (step program env i) _ m = _
  rw [EStateM.bind, h]

theorem continueAt_ok {place : Nat} (h : Check.after m.stack = .ok ()) :
    continueAt validate i place m = .ok (.goOn place) m := by
  unfold continueAt
  cases validate with
  | false => rfl
  | true => simp [h]

theorem cycle_of_before (hfetch : fetch program i.offset = .ok i)
    (h : validate = true → Check.before m.stack program env i = .ok ()) :
    cycle program env validate i.offset m = perform program env validate i m := by
  unfold cycle
  rw [hfetch]
  cases validate with
  | false => rfl
  | true => simp [h rfl]

theorem Performs.cycle_ok {depth : Nat} {value : Value} (h : Performs program env i m depth (.ok value))
    (hfetch : fetch program i.offset = .ok i) (hafter : Check.after (m.withResult depth value).stack = .ok ()) :
    cycle program env validate i.offset m = .ok (.goOn i.nextOffset) (m.withResult depth value) := by
  rw [cycle_of_before hfetch fun _ => h.checked, perform_ok h.delivers, continueAt_ok hafter]

theorem Performs.cycle_error {depth : Nat} {fault : Fault}
    (h : Performs program env i m depth (.error fault)) (hfetch : fetch program i.offset = .ok i) :
    ∃ m', cycle program env validate i.offset m = .error (fault.shownAt validate i.offset) m' := by
  obtain ⟨m', hstep⟩ := h.delivers
  -- Only an operand of a wrong type is found by the check; any other fault passes it and comes from
  -- the operation.
  by_cases hfound : ∃ op expected found, fault = .typeMismatch op expected found
  · obtain ⟨op, expected, found, rfl⟩ := hfound
    obtain rfl := h.concerns op expected found rfl
    cases validate with
    | false => exact ⟨m', (cycle_of_before hfetch (by simp)).trans (perform_error hstep)⟩
    | true =>
      refine ⟨m, ?_⟩
      unfold cycle
      simp only [hfetch, h.checked]
      rfl
  · have hshown : fault.shownAt validate i.offset = fault := by
      unfold Fault.shownAt
      split
      · exact absurd ⟨_, _, _, rfl⟩ hfound
      · rfl
    have hbefore : Check.before m.stack program env i = .ok () := by
      rw [h.checked]
      unfold Check.foreseen
      split
      · rename_i hfault
        cases hfault
        exact absurd ⟨_, _, _, rfl⟩ hfound
      · rfl
    rw [hshown]
    exact ⟨m', (cycle_of_before hfetch fun _ => hbefore).trans (perform_error hstep)⟩

end Machine

end ScriptMachine
