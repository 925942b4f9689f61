import Mathlib
import ScriptMachine.Proofs.ConstantPool
import ScriptMachine.Proofs.Linking
import ScriptMachine.Proofs.Script.Fragment

/-!
# Well-formed programs

A well-formed program is one instruction that enters `main`, or halts, and behind it the procedures of
its functions one after the other. Each procedure opens its frame with its first instruction and never
again, keeps its jumps to itself, calls only other procedures, and indexes only what is there.
-/

namespace ScriptMachine

/-- A function in code: the instruction that opens its frame, and the instructions behind that. -/
structure Procedure where
  name : String
  frame : Instruction
  body : List Instruction

namespace Procedure

def instructions (p : Procedure) : List Instruction :=
  p.frame :: p.body

def arity (p : Procedure) : Nat :=
  p.frame.first.toNat

/-- The number of slots of a call: the parameters and the further locals. -/
def slots (p : Procedure) : Nat :=
  p.frame.first.toNat + p.frame.second.toNat

/-- An instruction behind the frame of a procedure leads where it may, and indexes what is there. -/
structure Admits (program : Program) (procedures : List Procedure) (p : Procedure) (i : Instruction) :
    Prop where
  no_frame : i.op ≠ .makeFrame
  no_entry : i.op ≠ .entryPoint
  branch : i.op.isBranch = true → ∃ j ∈ p.body, i.first.toNat = j.offset ∧ j.op ≠ .makeArray
  call : i.op = .call → ∃ q ∈ procedures, i.first.toNat = q.frame.offset
  constant : i.op = .pushValue → i.first.toNat < program.constants.size
  native : i.op = .callNative → i.first.toNat < program.imports.length
  slot : i.op.isLocal = true → i.first.toNat < p.slots

theorem admits_of_operandCount {program : Program} {procedures : List Procedure} {p : Procedure}
    {i : Instruction} (h : i.op.operandCount = 0) : p.Admits program procedures i := by
  have hne {op : Opcode} (hop : op.operandCount ≠ 0) : i.op ≠ op := by
    rintro rfl
    exact hop h
  have hbranch : i.op.isBranch = false := by
    revert h
    cases i.op <;> decide
  have hlocal : i.op.isLocal = false := by
    revert h
    cases i.op <;> decide
  exact {
    no_frame := hne (by decide)
    no_entry := hne (by decide)
    branch := by simp [hbranch]
    call := fun hop => absurd hop (hne (by decide))
    constant := fun hop => absurd hop (hne (by decide))
    native := fun hop => absurd hop (hne (by decide))
    slot := by simp [hlocal] }

/-- The instruction pushes a constant that counts something. -/
def PushesCount (program : Program) (i : Instruction) : Prop :=
  i.op = .pushValue ∧
    ∃ x : Number, program.constants[i.first.toNat]? = some (.number x) ∧ x.isCount = true

structure WellFormed (program : Program) (procedures : List Procedure) (p : Procedure) : Prop where
  opens : p.frame.op = .makeFrame
  arguments_le : p.frame.first.toNat ≤ 255
  locals_le : p.frame.second.toNat ≤ 255
  admits : ∀ i ∈ p.body, p.Admits program procedures i
  ends : p.body.getLast?.map Instruction.op = some .returnNothing
  /-- An array is made right behind the constant that counts its elements. -/
  counted : ∀ k i, p.body[k]? = some i → i.op = .makeArray →
    ∃ j, p.body[k - 1]? = some j ∧ 0 < k ∧ PushesCount program j

end Procedure

/-- The procedure that runs when a program is executed. -/
def mainProcedure? (procedures : List Procedure) : Option Procedure :=
  procedures.find? (·.name == entryFunction)

/-- The program is made of a first instruction and procedures, and its tables are those of the
procedures. -/
structure Program.WellFormed (program : Program) (first : Instruction) (procedures : List Procedure) :
    Prop where
  walk : Walk.ofCode program.code = ⟨first :: procedures.flatMap Procedure.instructions, none⟩
  enters : ∀ main, mainProcedure? procedures = some main →
    first.op = .entryPoint ∧ first.first.toNat = main.frame.offset
  halts : mainProcedure? procedures = none → first.op = .halt
  sound : ∀ p ∈ procedures, p.WellFormed program procedures
  distinct : (procedures.map Procedure.name).Nodup
  constants : ∀ (index : Nat) (v : Value), program.constants[index]? = some v → v.SettledAt index
  exports : program.exports.map (fun e => (e.name, e.arity.toNat, e.address.toNat))
    = procedures.map fun p => (p.name, p.arity, p.frame.offset)
  entry : program.entry.map UInt32.toNat = (mainProcedure? procedures).map (·.frame.offset)

/-! ### Where control goes -/

namespace Opcode

/-- Whether control may come to the next instruction, at once or when a call returns. -/
def goesOn : Opcode → Bool
  | .halt | .jump | .exit | .entryPoint | .returnNothing | .returnValue => false
  | _ => true

end Opcode

namespace Program

/-- The instructions of a program in the order of its code. -/
def instructions (program : Program) : List Instruction :=
  (Walk.ofCode program.code).instructions

variable {program : Program} {first : Instruction} {procedures : List Procedure} {i : Instruction}

theorem WellFormed.instructions_eq (h : program.WellFormed first procedures) :
    program.instructions = first :: procedures.flatMap Procedure.instructions := by
  rw [instructions, h.walk]

theorem WellFormed.cases (h : program.WellFormed first procedures) (hi : i ∈ program.instructions) :
    i = first ∨ ∃ p ∈ procedures, i = p.frame ∨ i ∈ p.body := by
  rw [h.instructions_eq] at hi
  rcases List.mem_cons.mp hi with rfl | hmem
  · exact .inl rfl
  · obtain ⟨p, hp, hi⟩ := List.mem_flatMap.mp hmem
    exact .inr ⟨p, hp, List.mem_cons.mp hi⟩

theorem WellFormed.mem_of_mem (h : program.WellFormed first procedures) {p : Procedure}
    (hp : p ∈ procedures) (hi : i ∈ p.instructions) : i ∈ program.instructions := by
  rw [h.instructions_eq]
  exact List.mem_cons_of_mem _ (List.mem_flatMap.mpr ⟨p, hp, hi⟩)

theorem WellFormed.op_first (h : program.WellFormed first procedures) :
    first.op = .entryPoint ∨ first.op = .halt := by
  cases hmain : mainProcedure? procedures with
  | none => exact .inr (h.halts hmain)
  | some main => exact .inl (h.enters main hmain).1

/-- An instruction that is neither the first one nor opens a frame stands in a body. -/
theorem WellFormed.mem_body (h : program.WellFormed first procedures) (hi : i ∈ program.instructions)
    (hentry : i.op ≠ .entryPoint) (hhalt : i.op ≠ .halt) (hframe : i.op ≠ .makeFrame) :
    ∃ p ∈ procedures, i ∈ p.body ∧ p.Admits program procedures i := by
  rcases h.cases hi with rfl | ⟨p, hp, rfl | hbody⟩
  · rcases h.op_first with hop | hop
    · exact absurd hop hentry
    · exact absurd hop hhalt
  · exact absurd (h.sound p hp).opens hframe
  · exact ⟨p, hp, hbody, (h.sound p hp).admits i hbody⟩

/-- The instructions of a procedure follow each other in the code. -/
theorem WellFormed.offset_succ (h : program.WellFormed first procedures) {p : Procedure}
    (hp : p ∈ procedures) {k : Nat} {j : Instruction} (hi : p.instructions[k]? = some i)
    (hj : p.instructions[k + 1]? = some j) : j.offset = i.nextOffset := by
  obtain ⟨before, after, rfl⟩ := List.append_of_mem hp
  have hchain := Walk.isChain program.code
  rw [h.walk] at hchain
  simp only [List.flatMap_append, List.flatMap_cons] at hchain
  have hpart : p.instructions <:+: first :: (before.flatMap Procedure.instructions
      ++ (p.instructions ++ after.flatMap Procedure.instructions)) :=
    ⟨first :: before.flatMap Procedure.instructions, after.flatMap Procedure.instructions, by simp⟩
  have hown := List.IsChain.infix hchain hpart
  rw [List.isChain_iff_getElem] at hown
  obtain ⟨hk, hik⟩ := List.getElem?_eq_some_iff.mp hi
  obtain ⟨hk', hjk⟩ := List.getElem?_eq_some_iff.mp hj
  have hnext := hown k hk'
  rw [hik, hjk] at hnext
  exact hnext

/-- Behind an instruction that goes on stands an instruction of a body. -/
theorem WellFormed.next (h : program.WellFormed first procedures) (hi : i ∈ program.instructions)
    (hgoes : i.op.goesOn = true) :
    ∃ j ∈ program.instructions, j.offset = i.nextOffset ∧ j.op ≠ .makeFrame ∧
      (j.op = .makeArray → Procedure.PushesCount program i) := by
  -- In either case the next instruction is the one at a position of the body of the same procedure.
  have hat {p : Procedure} (hp : p ∈ procedures) {k : Nat} {j : Instruction}
      (hk : p.instructions[k]? = some i) (hj : p.body[k]? = some j)
      (hcount : j.op = .makeArray → Procedure.PushesCount program i) :
      ∃ j ∈ program.instructions, j.offset = i.nextOffset ∧ j.op ≠ .makeFrame ∧
        (j.op = .makeArray → Procedure.PushesCount program i) := by
    have hmem := List.mem_of_getElem? hj
    exact ⟨j, h.mem_of_mem hp (List.mem_cons_of_mem _ hmem), h.offset_succ hp hk hj,
      ((h.sound p hp).admits j hmem).no_frame, hcount⟩
  rcases h.cases hi with rfl | ⟨p, hp, rfl | hbody⟩
  · rcases h.op_first with hop | hop <;> rw [hop] at hgoes <;> cases hgoes
  · have hends := (h.sound p hp).ends
    cases hhead : p.body[0]? with
    | none =>
      rw [List.getElem?_eq_none_iff, Nat.le_zero, List.length_eq_zero_iff] at hhead
      simp [hhead] at hends
    | some j =>
      refine hat hp (k := 0) rfl hhead fun hop => ?_
      obtain ⟨-, -, hpos, -⟩ := (h.sound p hp).counted 0 j hhead hop
      exact absurd hpos (Nat.lt_irrefl 0)
  · obtain ⟨k, hk⟩ := List.getElem?_of_mem hbody
    have hends := (h.sound p hp).ends
    cases hnext : p.body[k + 1]? with
    | none =>
      rw [List.getElem?_eq_none_iff] at hnext
      obtain ⟨hlt, -⟩ := List.getElem?_eq_some_iff.mp hk
      rw [List.getLast?_eq_getElem?, show p.body.length - 1 = k by omega, hk] at hends
      rw [Option.some.inj hends] at hgoes
      cases hgoes
    | some j =>
      refine hat hp (k := k + 1) (by simpa [Procedure.instructions] using hk) hnext fun hop => ?_
      obtain ⟨before, hbefore, -, hpushes⟩ := (h.sound p hp).counted (k + 1) j hnext hop
      rw [Nat.add_sub_cancel, hk] at hbefore
      cases hbefore
      exact hpushes

end Program

end ScriptMachine
