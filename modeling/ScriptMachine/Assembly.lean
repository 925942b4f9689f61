import ScriptMachine.Instruction

/-!
# Assembly

A program is drafted as a list of instructions whose targets are positions in that list, and then
linked: every position becomes the offset of its instruction in the code. Drafting may leave a
target open and bind it later, when the position is known.
-/

namespace ScriptMachine

/-- An instruction of a draft. A target is a position in the draft. -/
structure Draft where
  op : Opcode
  first : UInt32 := 0
  second : UInt32 := 0
  deriving DecidableEq, Inhabited, Repr

inductive LinkError where
  | targetOutOfRange (position : Nat) (target : UInt32)
  | tooLarge
  deriving DecidableEq, Repr

namespace LinkError

def message : LinkError → String
  | .targetOutOfRange position target =>
    "instruction " ++ toString position ++ " targets missing instruction " ++ toString target.toNat
  | .tooLarge => "program exceeds the 32-bit address range"

end LinkError

structure Assembly where
  drafts : Array Draft
  deriving DecidableEq, Inhabited, Repr

/-- Linked code, with the offset of every drafted instruction and, last, the length of the code. -/
structure Linked where
  code : List UInt8
  offsets : List Nat
  deriving DecidableEq, Repr

namespace Assembly

def empty : Assembly :=
  ⟨#[]⟩

/-- The position of the next instruction. -/
def next (a : Assembly) : Nat :=
  a.drafts.size

def emit (a : Assembly) (op : Opcode) (first second : UInt32 := 0) : Assembly :=
  ⟨a.drafts.push ⟨op, first, second⟩⟩

/-- Overwrites the instruction at a position; a position without an instruction is left alone. -/
def replace (a : Assembly) (position : Nat) (draft : Draft) : Assembly :=
  ⟨a.drafts.setIfInBounds position draft⟩

/-- Overwrites one operand of the instruction at a position. -/
def patch (a : Assembly) (position slot : Nat) (value : UInt32) : Assembly :=
  ⟨a.drafts.modify position fun draft =>
    match slot with
    | 0 => { draft with first := value }
    | 1 => { draft with second := value }
    | _ => draft⟩

/-- Points an open target at a position. -/
def bind (a : Assembly) (position target : Nat) : Assembly :=
  a.patch position 0 (.ofNat target)

end Assembly

namespace Draft

/-- The bytes that the instruction takes in code. -/
def length (draft : Draft) : Nat :=
  draft.op.encodedLength

/-- The offsets of drafted instructions that start at `offset`, and where they end. -/
def offsets (offset : Nat) : List Draft → List Nat
  | [] => [offset]
  | draft :: rest => offset :: offsets (offset + draft.length) rest

/-- The instruction with its target resolved, or its target if that is missing. -/
def resolve (table : Array Nat) (draft : Draft) : Except UInt32 Draft :=
  if draft.op.hasTarget then
    match table[draft.first.toNat]? with
    | some offset => .ok { draft with first := .ofNat offset }
    | none => .error draft.first
  else .ok draft

/-- The bytes of drafted instructions. The first missing target is reported with its position. -/
def assemble (table : Array Nat) (position : Nat) : List Draft → Except LinkError (List UInt8)
  | [] => .ok []
  | draft :: rest =>
    match draft.resolve table with
    | .error target => .error (.targetOutOfRange position target)
    | .ok d =>
      match assemble table (position + 1) rest with
      | .error e => .error e
      | .ok bytes => .ok (Instruction.encode d.op d.first d.second ++ bytes)

end Draft

namespace Assembly

/-- The longest code that 32-bit offsets reach. -/
def maxCodeLength : Nat :=
  0xffffffff

/-- Links a draft. A target may be the position behind the last instruction, which is the end of the
code. Code longer than a 32-bit offset reaches is refused before any target is looked at. -/
def link (a : Assembly) : Except LinkError Linked :=
  let drafts := a.drafts.toList
  let offsets := Draft.offsets 0 drafts
  if maxCodeLength < offsets.getLastD 0 then .error .tooLarge
  else
    match Draft.assemble offsets.toArray 0 drafts with
    | .error e => .error e
    | .ok code => .ok ⟨code, offsets⟩

end Assembly

namespace Linked

def offset? (linked : Linked) (position : Nat) : Option Nat :=
  linked.offsets[position]?

end Linked

end ScriptMachine
