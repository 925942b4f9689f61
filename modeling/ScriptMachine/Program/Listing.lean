import ScriptMachine.Program

/-!
# Program listings

A program as readable text: the code with one instruction to a line, then the constants, the imports
and the exports. Constants are shown beside the operands that name them.
-/

namespace ScriptMachine

def padRight (width : Nat) (text : String) : String :=
  text ++ String.ofList (List.replicate (width - text.length) ' ')

def padLeft (width : Nat) (text : String) : String :=
  String.ofList (List.replicate (width - text.length) ' ') ++ text

namespace Program

/-- A text beside an operand, or a question mark where the operand names nothing. -/
def nameBeside (text : Option String) : String :=
  " (" ++ text.getD "?" ++ ")"

/-- An operand with what it names. -/
def listedOperand (p : Program) (op : Opcode) (kind : OperandKind) (value : UInt32) : String :=
  Instruction.operandText kind value ++
    match kind with
    | .constant => nameBeside (p.constants[value.toNat]?.map Value.text)
    | .numeric => if op = .callNative then nameBeside (p.imports[value.toNat]?.map Import.name) else ""
    | .address => ""

def listedInstruction (p : Program) (i : Instruction) : String :=
  "#" ++ padLeft 5 (toString i.offset) ++ "| " ++ padRight 22 i.op.name ++ " " ++
    " ".intercalate
      ((i.op.operands.zip [i.first, i.second]).map fun (kind, value) => p.listedOperand i.op kind value)

/-- The listing, one entry per line. -/
def listingLines (p : Program) : List String :=
  let walk := Walk.ofCode p.code
  ["code (" ++ toString p.code.size ++ " bytes):"]
    ++ walk.instructions.map p.listedInstruction
    ++ walk.error.toList.map (fun e => "  <" ++ e.message ++ ">")
    ++ ["constants (" ++ toString p.constants.size ++ "):"]
    ++ (p.constants.toList.mapIdx fun i v => "  #" ++ padRight 4 (toString i) ++ " " ++ v.text)
    ++ (if p.imports.isEmpty then [] else ["imports:"])
    ++ (p.imports.mapIdx fun i m =>
      "  " ++ padRight 4 (toString i) ++ " " ++ m.name ++ "/" ++ toString m.arity.toNat)
    ++ (if p.exports.isEmpty then [] else ["exports:"])
    ++ (p.exports.map fun e =>
      "  @" ++ padRight 5 (toString e.address.toNat) ++ " " ++ e.name ++ "/" ++ toString e.arity.toNat)

def listing (p : Program) : String :=
  String.join (p.listingLines.map (· ++ "\n"))

end Program

end ScriptMachine
