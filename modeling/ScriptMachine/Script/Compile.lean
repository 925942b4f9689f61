import ScriptMachine.Script.Compilation

/-!
# Compiling scripts

`Compilation.node` drafts the code of one node at a given position, so that every jump knows its
target. Operands are compiled right to left and the left one ends on top; arguments and elements are
compiled left to right. A fault ends the statement that it is in, and the enclosing block goes on with
the next one, so that one compilation finds as many faults as it can.

Code begins with one instruction that enters `main`, or halts if there is none, and goes on with the
functions in the order of their declaration.
-/

namespace ScriptMachine

namespace Compilation

abbrev Code := List Item

/-- Whether something follows a link of an if chain. An empty block after the last else is nothing. -/
def continues : Option Node → Bool
  | none => false
  | some (.block _ []) => false
  | some _ => true

def pushConstant (span : Span) (insert : ConstantPool → Option (Nat × ConstantPool)) :
    Action Code := do
  return [.withOperand .pushValue (← addConstant span insert)]

def targetSlot : Node → Action Nat
  | .declare _ name => declareLocal name
  | .read span name => findLocal span name
  | other => fail other.span .invalidAssignTarget

def checkArity (span : Span) (name : String) (expected found : Nat) : Action Unit :=
  if expected = found then pure () else fail span (.arityMismatch name expected found)

/-- The instruction that calls a name whose arguments are on the stack. A name that stands for
nothing yet is settled at the end. -/
def callItem (span : Span) (name : String) (arguments : Nat) : Action Item := do
  match ← resolveImport name with
  | some (index, found) =>
    checkArity span name found.entry.arity.toNat arguments
    return .withOperand .callNative index
  | none =>
    match (← get).findFunction? name with
    | some function =>
      checkArity span name function.arity arguments
      return .call name
    | none =>
      modify fun c => { c with pending := c.pending ++ [⟨name, arguments, span⟩] }
      return .call name

/-- Whether a statement is a call that is known to leave a result. -/
def leavesResult (c : Compilation) : Node → Bool
  | .call _ name _ =>
    match intrinsic? name with
    | some (_, op) => op != .print
    | none => ((c.findImport? name).bind (·.2.kind)) == some .function
  | _ => false

/-- Records a fault and goes on without code. -/
def recover (action : Action Code) : Action Code := fun c =>
  match action c with
  | .ok code c => .ok code c
  | .error e c => .ok [] (c.report e)

mutual

/-- The code of a node at a position. `inLoop` says whether there is a loop to leave. -/
def node (inLoop : Bool) (position : Nat) : Node → Action Code
  | .number span value => pushConstant span (·.insert? (.number value))
  | .bool span value => pushConstant span (·.insert? (.bool value))
  | .text span value => pushConstant span (·.insertText? value)
  | .read span name => do
    return [.withOperand .loadLocal (← findLocal span name)]
  | .declare _ name => do
    let _ ← declareLocal name
    return []
  | .array span elements => do
    let code ← nodes inLoop position elements
    let count ← pushConstant span (·.insert? (.number (.ofLength (.ofNat elements.length))))
    return code ++ count ++ [.plain .makeArray]
  | .block _ items => statements inLoop position items
  | .branch _ condition body next => do
    let test ← node inLoop position condition
    let bodyStart := position + test.length + 1
    let body ← node inLoop bodyStart body
    let bodyEnd := bodyStart + body.length
    if continues next then
      let rest ← following inLoop (bodyEnd + 1) next
      let exit := bodyEnd + 1 + rest.length
      return test ++ .withOperand .jumpIfFalse (bodyEnd + 1) :: body
        ++ .withOperand .jump exit :: rest
    else return test ++ .withOperand .jumpIfFalse bodyEnd :: body
  | .forEach _ name collection body => do
    let elements ← node inLoop position collection
    let head := position + elements.length + 1
    let slot ← declareLocal name
    let body ← node true (head + 2) body
    let exit := head + 2 + body.length + 1
    return elements
      ++ [.plain .makeIter, .withOperand .iterNext exit, .withOperand .storeLocal slot]
      ++ body.map (·.leaveTo exit) ++ [.withOperand .jump head]
  | .binary _ op left right => do
    let second ← node inLoop position right
    let first ← node inLoop (position + second.length) left
    return second ++ first ++ [.plain op.opcode]
  | .unary _ op inner => do
    return (← node inLoop position inner) ++ [.plain op.opcode]
  | .assign _ target value => do
    let code ← node inLoop position value
    return code ++ [.withOperand .storeLocal (← targetSlot target)]
  | .result _ (some value) => do
    return (← node inLoop position value) ++ [.plain .returnValue]
  | .result _ none => return [.plain .returnNothing]
  | .leave span =>
    if inLoop then return [.plain .pop1, .leave] else fail span .breakOutsideLoop
  | .signature span name _ => fail span (.nestedFunction name)
  | .function span name _ _ => fail span (.nestedFunction name)
  | .call span name arguments =>
    match intrinsic? name with
    | some (arity, op) => do
      checkArity span name arity arguments.length
      return (← nodes inLoop position arguments) ++ [.plain op]
    | none => do
      let code ← nodes inLoop position arguments
      return code ++ [← callItem span name arguments.length]

def nodes (inLoop : Bool) (position : Nat) : List Node → Action Code
  | [] => return []
  | first :: rest => do
    let code ← node inLoop position first
    return code ++ (← nodes inLoop (position + code.length) rest)

/-- The code of statements. A faulty one is reported and passed over; a result that a statement
leaves is dropped. -/
def statements (inLoop : Bool) (position : Nat) : List Node → Action Code
  | [] => return []
  | first :: rest => do
    let code ← recover do
      let code ← node inLoop position first
      return if (← get).leavesResult first then code ++ [.plain .pop1] else code
    return code ++ (← statements inLoop (position + code.length) rest)

/-- The code after a link of an if chain. -/
def following (inLoop : Bool) (position : Nat) : Option Node → Action Code
  | none => return []
  | some next => node inLoop position next

end

/-! ### Declarations -/

/-- The first name that occurs among those before it. -/
def firstDuplicate? : (seen names : List String) → Option String
  | _, [] => none
  | seen, name :: rest =>
    if seen.contains name then some name else firstDuplicate? (seen ++ [name]) rest

def functionBody (position : Nat) (span : Span) (name : String) (parameters : List String)
    (body : Node) : Action Code := do
  match firstDuplicate? [] parameters with
  | some duplicate => fail span (.duplicateLocal duplicate)
  | none => pure ()
  modify fun c => { c with locals := parameters }
  let code ← node false (position + 1) body
  let extra := (← get).locals.length - parameters.length
  if 255 < parameters.length ∨ 255 < extra then fail span (.tooManyLocals name)
  return .op ⟨.makeFrame, .ofNat parameters.length, .ofNat extra⟩ :: code ++ [.plain .returnNothing]

/-- Where the next function begins. The first position belongs to the instruction that enters `main`. -/
def nextPosition (c : Compilation) : Nat :=
  c.code.length + 1

def declareFunction (span : Span) (name : String) (parameters : List String) (body : Node) :
    Action Unit := do
  let c ← get
  if c.isDeclared name then fail span (.duplicateFunction name)
  if maxNameLength < name.utf8ByteSize then fail span (.nameTooLong name.utf8ByteSize)
  let start := c.nextPosition
  modify fun c => { c with functions := c.functions ++ [⟨name, parameters.length, start⟩] }
  let code ← functionBody start span name parameters body
  modify fun c => { c with code := c.code ++ code }

def recoverDeclaration (action : Action Unit) (c : Compilation) : Compilation :=
  match action c with
  | .ok () c => c
  | .error e c => c.report e

mutual

/-- Compiles a node outside all functions. -/
def declaration (c : Compilation) : Node → Compilation
  | .block _ items => declarations c items
  | .function span name parameters body =>
    recoverDeclaration (declareFunction span name parameters body) c
  | .signature span name parameters =>
    recoverDeclaration (addImport name parameters.length (some span)) c
  | other => c.report ⟨.statementOutsideFunction, some other.span⟩

def declarations (c : Compilation) : List Node → Compilation
  | [] => c
  | first :: rest => declarations (declaration c first) rest

end

/-! ### The program -/

/-- The fault of a call whose name was not known at the call, now that all names are. -/
def pendingError? (c : Compilation) (call : PendingCall) : Option CompileError :=
  let mismatch (expected : Nat) : Option CompileError :=
    if expected = call.arguments then none
    else some ⟨.arityMismatch call.name expected call.arguments, some call.span⟩
  match c.findFunction? call.name with
  | some function => mismatch function.arity
  | none =>
    match c.findImport? call.name with
    | some (_, found) => mismatch found.entry.arity.toNat
    | none => some ⟨.unknownFunction call.name, some call.span⟩

def checkPending (c : Compilation) : Compilation :=
  { c with errors := c.errors ++ c.pending.filterMap c.pendingError? }

/-- The instruction of an item, now that all names are known. -/
def settle (c : Compilation) : Item → Draft
  | .op draft => draft
  | .leave => ⟨.jump, 0, 0⟩
  | .call name =>
    match c.findFunction? name with
    | some function => ⟨.call, .ofNat function.start, 0⟩
    | none =>
      match c.findImport? name with
      | some (index, _) => ⟨.callNative, .ofNat index, 0⟩
      | none => ⟨.call, 0, 0⟩

/-- The first instruction: it enters `main`, or halts. -/
def entryDraft (c : Compilation) : Draft :=
  match c.findFunction? entryFunction with
  | some main => ⟨.entryPoint, .ofNat main.start, 0⟩
  | none => ⟨.halt, 0, 0⟩

def program (c : Compilation) : Except LinkError Program :=
  match Assembly.link ⟨(c.entryDraft :: c.code.map c.settle).toArray⟩ with
  | .error e => .error e
  | .ok linked =>
    let exports := c.functions.map fun function =>
      (⟨function.name, .ofNat function.arity, .ofNat ((linked.offset? function.start).getD 0)⟩ : Export)
    .ok
      { code := linked.code.toArray
        constants := c.constants.values
        imports := c.imports.map KnownImport.entry
        exports := exports
        entry := (exports.find? (·.name == entryFunction)).map Export.address }

/-- Compiles a script with the host functions declared and offered so far. -/
def compile (c : Compilation) (root : Node) : Except Diagnostics Program :=
  let c := (declaration c root).checkPending
  if c.errors ≠ [] then .error ⟨c.errors⟩
  else
    match c.program with
    | .ok program => .ok program
    | .error e => .error ⟨[⟨.link e, none⟩]⟩

end Compilation

/-- Compiles a script that calls no host functions but those it has signatures for. -/
def compile (root : Node) : Except Diagnostics Program :=
  ({} : Compilation).compile root

end ScriptMachine
