import ScriptMachine.Machine.Check
import ScriptMachine.Machine.Step

/-!
# Runs

A run fetches and carries out instructions until one of them ends it, or until its budget is used up.
The host starts a run at the beginning of the code, or at a function with arguments on the stack.
-/

namespace ScriptMachine

/-- A function of a program with the arguments of a call. -/
structure Call where
  name : String
  address : UInt32
  arity : UInt8
  arguments : List Value := []
  deriving DecidableEq, Repr

namespace Call

/-- Looks up a function by name. Its address has to hold the operation that opens a frame. -/
def lookup (program : Program) (name : String) : Except CallError Call :=
  match program.findExport? name with
  | none => .error (.notFound name)
  | some found =>
    if program.code.size ≤ found.address.toNat then .error (.badAddress name found.address)
    else if program.opensFrameAt found.address.toNat then .ok ⟨name, found.address, found.arity, []⟩
    else .error (.notAFrame name found.address)

def withArguments (call : Call) (arguments : List Value) : Call :=
  { call with arguments := call.arguments ++ arguments }

/-- A call has to have as many arguments as its function takes. -/
def check (call : Call) : Except CallError Unit :=
  if call.arguments.length = call.arity.toNat then .ok ()
  else .error (.argumentCount call.name call.arity call.arguments.length)

end Call

namespace Machine

def fetch (program : Program) (place : Nat) : Except Fault Instruction :=
  if program.code.size ≤ place then .error (.pcOutOfBounds place)
  else
    match Instruction.decodeAt program.code place with
    | .ok i => .ok i
    | .error e => .error (.ofDecode e)

/-- The outcome of one cycle: the run goes on at a place, or it has a value. -/
inductive Cycle where
  | goOn (place : Nat)
  | finished (value : Value)
  deriving DecidableEq, Repr

/-- Looks at the stack after an instruction, if asked to, and goes on. -/
def continueAt (validate : Bool) (i : Instruction) (place : Nat) : Action Cycle := fun m =>
  if validate then
    match Check.after m.stack with
    | .ok () => .ok (.goOn place) m
    | .error cause => .error (Check.fault i cause) m
  else .ok (.goOn place) m

/-- Carries out an instruction and finds the place of the next one. -/
def perform (program : Program) (env : Environment) (validate : Bool) (i : Instruction) :
    Action Cycle := do
  match ← step program env i with
  | .next => continueAt validate i i.nextOffset
  | .jump place => continueAt validate i place
  | .done value => return .finished value

/-- One cycle: fetches an instruction, checks it if asked to, and carries it out. -/
def cycle (program : Program) (env : Environment) (validate : Bool) (place : Nat) : Action Cycle :=
  fun m =>
    match fetch program place with
    | .error e => .error e m
    | .ok i =>
      if validate then
        match Check.before m.stack program env i with
        | .error cause => .error (Check.fault i cause) m
        | .ok () => perform program env validate i m
      else perform program env validate i m

/-- Runs from a place for at most `budget` cycles of a limit. -/
def runFor (program : Program) (env : Environment) (validate : Bool) (limit : Nat) :
    (budget : Nat) → (place : Nat) → Action Value
  | 0, _ => throw (.cycleLimit limit)
  | budget + 1, place => fun m =>
    match cycle program env validate place m with
    | .error e m => .error e m
    | .ok (.finished value) m => .ok value m
    | .ok (.goOn place) m => runFor program env validate limit budget place m

/-- Runs a program from a place, if the environment has its natives. -/
def run (settings : Settings) (program : Program) (env : Environment) (place : Nat) : Action Value :=
  if env.isReady program then
    runFor program env settings.validate settings.cycleLimit settings.cycleLimit place
  else throw .envNotReady

def resetStack : Action Unit := fun ⟨stack, heap, events⟩ =>
  .ok () ⟨stack.reset, heap, events⟩

/-- Runs a program from the beginning of its code. -/
def execute (settings : Settings) (program : Program) (env : Environment) : Action Value := do
  resetStack
  run settings program env 0

def pushAll : List Value → Action Unit
  | [] => pure ()
  | value :: rest => do
    push value
    pushAll rest

/-- Runs a function of a program. The stack is left alone if the number of arguments is wrong. -/
def executeCall (settings : Settings) (program : Program) (env : Environment) (call : Call) :
    Action Value := do
  match call.check with
  | .error e => throw (.call e)
  | .ok () =>
    resetStack
    pushAll call.arguments
    push hostReturn
    run settings program env call.address.toNat

def call (settings : Settings) (program : Program) (env : Environment) (name : String)
    (arguments : List Value) : Action Value := do
  match Call.lookup program name with
  | .error e => throw (.call e)
  | .ok call => executeCall settings program env (call.withArguments arguments)

end Machine

end ScriptMachine
