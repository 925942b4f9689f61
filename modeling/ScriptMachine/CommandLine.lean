import ScriptMachine.Demo
import ScriptMachine.Host
import ScriptMachine.Program.Blob
import ScriptMachine.Program.Listing

/-!
# The command line

Runs a bundled script. Options are read from left to right; the first one that cannot be read, or that
is given a second time, refuses the whole command line.
-/

namespace ScriptMachine

/-- What a command leaves: its status, and what it writes to its two outputs. -/
structure Outcome where
  status : Nat
  out : String := ""
  err : String := ""
  deriving DecidableEq, Repr

/-- The options of a command. An option that was not given has no value. -/
structure Options where
  demo : Option String := none
  cycleLimit : Option Nat := none
  list : Bool := false
  disassemble : Bool := false
  trace : Bool := false
  validate : Bool := false
  blob : Bool := false
  deriving DecidableEq, Repr

inductive Request where
  | run (options : Options)
  | version
  | help
  | refused
  deriving DecidableEq, Repr

namespace Options

/-! ### Reading options -/

def digits? (digits : List Char) : Option Nat :=
  if digits.isEmpty || !digits.all Char.isDigit then none
  else some (digits.foldl (fun n c => 10 * n + (c.toNat - '0'.toNat)) 0)

/-- A number of cycles: digits after an optional sign, for a number from zero to the largest of 32
bits. -/
def cycles? (text : String) : Option Nat :=
  match text.toList with
  | '-' :: rest => (digits? rest).filter (· == 0)
  | '+' :: rest => (digits? rest).filter (· ≤ 0xffffffff)
  | chars => (digits? chars).filter (· ≤ 0xffffffff)

/-- Sets an option that has a value. -/
def withValue? (o : Options) (name value : String) : Option Options :=
  match name with
  | "demo" => if o.demo.isSome then none else some { o with demo := some value }
  | "cycle-limit" =>
    if o.cycleLimit.isSome then none
    else (cycles? value).map fun n => { o with cycleLimit := some n }
  | _ => none

/-- Sets an option that has none. -/
def withFlag? (o : Options) (name : String) : Option Options :=
  match name with
  | "list" => if o.list then none else some { o with list := true }
  | "disassemble" => if o.disassemble then none else some { o with disassemble := true }
  | "trace" => if o.trace then none else some { o with trace := true }
  | "validate" => if o.validate then none else some { o with validate := true }
  | "blob" => if o.blob then none else some { o with blob := true }
  | _ => none

def takesValue (name : String) : Bool :=
  name == "demo" || name == "cycle-limit"

/-- Whether an argument can be the value of the option before it. A lone dash can. -/
def isValue (argument : String) : Bool :=
  match argument.toList with
  | '-' :: _ :: _ => false
  | _ => true

inductive Argument where
  | terminator
  | version
  | help
  | long (name : String) (value : Option String)
  | other
  deriving DecidableEq, Repr

/-- Tells what an argument is. The value of a long option may follow an equals sign. -/
def classify (argument : String) : Argument :=
  match argument.toList with
  | ['-', '-'] => .terminator
  | '-' :: '-' :: rest =>
    let name := String.ofList (rest.takeWhile (· != '='))
    match rest.dropWhile (· != '=') with
    | [] =>
      if name == "version" then .version else if name == "help" then .help else .long name none
    | _ :: value => .long name (some (String.ofList value))
  | '-' :: 'V' :: _ => .version
  | '-' :: 'h' :: _ => .help
  | _ => .other

def read (o : Options) : List String → Request
  | [] => .run o
  | argument :: rest =>
    match classify argument with
    | .terminator => if rest.isEmpty then .run o else .refused
    | .version => .version
    | .help => .help
    | .other => .refused
    | .long name (some value) =>
      match o.withValue? name value with
      | some o => o.read rest
      | none => .refused
    | .long name none =>
      if takesValue name then
        match rest with
        | [] => .refused
        | value :: rest =>
          if isValue value then
            match o.withValue? name value with
            | some o => o.read rest
            | none => .refused
          else .refused
      else
        match o.withFlag? name with
        | some o => o.read rest
        | none => .refused

/-! ### Carrying out a command -/

/-- The bundled scripts, one per line. -/
def listing : String :=
  String.join (Demo.all.map fun demo => padRight 10 demo.name ++ " " ++ demo.about ++ "\n")

def lines (events : Array Event) : String :=
  String.join (events.toList.map fun
    | .printed line => line ++ "\n"
    | .noted note => note ++ "\n")

/-- A command that fails after it has written `out`. -/
def failure (out message : String) : Outcome :=
  ⟨1, out, message ++ "\n"⟩

def throughBlob (program : Program) : Except String (String × Program) :=
  match Blob.write program with
  | .error e => .error ("blob encode failed: " ++ e.message)
  | .ok bytes =>
    match Blob.read bytes with
    | .error e => .error ("blob decode failed: " ++ e.message)
    | .ok program => .ok ("blob: " ++ toString bytes.length ++ " bytes\n", program)

def execute (o : Options) (out : String) (program : Program) (env : Environment) : Outcome :=
  let defaults : Settings := {}
  let settings : Settings :=
    { defaults with cycleLimit := o.cycleLimit.getD defaults.cycleLimit, validate := o.validate }
  match Machine.create settings with
  | .error e => failure out e.message
  | .ok machine =>
    match Machine.execute settings program env machine with
    | .ok value m =>
      ⟨0, out ++ lines m.events ++ "=> " ++ (m.memory program).render value ++ "\n", ""⟩
    | .error fault m =>
      failure (out ++ lines m.events)
        ("error (" ++ toString fault.sentinel ++ "): " ++ fault.message)

/-- Runs a bundled script, or lists its program. -/
def runDemo (o : Options) (demo : Demo) : Outcome :=
  match Host.prepare ⟨Demo.registry, {}⟩ demo.script with
  | .error e => failure "" e.message
  | .ok loaded =>
    let program := if o.blob then throughBlob loaded.program else .ok ("", loaded.program)
    match program with
    | .error message => failure "" message
    | .ok (out, program) =>
      if o.disassemble then ⟨0, out ++ program.listing, ""⟩
      else o.execute out program loaded.environment

def perform (o : Options) : Outcome :=
  if o.list then ⟨0, listing, ""⟩
  else
    let name := o.demo.getD "add"
    match Demo.find? name with
    | none => failure "" ("unknown demo '" ++ name ++ "', try --list")
    | some demo => o.runDemo demo

end Options

def versionText : String :=
  "quill 0.1.0\n"

def usageText : String :=
  "Usage: [--demo NAME] [--list] [--disassemble] [--trace] [--validate] [--blob] "
    ++ "[--cycle-limit N] [--version]\n"

def commandLine (arguments : List String) : Outcome :=
  match Options.read {} arguments with
  | .run options => options.perform
  | .version => ⟨0, versionText, ""⟩
  | .help => ⟨0, usageText, ""⟩
  | .refused => ⟨2, "", usageText⟩

end ScriptMachine
