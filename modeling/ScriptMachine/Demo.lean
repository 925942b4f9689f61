import ScriptMachine.Native
import ScriptMachine.Script

/-!
# Bundled scripts

Small scripts that show what scripts can do, and the natives that they may call.
-/

namespace ScriptMachine

structure Demo where
  name : String
  about : String
  script : Node

namespace Demo

/-! ### Writing scripts -/

def num (n : Nat) : Node :=
  .number {} (.ofNat n)

def var (name : String) : Node :=
  .read {} name

def bin (op : BinaryOp) (left right : Node) : Node :=
  .binary {} op left right

def invoke (name : String) (arguments : List Node) : Node :=
  .call {} name arguments

def give (value : Node) : Node :=
  .result {} (some value)

def define (name : String) (value : Node) : Node :=
  .assign {} (.declare {} name) value

def when (condition : Node) (statements : List Node) : Node :=
  .branch {} condition (.block {} statements) none

def function (name : String) (parameters : List String) (statements : List Node) : Node :=
  .function {} name parameters (.block {} statements)

/-! ### The scripts -/

def add : Demo where
  name := "add"
  about := "call a two-argument function"
  script := .block {}
    [function "add" ["a", "b"] [give (bin .add (var "a") (var "b"))],
      function "main" []
        [define "sum" (invoke "add" [num 3, num 4]),
          invoke "print" [var "sum"],
          give (var "sum")]]

def fibonacci : Demo where
  name := "fib"
  about := "recursive fibonacci"
  script := .block {}
    [function "main" [] [give (invoke "fib" [num 15])],
      function "fib" ["n"]
        [when (bin .less (var "n") (num 2)) [give (var "n")],
          give (bin .add (invoke "fib" [bin .sub (var "n") (num 1)])
            (invoke "fib" [bin .sub (var "n") (num 2)]))]]

def loop : Demo where
  name := "loop"
  about := "sum an array until a break"
  script := function "main" []
    [define "xs" (.array {} [num 1, num 2, num 3, num 4, num 5]),
      define "total" (num 0),
      .forEach {} "x" (var "xs") (.block {}
        [when (bin .greater (var "x") (num 3)) [.leave {}],
          .assign {} (var "total") (bin .add (var "total") (var "x"))]),
      invoke "print" [var "xs"],
      give (var "total")]

def guarded : Demo where
  name := "string"
  about := "return a guarded string"
  script := function "main" []
    [define "greeting" (.text {} "hello123"),
      when (bin .equal (invoke "len" [var "greeting"]) (num 8)) [give (var "greeting")],
      give (.text {} "too short")]

def hypotenuse : Demo where
  name := "natives"
  about := "call host functions"
  script := function "main" []
    [invoke "log" [.text {} "computing a hypotenuse"],
      give (invoke "sqrt"
        [bin .add (bin .mul (num 3) (num 3)) (bin .mul (num 4) (num 4))])]

def all : List Demo :=
  [add, fibonacci, loop, guarded, hypotenuse]

def find? (name : String) : Option Demo :=
  all.find? (·.name == name)

/-! ### The natives -/

def sqrtNative : Native where
  name := "sqrt"
  arity := 1
  kind := .function
  respond call := ⟨(call.number 0).map fun x => .number x.sqrt, []⟩

/-- Leaves a text as a note. -/
def logNative : Native where
  name := "log"
  arity := 1
  kind := .action
  respond call :=
    match call.text 0 with
    | .ok text => ⟨.ok .nothing, ["[log] " ++ text]⟩
    | .error e => ⟨.error e, []⟩

def failNative : Native where
  name := "fail"
  arity := 0
  kind := .function
  respond _ := ⟨.error "asked to fail", []⟩

/-- What the bundled scripts may call. -/
def registry : Registry :=
  ((Registry.insert {} sqrtNative).insert logNative).insert failNative

end Demo

end ScriptMachine
