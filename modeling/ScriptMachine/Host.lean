import ScriptMachine.Machine.Run
import ScriptMachine.Script.Compile

/-!
# Hosts that reload scripts

A host holds natives and one loaded program, bound to them. Reloading compiles and binds a new script
first and replaces the loaded one only when both succeed, so that a program is never run against an
environment that is not its own.
-/

namespace ScriptMachine

/-- A program with the environment that it is bound to. -/
structure Loaded where
  program : Program := {}
  environment : Environment := {}
  generation : Nat := 0

inductive ReloadError where
  | compile (diagnostics : Diagnostics)
  | bind (error : BindError)
  deriving DecidableEq, Repr

namespace ReloadError

def message : ReloadError → String
  | .compile diagnostics => "compilation failed:\n" ++ diagnostics.message
  | .bind error => error.message

end ReloadError

structure Host where
  registry : Registry
  loaded : Loaded := {}

namespace Host

/-- Offers a native to a compilation; one that is refused is passed over. -/
def offer (c : Compilation) (native : Native) : Compilation :=
  match Compilation.offerNative native.name native.arity native.kind c with
  | .ok () c => c
  | .error _ c => c

/-- A compilation in which all natives of the registry can be called. -/
def compilation (registry : Registry) : Compilation :=
  registry.natives.foldl offer {}

/-- The script compiled and bound, as the next generation. -/
def prepare (host : Host) (root : Node) : Except ReloadError Loaded :=
  match (compilation host.registry).compile root with
  | .error diagnostics => .error (.compile diagnostics)
  | .ok program =>
    match Environment.bind host.registry program with
    | .error e => .error (.bind e)
    | .ok env => .ok ⟨program, env, host.loaded.generation + 1⟩

/-- Loads a script. A script that cannot be loaded leaves the host as it was. -/
def reload (root : Node) : EStateM ReloadError Host Nat := fun host =>
  match host.prepare root with
  | .error e => .error e host
  | .ok loaded => .ok loaded.generation { host with loaded := loaded }

end Host

end ScriptMachine
