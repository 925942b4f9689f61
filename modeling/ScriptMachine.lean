import ScriptMachine.Main
import ScriptMachine.Proofs.Outcome
import ScriptMachine.Proofs.Bytes
import ScriptMachine.Proofs.ConstantPool
import ScriptMachine.Proofs.Linking
import ScriptMachine.Proofs.Script.Growth
import ScriptMachine.Proofs.Script.Drafting
import ScriptMachine.Proofs.Number
import ScriptMachine.Proofs.Script.Fragment
import ScriptMachine.Proofs.Script.Layout
import ScriptMachine.Proofs.Script.WellFormed
import ScriptMachine.Proofs.Slots
import ScriptMachine.Proofs.Machine.Run
import ScriptMachine.Proofs.Machine.Tame
import ScriptMachine.Proofs.Machine.ControlFlow
import ScriptMachine.Proofs.Heap.Bitmap
import ScriptMachine.Proofs.Heap.Marking
import ScriptMachine.Proofs.Heap.Mutator
import ScriptMachine.Proofs.Expression
import ScriptMachine.Proofs.Machine.Operation
import ScriptMachine.Proofs.Machine.Yield
import ScriptMachine.Proofs.Literal
import ScriptMachine.Proofs.Script.Site
import ScriptMachine.Proofs.Script.Expression
import ScriptMachine.Proofs.Activation
import ScriptMachine.Proofs.Blob
import ScriptMachine.Proofs.Relocation
import ScriptMachine.Proofs.RoundTrip
import ScriptMachine.Proofs.Script.Portable
import ScriptMachine.Proofs.Truncation
import ScriptMachine.Proofs.Machine.Validation
import ScriptMachine.Proofs.Stack.Intact
import ScriptMachine.Proofs.Heap.Intact
import ScriptMachine.Proofs.Machine.Intact
import ScriptMachine.Proofs.Script.Scope
import ScriptMachine.Proofs.Script.Acceptance
import ScriptMachine.Proofs.Script.WellScoped
import ScriptMachine.Proofs.Binding
import ScriptMachine.Proofs.Script.Offers
import ScriptMachine.Proofs.Script.Imports
import ScriptMachine.Proofs.Script.CallSites
import ScriptMachine.Proofs.Host
import ScriptMachine.Proofs.Heap.Collection
import ScriptMachine.Proofs.Iteration
import ScriptMachine.Proofs.Machine.Budget
import ScriptMachine.Proofs.Machine.Steering
import ScriptMachine.Proofs.Script.Chain
import ScriptMachine.Proofs.Script.ForEach
import ScriptMachine.Proofs.Heap.Worklist
import ScriptMachine.Proofs.Heap.FirstFit
import ScriptMachine.Proofs.Heap.Allocation
import ScriptMachine.Proofs.Machine.MakeArray
import ScriptMachine.Proofs.Tiling
import ScriptMachine.Proofs.Interning
import ScriptMachine.Proofs.Script.TextEquality
import ScriptMachine.Proofs.Machine.ReturnAddress
import ScriptMachine.Proofs.Stack.Return
import ScriptMachine.Proofs.Call
import ScriptMachine.Proofs.Machine.Draining
import ScriptMachine.Proofs.Machine.RequiredDepth
