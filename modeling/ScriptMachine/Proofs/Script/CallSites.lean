import Mathlib
import ScriptMachine.Proofs.Script.Imports

/-!
# Calls reach what they name

The calls of a script and the instructions that carry them out stand in the same order, one for one.
What a call becomes depends on when its name is known: an intrinsic has its own operation, a host
function that is known at the call has its index in the import table, and every other call is drafted
by name and settled in the end, as a call of a function or, if a signature came later, of a host function.
Whatever the way, the instruction leads to the one thing that the name stands for in the whole script.
-/

namespace ScriptMachine

def Opcode.isCall : Opcode → Bool
  | .print | .arrayLength | .call | .callNative => true
  | _ => false

def Item.isCall : Item → Bool
  | .op draft => draft.op.isCall
  | .leave => false
  | .call _ => true

/-- The instructions that carry out calls, in the order of the code. -/
def Program.callInstructions (program : Program) : List Instruction :=
  program.instructions.filter (·.op.isCall)

/-- The instruction carries out the call of a name with a number of arguments. The name is that of an
intrinsic, one of `natives`, the names that stand for host functions, or else that of a function of the
script: a call has exactly one of these cases. The operand of a host function is the index of its import,
as a word. -/
inductive CarriesOut (natives : List String) (program : Program) : String × Nat → Instruction → Prop where
  | print {i : Instruction} (hop : i.op = .print) : CarriesOut natives program ("print", 1) i
  | length {i : Instruction} (hop : i.op = .arrayLength) : CarriesOut natives program ("len", 1) i
  | native {name : String} {i : Instruction} {index : Nat} {entry : Import}
      (hintrinsic : intrinsic? name = none) (hname : name ∈ natives) (hop : i.op = .callNative) (hoperand : i.first = .ofNat index)
      (hentry : program.imports[index]? = some entry) (hentryName : entry.name = name) :
      CarriesOut natives program (name, entry.arity.toNat) i
  | function {name : String} {i : Instruction} {target : Export}
      (hintrinsic : intrinsic? name = none) (hname : name ∉ natives) (hop : i.op = .call)
      (hexport : program.findExport? name = some target)
      (hoperand : i.first = target.address) : CarriesOut natives program (name, target.arity.toNat) i

namespace Compilation

open Outcome

variable {c d : Compilation}

/-- What a call of a name with a number of arguments is drafted as. -/
inductive Answers (c : Compilation) : String × Nat → Item → Prop where
  | intrinsic {name : String} {arity : Nat} {op : Opcode} (hname : intrinsic? name = some (arity, op)) :
      Answers c (name, arity) (.plain op)
  | native {name : String} {index : Nat} {found : KnownImport} (hintrinsic : intrinsic? name = none)
      (hfound : c.imports[index]? = some found) (hname : found.entry.name = name) :
      Answers c (name, found.entry.arity.toNat) (.withOperand .callNative index)
  | function {name : String} {function : Function} (hintrinsic : intrinsic? name = none)
      (hfunction : c.findFunction? name = some function) :
      Answers c (name, function.arity) (.call name)
  | pending {call : PendingCall} (hintrinsic : intrinsic? call.name = none) (hcall : call ∈ c.pending) :
      Answers c (call.name, call.arguments) (.call call.name)

theorem Extends.findFunction?_eq (h : c.Extends d) {name : String} {function : Function}
    (hfunction : c.findFunction? name = some function) : d.findFunction? name = some function := by
  obtain ⟨added, hadded⟩ := h.functions
  rw [findFunction?, ← hadded, List.find?_append, ← findFunction?, hfunction, Option.some_or]

theorem Answers.mono {call : String × Nat} {item : Item} (h : c.Extends d) (hanswers : Answers c call item) :
    Answers d call item := by
  cases hanswers with
  | intrinsic hname => exact .intrinsic hname
  | native hintrinsic hfound hname =>
    obtain ⟨added, hadded⟩ := h.imports
    refine .native hintrinsic ?_ hname
    rw [← hadded, List.getElem?_append_left (List.getElem?_eq_some_iff.mp hfound).1, hfound]
  | function hintrinsic hfunction => exact .function hintrinsic (h.findFunction?_eq hfunction)
  | pending hintrinsic hcall => exact .pending hintrinsic (h.pending.subset hcall)

theorem getElem?_of_findImport? {name : String} {index : Nat} {found : KnownImport}
    (h : c.findImport? name = some (index, found)) : c.imports[index]? = some found := by
  unfold findImport? at h
  cases hindex : c.imports.findIdx? (·.entry.name == name) with
  | none =>
    rw [hindex] at h
    cases h
  | some i =>
    rw [hindex] at h
    obtain ⟨known, hknown, heq⟩ := Option.map_eq_some_iff.mp h
    cases heq
    exact hknown

theorem answers_callItem {span : Span} {name : String} {arguments : Nat} {item : Item}
    (hintrinsic : intrinsic? name = none) (h : callItem span name arguments c = .ok item d) :
    Answers d (name, arguments) item ∧ item.isCall = true := by
  rw [callItem, bind_of_ok (resolveImport_eq name c)] at h
  cases himport : (c.resolved name).findImport? name with
  | some found =>
    obtain ⟨index, found⟩ := found
    rw [himport] at h
    obtain ⟨_, e, hcheck, hitem⟩ := bind_eq_ok.mp h
    obtain ⟨rfl, rfl⟩ := checkArity_ok hcheck
    obtain ⟨rfl, rfl⟩ := pure_eq_ok.mp hitem
    exact ⟨.native hintrinsic (getElem?_of_findImport? himport) (mem_of_findImport? himport).2, rfl⟩
  | none =>
    rw [himport] at h
    dsimp only at h
    rw [bind_of_ok (get_eq_ok.mpr ⟨rfl, rfl⟩)] at h
    cases hfunction : (c.resolved name).findFunction? name with
    | some function =>
      rw [hfunction] at h
      obtain ⟨_, e, hcheck, hitem⟩ := bind_eq_ok.mp h
      obtain ⟨rfl, rfl⟩ := checkArity_ok hcheck
      obtain ⟨rfl, rfl⟩ := pure_eq_ok.mp hitem
      exact ⟨.function hintrinsic hfunction, rfl⟩
    | none =>
      rw [hfunction] at h
      obtain ⟨_, e, hmodify, hitem⟩ := bind_eq_ok.mp h
      obtain ⟨rfl, rfl⟩ := pure_eq_ok.mp hitem
      have hcall : ⟨name, arguments, span⟩ ∈ e.pending := by
        rw [← modify_eq_ok.mp hmodify]
        exact List.mem_append_right _ (List.mem_singleton_self _)
      exact ⟨.pending hintrinsic hcall, rfl⟩

/-! ### Drafted code -/

/-- The calls of some code answer the calls of some mentions, one for one and in order. -/
def AnswersAll (c : Compilation) (mentions : List Mention) (code : Code) : Prop :=
  List.Forall₂ (Answers c) (Mention.called mentions) (code.filter Item.isCall)

variable {mentions more : List Mention} {code rest : Code}

theorem AnswersAll.mono (h : c.Extends d) (hanswers : AnswersAll c mentions code) :
    AnswersAll d mentions code :=
  hanswers.imp fun _ _ => Answers.mono h

theorem AnswersAll.append (h : AnswersAll c mentions code) (hmore : AnswersAll c more rest) :
    AnswersAll c (mentions ++ more) (code ++ rest) := by
  rw [AnswersAll, Mention.called, List.filterMap_append, List.filter_append]
  exact List.rel_append h hmore

/-- Instructions that carry out no call may stand behind. -/
theorem AnswersAll.idle (h : AnswersAll c mentions code) (hrest : rest.filter Item.isCall = []) :
    AnswersAll c mentions (code ++ rest) := by
  rw [AnswersAll, List.filter_append, hrest, List.append_nil]
  exact h

/-- An instruction that carries out no call may stand in front. -/
theorem AnswersAll.behind {item : Item} (h : AnswersAll c mentions code) (hitem : item.isCall = false) :
    AnswersAll c mentions (item :: code) := by
  rw [AnswersAll, List.filter_cons_of_neg (by simp [hitem])]
  exact h

theorem answersAll_call {name : String} {arguments : Nat} {item : Item}
    (hanswers : Answers c (name, arguments) item) (hitem : item.isCall = true) :
    AnswersAll c [.calls name arguments] [item] := by
  rw [AnswersAll, List.filter_cons_of_pos hitem]
  exact .cons hanswers .nil

theorem filter_map_leaveTo (code : Code) (exit : Nat) :
    (code.map (·.leaveTo exit)).filter Item.isCall = code.filter Item.isCall := by
  induction code with
  | nil => rfl
  | cons item rest ih =>
    rw [List.map_cons, List.filter_cons, List.filter_cons, ih]
    cases item <;> rfl

theorem AnswersAll.leaveTo (h : AnswersAll c mentions code) (exit : Nat) :
    AnswersAll c mentions (code.map (·.leaveTo exit)) := by
  rw [AnswersAll, filter_map_leaveTo]
  exact h

theorem called_asTarget (target : Node) : Mention.called [target.asTarget] = [] := by
  unfold Node.asTarget
  split <;> rfl

theorem AnswersAll.dropResult (h : AnswersAll c mentions code) (n : Node) :
    AnswersAll c mentions (c.dropResult n code) := by
  unfold Compilation.dropResult
  split
  · exact h.idle rfl
  · exact h

theorem intrinsic?_cases {name : String} {arity : Nat} {op : Opcode}
    (h : intrinsic? name = some (arity, op)) :
    name = "print" ∧ arity = 1 ∧ op = .print ∨ name = "len" ∧ arity = 1 ∧ op = .arrayLength := by
  simpa [intrinsics] using mem_of_intrinsic? h

theorem isCall_of_intrinsic? {name : String} {arity : Nat} {op : Opcode}
    (h : intrinsic? name = some (arity, op)) : op.isCall = true := by
  obtain ⟨-, -, rfl⟩ | ⟨-, -, rfl⟩ := intrinsic?_cases h
  · rfl
  · rfl

/-- The code of a part has one instruction for every call in it, in the order of code generation. -/
theorem Drafted.answersAll {l : Bool} {p : Nat} {part : Part} (h : Drafted l p part c code d) :
    AnswersAll d (part.mentions l) code := by
  -- What answers the calls of a part still does so in the states that later parts lead to.
  induction h with
  | literal hn hinsert => cases hn <;> exact .nil
  | read hslot => exact .nil
  | declare hslot => exact .nil
  | array helements hinsert ih =>
    exact (ih.mono ((inserts_scalar (countValue _) rfl).grows hinsert).extends).idle rfl
  | block hitems ih => exact ih
  | lastBranch htest hbody hnext ihtest ihbody =>
    rw [Part.mentions, Node.mentions, mentions_of_not_continues hnext, List.append_nil]
    exact (ihtest.mono hbody.grows.extends).append (ihbody.behind rfl)
  | branch htest hbody hnext hrest ihtest ihbody ihrest =>
    refine AnswersAll.append (AnswersAll.mono hrest.grows.extends ?_) (ihrest.behind rfl)
    exact (ihtest.mono hbody.grows.extends).append (ihbody.behind rfl)
  | forEach helements hslot hbody ihelements ihbody =>
    have hgrows := (growth_of_declareLocal hslot).trans hbody.grows
    refine AnswersAll.idle (AnswersAll.append ((ihelements.mono hgrows.extends).idle rfl) ?_) rfl
    exact ihbody.leaveTo _
  | binary hright hleft ihright ihleft =>
    exact ((ihright.mono hleft.grows.extends).append ihleft).idle (by cases ‹BinaryOp› <;> rfl)
  | unary hinner ih => exact ih.idle (by cases ‹UnaryOp› <;> rfl)
  | assign hvalue hslot ih =>
    refine AnswersAll.append (ih.mono (targetSlot_ok hslot).1.extends) ?_
    rw [AnswersAll, called_asTarget]
    exact .nil
  | resultValue hvalue ih => exact ih.idle rfl
  | resultNothing => exact .nil
  | leave => exact .nil
  | intrinsic hname harguments ih =>
    exact ih.append (answersAll_call (.intrinsic hname) (isCall_of_intrinsic? hname))
  | call hname harguments hitem ih =>
    obtain ⟨hanswers, hcall⟩ := answers_callItem hname hitem
    exact (ih.mono (callItem_ok hitem).1.extends).append (answersAll_call hanswers hcall)
  | nodesNil => exact .nil
  | nodesCons hfirst hrest ihfirst ihrest => exact (ihfirst.mono hrest.grows.extends).append ihrest
  | statementsNil => exact .nil
  | statementsCons hfirst hrest ihfirst ihrest =>
    exact ((ihfirst.dropResult _).mono hrest.grows.extends).append ihrest

/-! ### The whole script -/

theorem answers_declaration {item : Node} {calls : List (String × Nat)}
    (hitem : ∀ span items, item ≠ .block span items) (herrors : (declaration c item).errors = [])
    (hextends : c.Extends (declaration c item))
    (h : List.Forall₂ (Answers c) calls (c.code.filter Item.isCall)) :
    List.Forall₂ (Answers (declaration c item)) (calls ++ item.bodyCalls)
      ((declaration c item).code.filter Item.isCall) := by
  have hbefore := h.imp fun _ _ => Answers.mono hextends
  obtain ⟨span, name, parameters, rfl, hdeclare⟩ | ⟨span, name, parameters, body, rfl, hdeclare⟩ :=
    declaration_cases hitem herrors
  · have hcalls : (Node.signature span name parameters).bodyCalls = [] := rfl
    rw [hcalls, List.append_nil]
    rw [addImport_ok hdeclare] at hbefore ⊢
    exact hbefore
  · obtain ⟨-, -, inner, d, hdrafted, -, -, heq⟩ := declareFunction_ok hdeclare herrors
    have hcode : d.code = c.code := hdrafted.grows.code
    have hbody : AnswersAll d (body.mentions false)
        (framed parameters.length (d.locals.length - parameters.length) inner) :=
      AnswersAll.behind (hdrafted.answersAll.idle rfl) rfl
    rw [heq, ← hcode] at hbefore
    rw [heq, List.filter_append]
    exact List.rel_append hbefore (hbody.mono (extends_append d _))

/-- The calls of declarations without faults are answered in the code, in their order. -/
theorem answers_foldl {items : List Node} {segments : List Segment} (hlaid : Laid c segments)
    (hcode : c.code = []) (hitems : ∀ n ∈ items, ∀ span inner, n ≠ .block span inner)
    (herrors : (items.foldl declaration c).errors = []) :
    List.Forall₂ (Answers (items.foldl declaration c)) (items.flatMap Node.bodyCalls)
      ((items.foldl declaration c).code.filter Item.isCall) := by
  induction items using List.reverseRecOn with
  | nil =>
    rw [List.foldl_nil, hcode]
    exact .nil
  | append_singleton front last ih =>
    rw [List.foldl_append] at herrors ⊢
    have hlast := hitems last (by simp)
    have hbefore : ∀ n ∈ front, ∀ span inner, n ≠ .block span inner := fun n hn => hitems n (by simp [hn])
    have hfront := errors_of_declaration hlast herrors
    obtain ⟨-, added, hadded, -⟩ := hlaid.foldl_declaration hbefore hfront
    obtain ⟨hextends, -⟩ := hadded.declaration hlast herrors
    rw [List.flatMap_append, List.flatMap_singleton]
    exact answers_declaration hlast herrors hextends (ih hbefore hfront)

/-! ### Settled calls -/

variable {root : Node} {program : Program} {segments : List Segment} {linked : Linked}

theorem isCall_settle (c : Compilation) (item : Item) : (c.settle item).op.isCall = item.isCall := by
  cases item with
  | op draft => rfl
  | leave => rfl
  | call name => rcases op_settle_call c name with hop | hop <;> rw [hop] <;> rfl

/-- A call by the name of a function leads to its export. -/
theorem Layout.calls_function (h : Layout root program c segments linked) {names : List String}
    (hnames : ∀ name ∈ root.functions.map Prod.fst, name ∉ names) {name : String} {function : Function}
    (hintrinsic : intrinsic? name = none) (hfunction : c.findFunction? name = some function)
    (position : Nat) :
    CarriesOut names program (name, function.arity) (linked.placed position (c.settle (.call name))) := by
  rw [settle, hfunction]
  rw [h.findFunction?_eq] at hfunction
  obtain ⟨s, hs, rfl⟩ := Option.map_eq_some_iff.mp hfunction
  have hmem := List.mem_of_find?_eq_some hs
  have hsame : s.function.name = name := by simpa using List.find?_some hs
  have hname : name ∈ root.functions.map Prod.fst := by
    rw [← h.declared, List.map_map]
    exact List.mem_map.mpr ⟨s, hmem, hsame⟩
  have hexport : program.findExport? name = some ⟨s.function.name, .ofNat s.function.arity,
      .ofNat ((linked.offset? s.function.start).getD 0)⟩ := by
    rw [Program.findExport?, h.exports, List.find?_map]
    exact congrArg (Option.map _) hs
  have harity : (UInt8.ofNat s.function.arity).toNat = s.function.arity := by
    have := (h.laid.sound s hmem).arity_le
    rw [UInt8.toNat_ofNat']
    omega
  have haddress : (linked.placed position ⟨.call, .ofNat s.function.start, 0⟩).first
      = .ofNat ((linked.offset? s.function.start).getD 0) := by
    apply UInt32.toNat_inj.mp
    rw [Linked.target_placed h.link position 0 rfl (h.start_lt hmem), h.offset_start s]
    rfl
  have hcalls := CarriesOut.function hintrinsic (hnames name hname) rfl hexport haddress
  rw [harity] at hcalls
  exact hcalls

/-- A host function is called at its index in the import table. -/
theorem Layout.calls_native (h : Layout root program c segments linked) {names : List String} {index : Nat}
    {found : KnownImport} (hintrinsic : intrinsic? found.entry.name = none)
    (hname : found.entry.name ∈ names) (hfound : c.imports[index]? = some found) (position : Nat) :
    CarriesOut names program (found.entry.name, found.entry.arity.toNat)
      (linked.placed position ⟨.callNative, .ofNat index, 0⟩) := by
  refine .native hintrinsic hname rfl (Linked.first_placed _ _ _ _ (by decide) (by decide)) ?_ rfl
  rw [h.imports, List.getElem?_map, hfound, Option.map_some]

/-- The instruction of an item that answers a call carries it out. -/
theorem Layout.carriesOut (h : Layout root program c segments linked) {names : List String}
    (himports : ∀ known ∈ c.imports, known.entry.name ∈ names)
    (hnames : ∀ name ∈ root.functions.map Prod.fst, name ∉ names) {call : String × Nat} {item : Item}
    (hanswers : Answers c call item) (position : Nat) :
    CarriesOut names program call (linked.placed position (c.settle item)) := by
  cases hanswers with
  | intrinsic hname =>
    obtain ⟨rfl, rfl, rfl⟩ | ⟨rfl, rfl, rfl⟩ := intrinsic?_cases hname
    · exact .print rfl
    · exact .length rfl
  | native hintrinsic hfound hname =>
    subst hname
    exact h.calls_native hintrinsic (himports _ (List.mem_of_getElem? hfound)) hfound position
  | function hintrinsic hfound => exact h.calls_function hnames hintrinsic hfound position
  | @pending pendingCall hintrinsic hcall =>
    -- Now that all names are known, the name is that of a function or of a signature that came later.
    have hsettled := h.settled pendingCall hcall
    unfold pendingError? at hsettled
    cases hfound : c.findFunction? pendingCall.name with
    | some function =>
      simp only [hfound, ite_eq_left_iff, reduceCtorEq, imp_false, not_not] at hsettled
      rw [← hsettled]
      exact h.calls_function hnames hintrinsic hfound position
    | none =>
      cases himport : c.findImport? pendingCall.name with
      | none => simp [hfound, himport] at hsettled
      | some found =>
        obtain ⟨index, found⟩ := found
        simp only [hfound, himport, ite_eq_left_iff, reduceCtorEq, imp_false, not_not] at hsettled
        obtain ⟨hmem, hname⟩ := mem_of_findImport? himport
        rw [← hname] at hintrinsic
        rw [← hsettled, settle, hfound, himport, ← hname]
        exact h.calls_native hintrinsic (himports found hmem) (getElem?_of_findImport? himport) position

/-- What answers calls item by item is carried over to the instructions that the items become. -/
theorem forall₂_callInstructions {S : String × Nat → Instruction → Prop} {place : Nat → Draft → Instruction}
    {calls : List (String × Nat)} {code : Code} (hop : ∀ k draft, (place k draft).op = draft.op)
    (hstep : ∀ k call item, Answers c call item → S call (place k (c.settle item)))
    (h : List.Forall₂ (Answers c) calls (code.filter Item.isCall)) :
    List.Forall₂ S calls (((code.map c.settle).mapIdx place).filter (·.op.isCall)) := by
  induction code generalizing place calls with
  | nil =>
    cases h
    exact .nil
  | cons item rest ih =>
    have hrest := @ih fun k => place (k + 1)
    rw [List.map_cons, List.mapIdx_cons, List.filter_cons, hop, isCall_settle]
    rw [List.filter_cons] at h
    split
    · rename_i hitem
      rw [if_pos hitem] at h
      cases h with
      | cons hfirst h =>
        exact .cons (hstep 0 _ _ hfirst) (hrest (fun k => hop (k + 1)) (fun k => hstep (k + 1)) h)
    · rename_i hitem
      rw [if_neg hitem] at h
      exact hrest (fun k => hop (k + 1)) (fun k => hstep (k + 1)) h

/-- Every call site reaches what it names. The calls in the functions of a script and the instructions of
its program that carry out calls correspond one for one, in the order of code generation. -/
theorem calls_reach_what_they_name (hc : Prepared c) (h : c.compile root = .ok program) :
    List.Forall₂ (CarriesOut (c.natives root) program) root.calls program.callInstructions := by
  obtain ⟨segments, linked, hlayout⟩ := exists_layout hc h
  obtain ⟨herrors, -, -⟩ := compile_ok h
  have hcode : c.code = [] := by rw [hc.blank]
  have hanswers : List.Forall₂ (Answers (declaration c root)) root.calls
      ((declaration c root).code.filter Item.isCall) := by
    rw [declaration_eq_foldl] at herrors ⊢
    exact answers_foldl hc.laid hcode (topLevel_ne_block root) herrors
  have himports : ∀ known ∈ (declaration c root).imports, known.entry.name ∈ c.natives root := by
    rw [declaration_eq_foldl] at herrors ⊢
    exact fun known hknown => (acquires_foldl (topLevel_ne_block root) herrors).name_mem hknown
  have hentry : (declaration c root).entryDraft.op.isCall = false := by
    unfold entryDraft
    split <;> rfl
  rw [Program.callInstructions, Program.instructions, hlayout.code, Linked.walk_eq_mapIdx hlayout.link,
    List.mapIdx_cons, List.filter_cons_of_neg (by simp [hentry])]
  refine forall₂_callInstructions (fun _ _ => rfl) (fun k call item hitem => ?_) hanswers
  exact hlayout.carriesOut himports (fun name => not_mem_natives hc herrors) hitem (k + 1)

/-- Calls of all sorts. The signature and one of the functions come after calls of them. -/
def forwardScript : Node :=
  .block {}
    [.function {} "main" []
      (.block {}
        [.call {} "log" [.binary {} .add (.call {} "later" []) (.call {} "poll" [.number {} (.ofNat 1)])],
          .call {} "print" [.call {} "len" [.text {} "ab"]]]),
      .signature {} "poll" ["n"],
      .function {} "later" [] (.result {} (some (.call {} "poll" [.number {} (.ofNat 2)])))]

theorem compiles_forwardScript : ∃ program, sampleHost.compile forwardScript = .ok program :=
  exists_program (by cbv)

theorem calls_reach_what_they_name_sample : ∃ program, sampleHost.compile forwardScript = .ok program ∧
    List.Forall₂ (CarriesOut ["store", "log", "poll"] program)
      [("poll", 1), ("later", 0), ("log", 1), ("len", 1), ("print", 1), ("poll", 1)]
      program.callInstructions := by
  obtain ⟨program, hprogram⟩ := compiles_forwardScript
  exact ⟨program, hprogram, calls_reach_what_they_name prepared_sampleHost hprogram⟩

end Compilation

end ScriptMachine
