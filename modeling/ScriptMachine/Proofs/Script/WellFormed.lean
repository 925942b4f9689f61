import Mathlib
import ScriptMachine.Proofs.Script.Layout
import ScriptMachine.Proofs.WellFormed

/-!
# Compiled programs are well-formed

The layout of a script that compiles says what stands at every position of its draft. Linking turns
positions into offsets, so each function of the layout becomes a procedure of the program.
-/

namespace ScriptMachine

namespace Compilation

/-- The items of a procedure behind the one that opens its frame. -/
def Segment.inner (s : Segment) : Code :=
  s.body ++ [.plain .returnNothing]

def procedure (c : Compilation) (linked : Linked) (s : Segment) : Procedure where
  name := s.function.name
  frame := linked.placed s.function.start ⟨.makeFrame, .ofNat s.function.arity, .ofNat s.extra⟩
  body := s.inner.mapIdx fun k item => linked.placed (s.function.start + 1 + k) (c.settle item)

theorem instructions_procedure (c : Compilation) (linked : Linked) (s : Segment) :
    (c.procedure linked s).instructions
      = s.code.mapIdx fun k item => linked.placed (s.function.start + k) (c.settle item) := by
  rw [Segment.code, framed, List.mapIdx_cons, Procedure.instructions]
  simp only [procedure, Segment.inner, settle, Nat.add_zero, Nat.add_assoc, Nat.add_comm 1]

theorem Consecutive.mapIdx {α : Type} (f : Nat → Item → α) {position : Nat} {segments : List Segment}
    (h : Consecutive position segments) :
    (segments.flatMap Segment.code).mapIdx (fun k => f (position + k))
      = segments.flatMap fun s => s.code.mapIdx fun k => f (s.function.start + k) := by
  induction segments generalizing position with
  | nil => rfl
  | cons first rest ih =>
    rw [List.flatMap_cons, List.flatMap_cons, List.mapIdx_append, h.1, ← ih h.2]
    congr 2
    funext k
    rw [Nat.add_assoc, Nat.add_comm k]

theorem Consecutive.end_le {position : Nat} {segments : List Segment}
    (h : Consecutive position segments) {s : Segment} (hs : s ∈ segments) :
    s.function.start + s.code.length ≤ position + (segments.flatMap Segment.code).length := by
  induction segments generalizing position with
  | nil => cases hs
  | cons first rest ih =>
    rw [List.flatMap_cons, List.length_append]
    rcases List.mem_cons.mp hs with rfl | hmem
    · rw [h.1]
      omega
    · have := ih h.2 hmem
      omega

variable {root : Node} {program : Program} {c : Compilation} {segments : List Segment} {linked : Linked}

theorem Layout.walk (h : Layout root program c segments linked) :
    Walk.ofCode program.code
      = ⟨linked.placed 0 c.entryDraft
          :: (segments.map (c.procedure linked)).flatMap Procedure.instructions, none⟩ := by
  have hmap (items : Code) : (items.map c.settle).mapIdx (fun k => linked.placed (k + 1))
      = items.mapIdx fun k item => linked.placed (1 + k) (c.settle item) := by
    apply List.ext_getElem?
    intro k
    simp [List.getElem?_mapIdx, Nat.add_comm 1, Function.comp_def]
  rw [h.code, Linked.walk_eq_mapIdx h.link, List.mapIdx_cons, hmap, h.laid.code, List.flatMap_map]
  simp only [instructions_procedure]
  rw [← h.laid.consecutive.mapIdx fun position item => linked.placed position (c.settle item)]

theorem Layout.end_lt (h : Layout root program c segments linked) {s : Segment} (hs : s ∈ segments) :
    s.function.start + 1 + s.inner.length < 0x100000000 := by
  have hsize := Assembly.size_lt h.link
  have hend := h.laid.consecutive.end_le hs
  rw [← h.laid.code, Segment.length_code] at hend
  simp only [List.size_toArray, List.length_cons, List.length_map] at hsize
  simp only [Segment.inner, List.length_append, List.length_cons, List.length_nil]
  omega

/-- A call by name becomes a call of a function or of a host function. -/
theorem Laid.settle_call (h : Laid c segments) (hsettled : ∀ call ∈ c.pending, c.pendingError? call = none)
    {name : String} (hname : c.Knows name) :
    (∃ s ∈ segments, c.settle (.call name) = ⟨.call, .ofNat s.function.start, 0⟩) ∨
      ∃ index < c.imports.length, c.settle (.call name) = ⟨.callNative, .ofNat index, 0⟩ := by
  cases hfunction : c.findFunction? name with
  | some function =>
    have hmem : function ∈ c.functions := List.mem_of_find?_eq_some hfunction
    rw [h.functions] at hmem
    obtain ⟨s, hs, rfl⟩ := List.mem_map.mp hmem
    exact .inl ⟨s, hs, by simp [settle, hfunction]⟩
  | none =>
    rcases hname with hsome | ⟨call, hcall, rfl⟩
    · simp [hfunction] at hsome
    · have hknown := hsettled call hcall
      simp only [pendingError?, hfunction] at hknown
      cases himport : c.findImport? call.name with
      | none => simp [himport] at hknown
      | some found =>
        obtain ⟨index, found⟩ := found
        exact .inr ⟨index, lt_of_findImport? himport, by simp [settle, hfunction, himport]⟩

theorem Layout.start_lt (h : Layout root program c segments linked) {s : Segment} (hs : s ∈ segments) :
    s.function.start < 0x100000000 := by
  have := h.end_lt hs
  omega

theorem getElem?_body (c : Compilation) (linked : Linked) (s : Segment) {k : Nat} {item : Item} (hitem : s.inner[k]? = some item) :
    (c.procedure linked s).body[k]?
      = some (linked.placed (s.function.start + 1 + k) (c.settle item)) := by
  simp [procedure, List.getElem?_mapIdx, hitem]

theorem op_settle_call (c : Compilation) (name : String) :
    (c.settle (.call name)).op = .call ∨ (c.settle (.call name)).op = .callNative := by
  rw [settle]
  split
  · exact .inl rfl
  · split
    · exact .inr rfl
    · exact .inl rfl

/-- Only the plain instruction for it makes an array. -/
theorem Fits.eq_makeArray {locals : Nat} {lands : Nat → Prop} {item : Item}
    (h : Fits c locals false lands item) (hop : (c.settle item).op = .makeArray) :
    item = .plain .makeArray := by
  cases h with
  | plain hcount =>
    cases hop
    rfl
  | branch hbranch htarget =>
    cases hop
    cases hbranch
  | constant hindex => cases hop
  | native hindex => cases hop
  | slot hlocal hslot =>
    cases hop
    cases hlocal
  | leave hloop => cases hloop
  | call hname => rcases op_settle_call c _ with hcall | hcall <;> rw [hcall] at hop <;> cases hop

theorem Laid.fits (h : Laid c segments) {s : Segment} (hs : s ∈ segments) {item : Item}
    (hitem : item ∈ s.inner) :
    Fits c (s.function.arity + s.extra) false (Lands (s.function.start + 1) s.body) item := by
  rcases List.mem_append.mp hitem with hmem | hmem
  · exact (h.sound s hs).fragment.items item hmem
  · rw [List.mem_singleton.mp hmem]
    exact .plain rfl

/-- A place where a jump may land is an instruction of the procedure. -/
theorem Layout.landing (h : Layout root program c segments linked) {s : Segment} (hs : s ∈ segments)
    (position : Nat) (op : Opcode) (htarget : op.hasTarget = true) {target : Nat}
    (hlands : Lands (s.function.start + 1) s.body target) :
    ∃ j ∈ (c.procedure linked s).body,
      (linked.placed position ⟨op, .ofNat target, 0⟩).first.toNat = j.offset ∧ j.op ≠ .makeArray := by
  obtain ⟨hlow, hhigh, hne⟩ := hlands
  obtain ⟨k, rfl⟩ := Nat.exists_eq_add_of_le hlow
  have hend := h.end_lt hs
  have hlength : s.inner.length = s.body.length + 1 := by simp [Segment.inner]
  have hitem := List.getElem?_eq_getElem (l := s.inner) (i := k) (by omega)
  have hbody := getElem?_body c linked s hitem
  refine ⟨_, List.mem_of_getElem? hbody, Linked.target_placed h.link position 0 htarget (by omega), ?_⟩
  intro hop
  rw [(h.laid.fits hs (List.mem_of_getElem? hitem)).eq_makeArray hop] at hitem
  rw [Nat.add_sub_cancel_left] at hne
  rcases Nat.lt_or_ge k s.body.length with hlt | hge
  · rw [Segment.inner, List.getElem?_append_left hlt] at hitem
    exact hne hitem
  · rw [Segment.inner, List.getElem?_append_right hge, show k - s.body.length = 0 by omega] at hitem
    cases hitem

theorem arity_procedure (linked : Linked) {s : Segment} (hs : s.Sound c) :
    (c.procedure linked s).arity = s.function.arity := by
  have := hs.arity_le
  show (linked.placed _ _).first.toNat = _
  rw [Linked.first_placed _ _ _ _ (by decide) (by decide), UInt32.toNat_ofNat']
  omega

theorem slots_procedure (linked : Linked) {s : Segment} (hs : s.Sound c) :
    (c.procedure linked s).slots = s.function.arity + s.extra := by
  have hextra := hs.extra_le
  have hfirst := arity_procedure linked hs
  have hsecond : (c.procedure linked s).frame.second.toNat = s.extra := by
    show (linked.placed _ _).second.toNat = _
    rw [Linked.second_placed _ _ _ _ (by decide), UInt32.toNat_ofNat']
    omega
  rw [Procedure.slots, hsecond]
  rw [Procedure.arity] at hfirst
  rw [hfirst]

theorem toNat_ofNat_lt {index bound : Nat} (h : index < bound) : (UInt32.ofNat index).toNat < bound := by
  rw [UInt32.toNat_ofNat']
  exact Nat.lt_of_le_of_lt (Nat.mod_le _ _) h

theorem Layout.admits (h : Layout root program c segments linked) {s : Segment} (hs : s ∈ segments)
    {item : Item} (hitem : item ∈ s.inner) (position : Nat) :
    (c.procedure linked s).Admits program (segments.map (c.procedure linked))
      (linked.placed position (c.settle item)) := by
  have hconstants : program.constants.size = c.constants.size := by rw [h.constants]; rfl
  have himports : program.imports.length = c.imports.length := by simp [h.imports]
  have hnative {index : Nat} (hindex : index < c.imports.length) :
      (c.procedure linked s).Admits program (segments.map (c.procedure linked))
        (linked.placed position ⟨.callNative, .ofNat index, 0⟩) := by
    constructor <;> simp [Opcode.isBranch, Opcode.isLocal]
    rw [Linked.first_placed _ _ _ _ (by decide) (by decide), himports]
    exact toNat_ofNat_lt hindex
  cases h.laid.fits hs hitem with
  | plain hop => exact Procedure.admits_of_operandCount hop
  | @branch op target hop htarget =>
    have hlanding := h.landing hs position op (by revert hop; cases op <;> decide) htarget
    cases op <;> cases hop <;> constructor <;>
      simp [Opcode.isBranch, Opcode.isLocal, settle, Item.withOperand]
    all_goals simpa using hlanding
  | constant hindex =>
    constructor <;> simp [Opcode.isBranch, Opcode.isLocal, settle, Item.withOperand]
    rw [Linked.first_placed _ _ _ _ (by decide) (by decide), hconstants]
    exact toNat_ofNat_lt hindex
  | native hindex => exact hnative hindex
  | @slot op slot hop hslot =>
    cases op <;> cases hop <;> constructor <;>
      simp [Opcode.isBranch, Opcode.isLocal, settle, Item.withOperand]
    all_goals
      rw [Linked.first_placed _ _ _ _ (by decide) (by decide), slots_procedure linked (h.laid.sound s hs)]
      exact toNat_ofNat_lt hslot
  | leave hloop => cases hloop
  | call hname =>
    obtain ⟨q, hq, hcall⟩ | ⟨index, hindex, hcall⟩ := h.laid.settle_call h.settled hname
    · rw [hcall]
      constructor <;> simp [Opcode.isBranch, Opcode.isLocal]
      exact ⟨q, hq, Linked.target_placed h.link position 0 rfl (h.start_lt hq)⟩
    · rw [hcall]
      exact hnative hindex

/-- The instruction that pushes a count stands right before the one that makes an array. -/
theorem Layout.counted (h : Layout root program c segments linked) {s : Segment} (hs : s ∈ segments)
    {k : Nat} {i : Instruction} (hi : (c.procedure linked s).body[k]? = some i)
    (hop : i.op = .makeArray) :
    ∃ j, (c.procedure linked s).body[k - 1]? = some j ∧ 0 < k ∧ Procedure.PushesCount program j := by
  simp only [procedure, List.getElem?_mapIdx, Option.map_eq_some_iff] at hi
  obtain ⟨item, hitem, rfl⟩ := hi
  obtain rfl := (h.laid.fits hs (List.mem_of_getElem? hitem)).eq_makeArray hop
  have hcounted : c.Counted s.inner :=
    (h.laid.sound s hs).fragment.counted.append (counted_singleton c (plain_ne (by decide)))
  obtain ⟨before, index, rfl, hpush, x, hget, hcount⟩ := hcounted k hitem
  refine ⟨_, getElem?_body c linked s hpush, Nat.succ_pos _, rfl, x, ?_, hcount⟩
  have hindex := ConstantPool.lt_size_of_get? hget
  have hsize := h.laid.constants.size_le
  have hmax : maxOffset = 0x3fffffff := rfl
  have hfirst : (linked.placed (s.function.start + 1 + before)
      (c.settle (.withOperand .pushValue index))).first = .ofNat index :=
    Linked.first_placed _ _ _ _ (by decide) (by decide)
  rw [Nat.add_sub_cancel, hfirst, UInt32.toNat_ofNat', Nat.mod_eq_of_lt (by omega), h.constants]
  exact hget

theorem Layout.sound (h : Layout root program c segments linked) {s : Segment} (hs : s ∈ segments) :
    (c.procedure linked s).WellFormed program (segments.map (c.procedure linked)) where
  opens := rfl
  arguments_le := by
    have := arity_procedure linked (h.laid.sound s hs)
    rw [Procedure.arity] at this
    rw [this]
    exact (h.laid.sound s hs).arity_le
  locals_le := by
    have harity := arity_procedure linked (h.laid.sound s hs)
    have hslots := slots_procedure linked (h.laid.sound s hs)
    have hextra := (h.laid.sound s hs).extra_le
    rw [Procedure.arity] at harity
    rw [Procedure.slots] at hslots
    omega
  admits i hi := by
    obtain ⟨k, hk⟩ := List.getElem?_of_mem hi
    simp only [procedure, List.getElem?_mapIdx, Option.map_eq_some_iff] at hk
    obtain ⟨item, hitem, rfl⟩ := hk
    exact h.admits hs (List.mem_of_getElem? hitem) _
  ends := by
    simp [procedure, Segment.inner, List.mapIdx_append, settle, Item.plain]
  counted k i hi hop := h.counted hs hi hop

theorem find?_procedure (c : Compilation) (linked : Linked) (segments : List Segment) :
    mainProcedure? (segments.map (c.procedure linked))
      = (segments.find? (·.function.name == entryFunction)).map (c.procedure linked) := by
  rw [mainProcedure?, List.find?_map]
  rfl

theorem Layout.findFunction?_eq (h : Layout root program c segments linked) (name : String) :
    c.findFunction? name = (segments.find? (·.function.name == name)).map Segment.function := by
  rw [findFunction?, h.laid.functions, List.find?_map]
  rfl

theorem Layout.offset_start (h : Layout root program c segments linked) (s : Segment) :
    (UInt32.ofNat ((linked.offset? s.function.start).getD 0)).toNat = (c.procedure linked s).frame.offset := by
  have hoffset := Assembly.offset_lt h.link (k := s.function.start)
  rw [Linked.offset?, ← List.getD_eq_getElem?_getD, UInt32.toNat_ofNat', Nat.mod_eq_of_lt (by omega)]
  rfl

theorem Layout.wellFormed (h : Layout root program c segments linked) :
    program.WellFormed (linked.placed 0 c.entryDraft) (segments.map (c.procedure linked)) where
  walk := h.walk
  enters main hmain := by
    rw [find?_procedure] at hmain
    obtain ⟨s, hs, rfl⟩ := Option.map_eq_some_iff.mp hmain
    have hdraft : c.entryDraft = ⟨.entryPoint, .ofNat s.function.start, 0⟩ := by
      simp [entryDraft, h.findFunction?_eq, hs]
    have hlt := h.start_lt (List.mem_of_find?_eq_some hs)
    rw [hdraft]
    exact ⟨rfl, Linked.target_placed h.link 0 0 rfl hlt⟩
  halts hnone := by
    rw [find?_procedure, Option.map_eq_none_iff] at hnone
    simp [entryDraft, h.findFunction?_eq, hnone]
  sound p hp := by
    obtain ⟨s, hs, rfl⟩ := List.mem_map.mp hp
    exact h.sound hs
  distinct := by
    simpa [Function.comp_def, procedure] using h.laid.distinct
  constants index v hget := by
    rw [h.constants] at hget
    exact h.laid.constants.settled hget
  exports := by
    rw [h.exports, List.map_map, List.map_map]
    refine List.map_congr_left fun s hs => ?_
    have harity := (h.laid.sound s hs).arity_le
    simp only [Function.comp_apply, h.offset_start s, arity_procedure linked (h.laid.sound s hs),
      UInt8.toNat_ofNat', Nat.mod_eq_of_lt (show s.function.arity < 2 ^ 8 by omega)]
    rfl
  entry := by
    rw [h.entry, h.exports, find?_procedure, List.find?_map, Option.map_map, Option.map_map, Option.map_map]
    cases hmain : segments.find? (·.function.name == entryFunction) with
    | none => simp [Function.comp_def, hmain]
    | some s =>
      have hoffset := h.offset_start s
      simpa [Function.comp_def, hmain] using hoffset

theorem Layout.arities (h : Layout root program c segments linked) :
    (segments.map (c.procedure linked)).map (fun p => (p.name, p.arity)) = root.functions := by
  rw [← h.declared, List.map_map]
  refine List.map_congr_left fun s hs => ?_
  simp only [Function.comp_apply, arity_procedure linked (h.laid.sound s hs)]
  rfl

/-- Compiling gives a well-formed program whose procedures are the functions of the script. -/
theorem compile_wellFormed {c : Compilation} {root : Node} {program : Program} (hc : Prepared c)
    (h : c.compile root = .ok program) : ∃ first procedures,
      program.WellFormed first procedures ∧
        procedures.map (fun p => (p.name, p.arity)) = root.functions := by
  obtain ⟨segments, linked, hlayout⟩ := exists_layout hc h
  exact ⟨_, _, hlayout.wellFormed, hlayout.arities⟩

/-- A host that declares one function and offers another one. -/
def sampleHost : Compilation :=
  { imports := [⟨⟨"store", 1⟩, none⟩], offered := [⟨"log", 1, .action⟩] }

/-- A script with a loop that is left early, an array, a text, and calls of all sorts. -/
def sampleScript : Node :=
  .block {}
    [.function {} "main" []
      (.block {}
        [.forEach {} "x" (.array {} [.number {} (.ofNat 1), .text {} "ab"])
          (.branch {} (.binary {} .equal (.read {} "x") (.number {} (.ofNat 1)))
            (.block {} [.call {} "log" [.call {} "twice" [.read {} "x"]], .leave {}])
            (some (.call {} "store" [.read {} "x"])))]),
      .function {} "twice" ["n"]
        (.result {} (some (.binary {} .add (.read {} "n") (.read {} "n"))))]

theorem prepared_sampleHost : Prepared sampleHost :=
  .offer (.declare .start (show declareNative "store" 1 {} = .ok () _ from rfl))
    (show offerNative "log" 1 .action _ = .ok () _ from rfl)

theorem exists_program {c : Compilation} {root : Node}
    (h : (c.compile root).toOption.isSome = true) : ∃ program, c.compile root = .ok program := by
  cases hcompile : c.compile root with
  | ok program => exact ⟨program, rfl⟩
  | error e =>
    rw [hcompile] at h
    cases h

theorem compiles_sampleScript : ∃ program, sampleHost.compile sampleScript = .ok program :=
  exists_program (by cbv)

theorem compile_wellFormed_sample : ∃ program first procedures,
    sampleHost.compile sampleScript = .ok program ∧ program.WellFormed first procedures ∧
      procedures.map (fun p => (p.name, p.arity)) = [("main", 0), ("twice", 1)] := by
  obtain ⟨program, hprogram⟩ := compiles_sampleScript
  obtain ⟨first, procedures, hwellFormed, harities⟩ :=
    compile_wellFormed prepared_sampleHost hprogram
  exact ⟨program, first, procedures, hprogram, hwellFormed, harities⟩

end Compilation

end ScriptMachine
