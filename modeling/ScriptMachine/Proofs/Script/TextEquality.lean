import Mathlib
import ScriptMachine.Proofs.Script.Placement

/-!
# Comparing text literals

The machine takes two arrays for equal when they have one address and one length. For the literals of
a script this is equality of the texts: a literal pushes the first constant that reads as its text, so
a text comes as the same array wherever it stands, and an array reads as one text only.
-/

namespace ScriptMachine

open Compilation Machine

namespace Program

variable {program : Program} {text text' : String} {v w : Value}

/-- The constant that the instruction at a position pushes. -/
def pushed? (program : Program) (position : Nat) : Option Value :=
  (program.instructions[position]?).bind fun i =>
    if i.op = .pushValue then program.constants[i.first.toNat]? else none

/-- The value is the first constant that reads as a text, whatever is on the heap. -/
def FirstReading (program : Program) (text : String) (v : Value) : Prop :=
  ∀ heap, program.constants.find? (fun v => Memory.text? ⟨program.constants, heap⟩ v == some text) = some v

theorem FirstReading.text? (h : program.FirstReading text v) (heap : Heap) :
    Memory.text? ⟨program.constants, heap⟩ v = some text := by
  have hreads := Array.find?_some (h heap)
  exact eq_of_beq hreads

theorem FirstReading.exists_array (h : program.FirstReading text v) :
    ∃ address length, v = .array address length := by
  have htext := h.text? default
  cases v with
  | array address length => exact ⟨address, length, rfl⟩
  | _ => cases htext

theorem FirstReading.eq_iff (h : program.FirstReading text v) (h' : program.FirstReading text' w) :
    v = w ↔ text = text' := by
  constructor
  · rintro rfl
    exact Option.some.inj ((h.text? default).symm.trans (h'.text? default))
  · rintro rfl
    exact Option.some.inj ((h default).symm.trans (h' default))

/-- Arrays agree only if they are the same. -/
theorem FirstReading.agrees (h : program.FirstReading text v) (h' : program.FirstReading text' w) :
    v.agrees w = decide (text = text') := by
  obtain ⟨address, length, rfl⟩ := h.exists_array
  rw [Value.agrees, ← decide_eq_decide.mpr (h.eq_iff h')]
  · rfl
  · intro x y hx
    cases hx

end Program

namespace Compilation

variable {c : Compilation} {root : Node} {program : Program} {text : String} {position : Nat}

/-- The code of a text literal of some function is the instruction at a position. -/
def TextAt (c : Compilation) (root : Node) (text : String) (position : Nat) : Prop :=
  ∃ names span, Spans c root names (.node (.text span text)) position (position + 1)

/-- The code of a literal is one instruction, which pushes the first constant that reads as the text. -/
theorem Site.pushes_text {names : List String} {t : Task} {span : Span} (h : Site c root names t)
    (hpart : t.part = .node (.text span text)) (hc : Prepared c) (hcompile : c.compile root = .ok program) :
    Spans c root names t.part t.position (t.position + 1) ∧
    ∃ i v, program.instructions[t.position]? = some i ∧ i.op = .pushValue ∧
      program.constants[i.first.toNat]? = some v ∧ program.FirstReading text v := by
  obtain ⟨inLoop, position, part, state⟩ := t
  obtain ⟨code, d, hdrafted, hsited⟩ := h.sited hc hcompile
  have hspans := h.spans hdrafted
  cases hpart
  cases hdrafted with
  | literal hn hinsert =>
    cases hn
    rename_i index pool'
    -- The constants of the program are those of a later pool, in which the text is still the first.
    obtain ⟨pool, hsound, hgrows, hprogram⟩ := hsited.constants
    obtain ⟨i, hi, hop, -, hfirst, -⟩ := hsited.renders 0 _ rfl
    obtain ⟨v, hget, -⟩ := ConstantPool.find?_insertText? default hinsert hgrows hsound
    have hlt := (ConstantPool.lt_size_of_get? hget).trans_le hsound.size_le
    have hindex : i.first.toNat = index := by
      rw [hfirst (Nat.le_refl 1) rfl, UInt32.toNat_ofNat', Nat.mod_eq_of_lt (hlt.trans (by decide))]
    refine ⟨hspans, i, v, hi, hop, ?_, fun heap => ?_⟩
    · rw [hindex, hprogram]
      exact hget
    · obtain ⟨v', hget', hfind⟩ := ConstantPool.find?_insertText? heap hinsert hgrows hsound
      rw [hprogram, hfind, ← hget', hget]

theorem TextAt.pushes (h : TextAt c root text position) (hc : Prepared c)
    (hcompile : c.compile root = .ok program) :
    ∃ i v, program.instructions[position]? = some i ∧ i.op = .pushValue ∧
      program.constants[i.first.toNat]? = some v ∧ program.FirstReading text v := by
  obtain ⟨names, span, t, code, d, hsite, hpart, rfl, -⟩ := h
  exact (hsite.pushes_text hpart hc hcompile).2

theorem TextAt.firstReading (h : TextAt c root text position) (hc : Prepared c)
    (hcompile : c.compile root = .ok program) {v : Value} (hv : program.pushed? position = some v) :
    program.FirstReading text v := by
  obtain ⟨i, w, hi, hop, hw, hreading⟩ := h.pushes hc hcompile
  rw [Program.pushed?, hi, Option.bind_some, if_pos hop, hw] at hv
  exact Option.some.inj hv ▸ hreading

/-- Every text literal of a script that compiles is an instruction of its own, which pushes an array
that reads as the text. When two such arrays are on top of a stack, the comparison leaves whether the
texts are the same. -/
theorem literals_compare_by_text (hc : Prepared c) (hcompile : c.compile root = .ok program) :
    (∀ span name parameters body literal text, .function span name parameters body ∈ root.topLevel →
      (Part.node body).Contains (.node (.text literal text)) → ∃ position, TextAt c root text position) ∧
    (∀ text position, TextAt c root text position → ∃ i address length,
      program.instructions[position]? = some i ∧ i.op = .pushValue ∧
      program.pushed? position = some (.array address length) ∧
      (∀ heap, Memory.text? ⟨program.constants, heap⟩ (.array address length) = some text) ∧
      ∀ (env : Environment) (m : Machine), m.stack.depth < m.stack.capacity →
        step program env i m = .ok .next (m.withResult m.stack.depth (.array address length))) ∧
    ∀ text text' position position' v w, TextAt c root text position → TextAt c root text' position' →
      program.pushed? position = some v → program.pushed? position' = some w →
      ∀ (env : Environment) (i : Instruction) (m : Machine) (depth : Nat), i.op = .cmpEqual →
        m.stack.depth = depth + 2 → depth < m.stack.capacity →
        Slots.read m.stack.slots (depth + 1) = v → Slots.read m.stack.slots depth = w →
        step program env i m = .ok .next (m.withResult depth (.bool (decide (text = text')))) := by
  refine ⟨?_, ?_, ?_⟩
  · intro span name parameters body literal text hfunction hinside
    obtain ⟨names, t, hsite, hpart⟩ := exists_site hc hcompile hfunction hinside
    exact ⟨t.position, names, literal, hpart ▸ (hsite.pushes_text hpart hc hcompile).1⟩
  · intro text position htext
    obtain ⟨i, v, hi, hop, hv, hreading⟩ := htext.pushes hc hcompile
    obtain ⟨address, length, rfl⟩ := hreading.exists_array
    refine ⟨i, address, length, hi, hop, ?_, hreading.text?, fun env m hroom =>
      delivers_pushValue hop hv hroom⟩
    rw [Program.pushed?, hi, Option.bind_some, if_pos hop, hv]
  · intro text text' position position' v w htext htext' hv hw env i m depth hop hdepth hroom hread hread'
    have hstep : Delivers (step program env i) m depth _ := delivers_binary .equal hop hdepth hroom
    rw [hread, hread', BinaryOp.apply,
      (htext.firstReading hc hcompile hv).agrees (htext'.firstReading hc hcompile hw)] at hstep
    exact hstep

/-- An empty text between two texts that are the same. -/
def matchScript : Node :=
  .block {} [.function {} "match" []
    (.result {} (some (.binary {} .equal (.text {} "ab")
      (.binary {} .equal (.text {} "") (.text {} "ab")))))]

theorem textAt_matchScript : TextAt {} matchScript "ab" 2 ∧ TextAt {} matchScript "" 3 ∧
    TextAt {} matchScript "ab" 5 := by
  have hab : ConstantPool.empty.insertText? "ab"
      = some (2, ⟨#[.char 'a', .char 'b', .array (.constant 0) 2]⟩) := by decide +kernel
  have hempty : ConstantPool.insertText? ⟨#[.char 'a', .char 'b', .array (.constant 0) 2]⟩ ""
      = some (3, ⟨#[.char 'a', .char 'b', .array (.constant 0) 2, .array .null 0]⟩) := by decide +kernel
  have hagain : ConstantPool.insertText?
        ⟨#[.char 'a', .char 'b', .array (.constant 0) 2, .array .null 0]⟩ "ab"
      = some (2, ⟨#[.char 'a', .char 'b', .array (.constant 0) 2, .array .null 0]⟩) := by decide +kernel
  have hfirst : Drafted false 2 (.node (.text {} "ab")) (entering {} "match" []) _ _ :=
    .literal (.text {} "ab") hab
  have hsecond : Drafted false 3 (.node (.text {} ""))
      { entering {} "match" [] with constants := _ } _ _ := .literal (.text {} "") hempty
  have hthird : Drafted false 5 (.node (.text {} "ab"))
      { entering {} "match" [] with constants := _ } _ _ := .literal (.text {} "ab") hagain
  have hinner : Drafted false 2 (.node (.binary {} .equal (.text {} "") (.text {} "ab"))) _ _ _ :=
    .binary hfirst hsecond
  have hsite : Site {} matchScript [] ⟨false, 2, .node (.binary {} .equal (.text {} "ab")
      (.binary {} .equal (.text {} "") (.text {} "ab"))), entering {} "match" []⟩ :=
    site_of_drafted rfl (by cbv) (.single .result)
  exact ⟨⟨_, _, ((hsite.tail .right).tail .right).spans hfirst⟩,
    ⟨_, _, ((hsite.tail .right).tail (.left hfirst.generate)).spans hsecond⟩,
    ⟨_, _, (hsite.tail (.left hinner.generate)).spans hthird⟩⟩

/-- The last literal is found to be the first one, and the one between them is not. -/
theorem literals_compare_by_text_sample : ∃ program v w u,
    ({} : Compilation).compile matchScript = .ok program ∧ program.pushed? 2 = some v ∧
    program.pushed? 3 = some w ∧ program.pushed? 5 = some u ∧ ∀ env,
      step program env ⟨0, .cmpEqual, 0, 0⟩ ⟨⟨#[v, u], 2, none⟩, default, #[]⟩
        = .ok .next ⟨⟨#[.bool true, u], 1, none⟩, default, #[]⟩ ∧
      step program env ⟨0, .cmpEqual, 0, 0⟩ ⟨⟨#[v, w], 2, none⟩, default, #[]⟩
        = .ok .next ⟨⟨#[.bool false, w], 1, none⟩, default, #[]⟩ := by
  obtain ⟨hfirst, hsecond, hthird⟩ := textAt_matchScript
  obtain ⟨program, hcompile⟩ : ∃ program, ({} : Compilation).compile matchScript = .ok program :=
    exists_program (by cbv)
  obtain ⟨-, hpushes, hcompares⟩ := literals_compare_by_text .start hcompile
  obtain ⟨-, _, _, -, -, hv, -⟩ := hpushes _ _ hfirst
  obtain ⟨-, _, _, -, -, hw, -⟩ := hpushes _ _ hsecond
  obtain ⟨-, _, _, -, -, hu, -⟩ := hpushes _ _ hthird
  refine ⟨program, _, _, _, hcompile, hv, hw, hu, fun env => ⟨?_, ?_⟩⟩
  · exact hcompares _ _ _ _ _ _ hthird hfirst hu hv env _ _ 0 rfl rfl (Nat.succ_pos 1) rfl rfl
  · exact hcompares _ _ _ _ _ _ hsecond hfirst hw hv env _ _ 0 rfl rfl (Nat.succ_pos 1) rfl rfl

end Compilation

end ScriptMachine
