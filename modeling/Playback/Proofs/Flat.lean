import Playback.Proofs.Calls
import Playback.Proofs.Pieces
import Playback.Proofs.Serials

/-!
# Scripts without functions inside functions

The body of a function is lowered twice, and every function takes a number of its own. So a function inside
another is two functions, one in each body. Where no function is inside another, both bodies are the code of
the same plans (`Planned`), and all that differs between them is what reports to the trace.
-/

namespace Playback

open List

open Lower (Plan Links Place FitAll emitAll codesAll plan planBlock planSuite planLinks)

def Statement.isFunction : Statement → Bool
  | .function .. => true
  | _ => false

/-- Whether a block declares a function, itself or inside it. -/
def blockDeclares (ss : List Statement) : Bool :=
  (statementsNested ss).any Statement.isFunction

/-- Whether a statement is no function with another one inside it. -/
def Statement.isFlat : Statement → Bool
  | .function _ _ _ body => !blockDeclares body
  | _ => true

/-- Whether no function that a block declares has another one inside it. -/
def blockIsFlat (ss : List Statement) : Bool :=
  (statementsNested ss).all Statement.isFlat

/-- Both bodies of a function are the code of the same plans, which define no function. -/
def Planned (code : FunctionCode) : Prop :=
  ∃ ps, FitAll (fun _ => False) .function ps ∧ code.traced = emitAll true ps ++ [.at 1 .endFrame]
    ∧ code.plain = emitAll false ps

theorem Planned.hasBodies (h : Planned d) : HasBodies Planned d := by
  obtain ⟨ps, hf, ht, hp⟩ := h
  have hn : FitAll Planned .function ps := hf.mono fun c hc => (hf.codes c hc).elim
  exact ⟨⟨ps, hn, ht⟩, ⟨ps, hn, hp⟩⟩

namespace Lower

/-! ## Plans without functions -/

mutual

theorem Plan.bare_of_codes (p : Plan) (h : p.codes = []) : p.bare = p := by
  match p with
  | .conditional l c b ls =>
    obtain ⟨hb, hl⟩ := append_eq_nil_iff.1 h
    rw [Plan.bare, bareAll_of_codes b hb, Links.bare_of_codes ls hl]
  | .whileLoop _ _ b | .forLoop _ _ _ b => rw [Plan.bare, bareAll_of_codes b h]
  | .define _ _ => cases h
  | .skip | .eval _ _ | .assign _ _ _ | .return_ _ _ | .break_ _ | .continue_ _ | .import_ _ _ | .fromImport _ _ _ =>
    rfl

theorem bareAll_of_codes (ps : List Plan) (h : codesAll ps = []) : bareAll ps = ps := by
  match ps with
  | [] => rfl
  | p :: r =>
    obtain ⟨hp, hr⟩ := append_eq_nil_iff.1 h
    rw [bareAll, Plan.bare_of_codes p hp, bareAll_of_codes r hr]

theorem Links.bare_of_codes (ls : Links) (h : ls.codes = []) : ls.bare = ls := by
  match ls with
  | .done => rfl
  | .elif _ _ b r =>
    obtain ⟨hb, hr⟩ := append_eq_nil_iff.1 h
    rw [Links.bare, bareAll_of_codes b hb, Links.bare_of_codes r hr]
  | .else_ _ b => rw [Links.bare, bareAll_of_codes b h]

end

/-! ## Functions with one plan -/

/-- The functions that plans define: none where none of the statements is a function, and functions with one plan where
none is inside another. -/
structure Undivided (ss : List Statement) (codes : List FunctionCode) : Prop where
  none : ss.any Statement.isFunction = false → codes = []
  planned : ss.all Statement.isFlat = true → ∀ d ∈ codes, Planned d

theorem Undivided.nil : Undivided ss [] :=
  ⟨fun _ => rfl, fun _ => forall_mem_nil _⟩

theorem Undivided.append (h : Undivided ss cs) (h' : Undivided ss' ds) : Undivided (ss ++ ss') (cs ++ ds) := by
  refine ⟨fun hn => ?_, fun hf => ?_⟩
  · rw [any_append, Bool.or_eq_false_iff] at hn
    rw [h.none hn.1, h'.none hn.2, append_nil]
  · rw [all_append, Bool.and_eq_true_iff] at hf
    exact forall_mem_append.2 ⟨h.planned hf.1, h'.planned hf.2⟩

/-- A statement that is no function adds nothing. -/
theorem Undivided.cons (h : Undivided ss cs) (hs : s.isFunction = false) : Undivided (s :: ss) cs := by
  cases s with
  | function => cases hs
  | _ => exact ⟨h.none, h.planned⟩

/-- Planned from the same line, the two bodies of a function without functions have the same plans. -/
theorem plans_eq (ht : planSuite q b ⟨2, n⟩ = .ok (ps, c)) (hp : planSuite q b ⟨2, n'⟩ = .ok (ps', c'))
    (h : codesAll ps = []) (h' : codesAll ps' = []) : ps = ps' := by
  have hs := (planBlock_inStep q b n n').suite 2
  rw [ht, hp] at hs
  cases hs with
  | ok hs _ => rw [← bareAll_of_codes _ h, hs.1, bareAll_of_codes _ h']

theorem undivided_rules : BlockRules (fun _ s _ p _ => Undivided s.nested p.codes)
    (fun _ ss _ ps _ => Undivided (statementsNested ss) (codesAll ps))
    fun _ ks _ ls _ => Undivided (linksNested ks) ls.codes where
  skip _ := .nil
  eval _ := .nil
  assign _ _ := .nil
  conditional _ hb _ hl := (hb.append hl).cons rfl
  whileLoop _ hb := hb.cons rfl
  forLoop _ _ hb := hb.cons rfl
  function _ _ _ ht hts hp hps := by
    refine ⟨nofun, fun hf => forall_mem_singleton.2 ?_⟩
    have hn := (Bool.not_eq_true' _).mp (Bool.and_eq_true_iff.1 hf).1
    rw [plans_eq ht hp (hts.none hn) (hps.none hn)]
    exact ⟨_, (proper_rules.of_suite _ _ _ _ hp).mono (hps.none hn ▸ forall_mem_nil _), rfl, rfl⟩
  return_ _ _ _ := .nil
  break_ _ := .nil
  continue_ _ := .nil
  import_ _ := .nil
  fromImport _ _ := .nil
  nil := .nil
  cons _ hp hr := hp.append hr
  empty := .nil
  suite h := h
  done := .nil
  elif _ hb _ hl := hb.append hl
  else_ hb := by
    rw [Links.codes, ← append_nil (codesAll _)]
    exact hb.append .nil

end Lower

/-- **The functions of a script without functions inside functions have one plan each.** -/
theorem Script.compile_planned {p : Program} {s : Script} (h : s.compile = .ok p) (hf : blockIsFlat s = true) :
    ∃ ps, FitAll Planned .file ps ∧ p.body = emitAll true ps := by
  obtain ⟨r, hp, hb⟩ := Script.compile_ok h
  have hu := Lower.undivided_rules.of_block _ s _ r hp
  exact ⟨r.1, (Lower.proper_rules.of_block _ s _ r hp).mono (hu.planned hf), hb⟩

end Playback
