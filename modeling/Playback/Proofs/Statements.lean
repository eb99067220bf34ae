import Playback.Proofs.Bookkeeping
import Playback.Proofs.Pieces

/-!
# Where plans come from

Every plan in the code of a script is the plan of one of its statements, those inside others included
(`inside_rules`), and so are the plans of the functions that it defines (`Defined.bodies`). So a ledger that explains
the plans of statements is kept in a run (`Script.run_settles`).
-/

namespace Playback

open List

open Lower (Plan Links Place FitAll emitAll codesAll partsAll)

variable {s : Statement} {d : FunctionCode}

namespace Lower

/-! ## Plans and their statements -/

/-- A plan is that of a statement which is among the given ones with all that is inside. -/
def Plan.Origin (all : List Statement) (p : Plan) : Prop :=
  ∃ s, s.nested ⊆ all ∧ ∃ place c c', plan place s c = .ok (p, c')

/-- A function is defined by one of the statements. -/
def Defined (all : List Statement) (d : FunctionCode) : Prop :=
  ∃ line, (Plan.define line d).Origin all

/-- Plans are those of statements, and functions are defined by statements. -/
structure AllFrom (all : List Statement) (parts : List Plan) (codes : List FunctionCode) : Prop where
  parts : ∀ part ∈ parts, part.Origin all
  codes : ∀ d ∈ codes, Defined all d

/-- All plans in the bodies of a function are those of statements. -/
structure BodiesFrom (all : List Statement) (d : FunctionCode) : Prop where
  traced : Ledger.TracedFrom (Plan.Origin all) (Defined all) d
  plain : ∃ ps, FitAll (Defined all) .function ps ∧ d.plain = emitAll false ps

/-- What is inside the plan of a statement is of statements: other plans, and the bodies of a function. -/
structure Plan.Inside (all : List Statement) (p : Plan) : Prop where
  parts : p.Origin all → AllFrom all p.parts p.codes
  bodies : ∀ line d, p = .define line d → BodiesFrom all d

variable {all : List Statement}

theorem AllFrom.nil : AllFrom all [] [] :=
  ⟨forall_mem_nil _, forall_mem_nil _⟩

theorem AllFrom.append (h : AllFrom all ps cs) (h' : AllFrom all qs ds) : AllFrom all (ps ++ qs) (cs ++ ds) :=
  ⟨forall_mem_append.2 ⟨h.parts, h'.parts⟩, forall_mem_append.2 ⟨h.codes, h'.codes⟩⟩

theorem AllFrom.inside {p : Plan} (h : AllFrom all ps p.codes) (hp : p.parts = p :: ps) (hd : ∀ l d, p ≠ .define l d) :
    p.Inside all :=
  ⟨fun ho => ⟨hp ▸ forall_mem_cons.2 ⟨ho, h.parts⟩, h.codes⟩, fun l d he => absurd he (hd l d)⟩

theorem inside_rules : BlockRules (fun _ s _ p _ => s.nested ⊆ all → p.Inside all)
    (fun _ ss _ ps _ => statementsNested ss ⊆ all → AllFrom all (partsAll ps) (codesAll ps))
    fun _ ks _ ls _ => linksNested ks ⊆ all → AllFrom all ls.parts ls.codes where
  skip _ _ := AllFrom.nil.inside rfl nofun
  eval _ _ := AllFrom.nil.inside rfl nofun
  assign _ _ _ := AllFrom.nil.inside rfl nofun
  conditional _ hb _ hl hs := by
    obtain ⟨hsb, hsl⟩ := append_subset.1 (cons_subset.1 hs).2
    exact ((hb hsb).append (hl hsl)).inside rfl nofun
  whileLoop _ hb hs := (hb (cons_subset.1 hs).2).inside rfl nofun
  forLoop _ _ hb hs := (hb (cons_subset.1 hs).2).inside rfl nofun
  function _ _ _ ht hts hp hps hs := by
    obtain ⟨-, hb⟩ := cons_subset.1 hs
    refine ⟨fun ho => ⟨forall_mem_singleton.2 ho, forall_mem_singleton.2 ⟨_, ho⟩⟩, ?_⟩
    rintro _ _ ⟨⟩
    exact ⟨⟨_, (proper_rules.of_suite _ _ _ _ ht).mono (hts hb).codes, (hts hb).parts, rfl⟩,
      _, (proper_rules.of_suite _ _ _ _ hp).mono (hps hb).codes, rfl⟩
  return_ _ _ _ _ := AllFrom.nil.inside rfl nofun
  break_ _ _ := AllFrom.nil.inside rfl nofun
  continue_ _ _ := AllFrom.nil.inside rfl nofun
  import_ _ _ := AllFrom.nil.inside rfl nofun
  fromImport _ _ _ := AllFrom.nil.inside rfl nofun
  nil _ := .nil
  cons hp hps hr hs := by
    obtain ⟨hf, hre⟩ := append_subset.1 hs
    exact ((hps hf).parts ⟨_, hf, _, _, _, hp⟩).append (hr hre)
  empty _ := .nil
  suite h := h
  done _ := .nil
  elif _ hb _ hl hs := by
    obtain ⟨hsb, hsl⟩ := append_subset.1 hs
    exact (hb hsb).append (hl hsl)
  else_ hb hs := hb (append_subset.1 hs).1

theorem Defined.bodies (h : Defined all d) : BodiesFrom all d := by
  obtain ⟨l, s, hs, p, c, _, hp⟩ := h
  exact (inside_rules.of_plan p s c _ hp hs).bodies l d rfl

theorem Defined.hasBodies (h : Defined all d) : HasBodies (Defined all) d := by
  obtain ⟨⟨ps, hf, -, ht⟩, hp⟩ := h.bodies
  exact ⟨⟨ps, hf, ht⟩, hp⟩

end Lower

variable {sc : Script} {pr : Program}

theorem Script.compile_origin (h : sc.compile = .ok pr) :
    ∃ ps, FitAll (Lower.Defined sc.statements) .file ps ∧ (∀ part ∈ partsAll ps, part.Origin sc.statements)
      ∧ pr.body = emitAll true ps := by
  obtain ⟨r, hp, hb⟩ := Script.compile_ok h
  have ho := Lower.inside_rules.of_block _ sc _ r hp (List.Subset.refl sc.statements)
  exact ⟨r.1, (Lower.proper_rules.of_block _ sc _ r hp).mono ho.codes, ho.parts, hb⟩

/-- **A run keeps a ledger** that explains the plans of the statements of the script. -/
theorem Script.run_settles {lim : Limits} {md : Mode} {i : List String} (hco : sc.compile = .ok pr) {l : Ledger}
    (he : l.Explains (Lower.Defined sc.statements) (Plan.Origin sc.statements))
    (hs : l.start = Machine.ready lim md i) :
    Ends (Eval.execBlock (Eval.invoke l.rounds l.recursion) l.rounds pr.body) l.start
      (fun _ m' => l.Covers true 0 m'.trace) fun m' => ∀ type msg, l.Covers false 0 (m'.trace.logException type msg) := by
  obtain ⟨_, hf, hp, hb⟩ := Script.compile_origin hco
  rw [hb]
  exact l.run_settles he hs (fun _ h => h.hasBodies) (fun _ h => h.bodies.traced) hf hp

/-! ## Records -/

theorem Trace.Arena.mem_frames {t : Trace} (h : t.Arena) (hr : r ∈ t.record.frames) :
    ∃ id < t.frames.size, t.frame id = r ∧ t.kindOf id = r.kind := by
  obtain ⟨id, hid, rfl⟩ := mem_map.1 (h.frames_record.mem_iff.1 hr)
  have hs := mem_range.1 hid
  have hf : t.frames[id]? = some t.frames[id] := Array.getElem?_eq_getElem hs
  refine ⟨id, hs, rfl, ?_⟩
  rw [h.frame_eq hf, Trace.kindOf, hf]
  rfl

theorem Trace.kindOf_congr {t t' : Trace} {id : Nat} (h : t'.frames[id]? = t.frames[id]?) :
    t'.kindOf id = t.kindOf id := by
  rw [Trace.kindOf, h, Trace.kindOf]

/-- The record of a run is that of a trace of whose frames all holds that the ledger says after an exception. -/
theorem Script.run_recorded (hco : sc.compile = .ok pr) {l : Ledger}
    (hex : l.Explains (Lower.Defined sc.statements) (Plan.Origin sc.statements))
    {md : Mode} (hst : l.start = Machine.ready lim md inp)
    (hrc : l.recursion = lim.recursion) (hr : pr.run l.rounds lim md inp = some execution) :
    ∃ t : Trace, t.Arena ∧ execution.record = t.record ∧ l.Covers false 0 t := by
  have he := Script.run_settles hco hex hst
  have hre := (Records.execBlock (invoke_records l.rounds l.recursion) l.rounds pr.body).ends l.start
  rw [hst, hrc] at he hre
  have ha := Machine.ready_arena lim md inp
  unfold Program.run at hr
  dsimp only at hr
  split at hr
  · rename_i m hok
    cases hr
    obtain ⟨ss, hs⟩ := hre.ok hok
    exact ⟨m.trace, hs.arena ha, rfl, fun id hlo hid => l.of_well (he.ok hok id hlo hid)⟩
  · rename_i e m hra
    cases hr
    obtain ⟨ss, hs⟩ := hre.raised hra
    have hf : (m.trace.logUncaught e.kind.name e.message).frames
        = (m.trace.logException e.kind.name e.message).frames := Trace.keepException_frames _ _
    refine ⟨_, (hs.arena ha).moves (m.trace.moves_applyAll [.logUncaught e.kind.name e.message]),
      rfl, fun id hlo hid => ?_⟩
    have hid := Nat.lt_of_lt_of_eq hid (congrArg Array.size hf)
    exact l.later (he.raised hra _ _ id hlo hid) hid fun i _ _ => congrArg (·[i]?) hf
  · cases hr
    refine ⟨_, (Trace.Arena.start lim).moves ((Trace.start lim).moves_applyAll
      [.logUncaught ExceptionKind.internal.name "capacity overflow"]), rfl, fun id _ hid => ?_⟩
    -- nothing is left but the frame of the file
    obtain rfl : id = 0 := Nat.lt_one_iff.1 hid
    exact l.of_well (l.other rfl)
  · cases hr

end Playback
