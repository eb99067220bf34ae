import Playback.Proofs.Apart

/-!
# Output that no value takes

Output is pending until a value is recorded. What a file writes is recorded in the end, with two exceptions: what stands
in the brackets of a target is evaluated when the value assigned has been recorded already, and an iterable is recorded
only with its elements. A run that ends without an exception leaves nothing pending but such output
(`Script.leftover_output`), and it does leave such output (`output_of_target_left`).
-/

namespace Playback

open Eval List
open Lower (Place)
open Trace (Step texts)

/-! ## Expressions that record their value -/

/-- The expression that an action starts with, unless it is an iterable. -/
def Action.recorded? : Action → Option Expr
  | .eval e => some e
  | .assign _ e => some e
  | .branch c _ _ => some c
  | .loop c _ => some c
  | .return_ e => some e
  | _ => none

variable {m' : Machine}

theorem Eval.lift_ok {α : Type} {x : Except Fault α} {a : α} (h : lift x m = .ok a m') : x = .ok a ∧ m' = m := by
  cases x with
  | ok b =>
    cases h
    exact ⟨rfl, rfl⟩
  | error e => cases h

theorem pending_log (h : log k v m = .ok () m') : m'.trace.pending = #[] := by
  cases h
  rfl

/-- **Nothing is pending once a value is recorded.** -/
theorem Expr.Takes.pending {e : Expr} {m : Machine}
    (he : e.Takes) (h : eval g e m = .ok v m') : m'.trace.pending = #[] := by
  cases he with
  | log k e =>
    obtain ⟨v', m1, -, h⟩ := bind_ok h
    obtain ⟨_, m2, hl, h⟩ := bind_ok h
    cases h
    exact pending_log hl
  | logStart k _ e =>
    obtain ⟨v', m1, -, h⟩ := bind_ok h
    obtain ⟨_, m2, -, h⟩ := bind_ok h
    obtain ⟨_, _, hl, h⟩ := bind_ok h
    cases h
    exact pending_log hl
  | logEnd k _ e =>
    obtain ⟨v', m1, -, h⟩ := bind_ok h
    obtain ⟨_, m2, hl, h⟩ := bind_ok h
    cases h
    cases hl
    rfl

/-- **Traced code records every value that it evaluates**, but for iterables. -/
theorem Ready.takes {e : Expr} {action : Action} {m : Machine}
    (h : Ready q (.at l action :: is) m) (he : action.recorded? = some e) : e.Takes := by
  have hex := (Ready.first h).1
  cases action with
  | eval | branch | return_ => cases he; exact hex.2 rfl
  | assign =>
    cases he
    obtain ⟨-, _, -, rfl⟩ := hex
    exact .log _ _
  | loop =>
    cases he
    obtain ⟨⟨_, -, rfl⟩, -⟩ := hex
    exact .logStart _ _ _
  | _ => cases he

/-! ## Where output is left -/

section

variable (program : Program) (rounds : Nat) (limits : Limits) (mode : Mode) (input : List String)

/-- What a run may come to do in the file itself: as many calls may be nested as at its start. -/
abbrev FileReached (task : Task) (m : Machine) : Prop :=
  Reached program rounds limits mode input limits.recursion task m

/-- The output that the file writes where no value is recorded after it: when the target of an assignment or of a
loop is an item of something, or when a loop finds that it has no elements. -/
inductive Leftover : String → Prop where
  | target {c : Expr} {v : Value} {m m' : Machine} :
    FileReached program rounds limits mode input (.assign (.item c i) v) m →
    Eval.assign (Eval.invoke rounds limits.recursion) (.item c i) v m = .ok () m' →
    m.Performs steps m' → text ∈ texts steps → Leftover text
  | iterable {e : Expr} {v : Value} {m m' : Machine} :
    FileReached program rounds limits mode input (.block q true (.at line (.iterate t e bd) :: is)) m →
    Eval.eval (Eval.invoke rounds limits.recursion) e (m.setLine line) = .ok v m' →
    m'.heap.elements v = .ok es → es.count = 0 ∨ es.next? = none →
    (m.setLine line).Performs steps m' → text ∈ texts steps → Leftover text

end

/-- A program and what it is run with. -/
structure Setting where
  program : Program
  rounds : Nat
  limits : Limits
  mode : Mode
  input : List String

namespace Setting

abbrev Reached (r : Setting) : Task → Machine → Prop :=
  FileReached r.program r.rounds r.limits r.mode r.input

abbrev invoke (r : Setting) : Invoke :=
  Eval.invoke r.rounds r.limits.recursion

/-- All that is pending was written where no value is recorded after it. -/
def Tidy (r : Setting) (m : Machine) : Prop :=
  ∀ text ∈ m.trace.pending.toList, Leftover r.program r.rounds r.limits r.mode r.input text

end Setting

section

variable {r : Setting} {m' : Machine}

theorem Setting.Tidy.of_empty (h : m.trace.pending = #[]) : r.Tidy m := by
  unfold Tidy
  rw [h]
  exact forall_mem_nil _

theorem Setting.Tidy.of_eq (h : r.Tidy m) (hp : m'.trace.pending = m.trace.pending) : r.Tidy m' := by
  unfold Tidy
  rw [hp]
  exact h

theorem Setting.Tidy.performs (h : r.Tidy m) {ss : List Step} (hs : m.Performs ss m')
    (hn : ∀ t ∈ texts ss, Leftover r.program r.rounds r.limits r.mode r.input t) : r.Tidy m' := by
  intro t ht
  have hp := m.trace.pending_applyAll ss
  rw [← hs.trace] at hp
  have hm : t ∈ m.trace.pending.toList ++ texts ss := hp ▸ mem_append_right _ ht
  rcases mem_append.1 hm with hm | hm
  · exact h t hm
  · exact hn t hm

/-! ## Assignment -/

theorem Eval.assignAll_concat (hl : b.length = vs.length) (hb : assignAll g b vs m0 = .ok () m)
    (ha : assign g t w m = .ok () m') : assignAll g (b ++ [t]) (vs ++ [w]) m0 = .ok () m' := by
  induction b generalizing vs m0 with
  | nil =>
    obtain rfl := length_eq_zero_iff.1 hl.symm
    cases hb
    rw [nil_append, nil_append, assignAll, ok_bind ha]
    rfl
  | cons _ b ih =>
    cases vs with
    | nil => cases hl
    | cons v vs =>
      obtain ⟨_, _, hf, hr⟩ := bind_ok hb
      rw [cons_append, cons_append, assignAll, ok_bind hf]
      exact ih (Nat.succ.inj hl) hr

mutual

theorem tidy_assign (t : Target) {v : Value} {m m' : Machine}
    (hr : r.Reached (.assign t v) m) (hm : r.Tidy m) (h : assign r.invoke t v m = .ok () m') : r.Tidy m' := by
  match t with
  | .name x =>
    cases h
    exact hm.of_eq (by rw [Machine.trace_setVariable])
  | .item c i =>
    obtain ⟨_, hs⟩ := (Records.assign (invoke_records r.rounds r.limits.recursion) _ _).ok ⟨[], .refl m⟩ h
    exact hm.performs hs fun _ => .target hr h hs
  | .unpack ts =>
    change (lift (unpack m.heap v ts.length) >>= assignAll _ ts) m = .ok () m' at h
    obtain ⟨vs, m1, hu, hre⟩ := bind_ok h
    obtain ⟨hu, rfl⟩ := lift_ok hu
    have hn : assignAll r.invoke [] [] m1 = .ok () m1 := by
      rfl
    exact tidy_assignAll ts [] [] vs hr hu rfl hn hm hre

theorem tidy_assignAll (ts b : List Target) (vs ws : List Value) {v : Value} {m0 m m' : Machine}
    (hr : r.Reached (.assign (.unpack (b ++ ts)) v) m0)
    (hu : unpack m0.heap v (b ++ ts).length = .ok (vs ++ ws)) (hl : b.length = vs.length)
    (hb : assignAll r.invoke b vs m0 = .ok () m) (hm : r.Tidy m) (h : assignAll r.invoke ts ws m = .ok () m') :
    r.Tidy m' := by
  match ts, ws with
  | [], _ =>
    cases h
    exact hm
  | _ :: _, [] =>
    rw [assignAll] at h
    · cases h
      exact hm
    · exact nofun
  | t :: ts, w :: ws =>
    obtain ⟨_, _, ha, hre⟩ := bind_ok h
    have ht := tidy_assign t (hr.unpacked hu hb) hm ha
    rw [append_cons] at hr hu
    rw [append_cons vs] at hu
    refine tidy_assignAll ts (b ++ [t]) (vs ++ [w]) ws hr hu ?_ (assignAll_concat hl hb ha) ht hre
    rw [length_append, length_append, hl]
    rfl

end

/-! ## Loops -/

/-- The code of a block, run in the file where only leftovers are pending, leaves only leftovers pending. -/
def Setting.TidyBlock (r : Setting) (is : List Instr) : Prop :=
  ∀ ⦃q : Place⦄ ⦃flow : Flow⦄ ⦃m m' : Machine⦄, r.Reached (.block q true is) m → r.Tidy m →
    Eval.execBlock r.invoke r.rounds is m = .ok flow m' → r.Tidy m'

variable {flow : Flow}

theorem tidy_whileLoop (hc : c.Takes) (hb : r.TidyBlock bd) (n : Nat) (hr : r.Reached (.loop q true c bd) m)
    (h : whileLoop (do truthy (← eval r.invoke c)) (execBlock r.invoke r.rounds bd) n m = .ok flow m') : r.Tidy m' := by
  induction n generalizing m with
  | zero => cases h
  | succ n ih =>
    obtain ⟨b, _, hco, h⟩ := bind_ok h
    obtain ⟨v, m2, he, htu⟩ := bind_ok hco
    have ht : r.Tidy m2 := .of_empty (hc.pending he)
    cases htu
    split at h
    · rename_i htr
      obtain ⟨flow', _, hex, h⟩ := bind_ok h
      have ht' := hb (hr.round he htr) ht hex
      cases flow' with
      | break_ | return_ => cases h; exact ht'
      | normal | continue_ => exact ih (hr.again he htr hex rfl) h
    · cases h
      exact ht

theorem Eval.beginRound_ok (h : beginRound g f t v m = .ok () m') :
    ∃ m1, openRound f v m = .ok () m1 ∧ assign g t v m1 = .ok () m' := by
  cases f with
  | none => exact ⟨m, rfl, h⟩
  | some f =>
    obtain ⟨k, _⟩ := f
    obtain ⟨_, m1, hs, h⟩ := bind_ok h
    obtain ⟨_, m2, hl, h⟩ := bind_ok h
    exact ⟨m2, (ok_bind hs).trans hl, h⟩

theorem tidy_forLoop {f : Trace.Kind × String} {t : Target} (hbo : r.TidyBlock bd) (n : Nat) {es : Elements}
    (hr : r.Reached (.iterate q true (some f) t bd es) m) (hm : n = 0 ∨ es.next? = none → r.Tidy m)
    (h : forLoop (beginRound r.invoke (some f) t) (execBlock r.invoke r.rounds bd) n es m = .ok flow m') :
    r.Tidy m' := by
  induction n generalizing m es with
  | zero =>
    cases h
    exact hm (.inl rfl)
  | succ n ih =>
    cases hn : es.next? with
    | none =>
      simp only [forLoop, hn] at h
      cases h
      exact hm (.inr hn)
    | some next =>
      obtain ⟨v, rest⟩ := next
      simp only [forLoop, hn] at h
      obtain ⟨_, _, hb, h⟩ := bind_ok h
      obtain ⟨flow', _, he, h⟩ := bind_ok h
      obtain ⟨m0, ho, hai⟩ := beginRound_ok hb
      have hre : m0.trace.pending = #[] := by
        obtain ⟨_, _, -, hl⟩ := bind_ok ho
        exact pending_log hl
      have ha := tidy_assign t (hr.element hn ho) (.of_empty hre) hai
      have ht := hbo (hr.elementRound hn hb) ha he
      cases flow' with
      | break_ | return_ => cases h; exact ht
      | normal | continue_ => exact ih (hr.elementAgain hn hb he rfl) (fun _ => ht) h

/-! ## Instructions -/

theorem trace_loadModule (h : loadModule x m = .ok l m') : m'.trace = m.trace := by
  unfold loadModule at h
  cases hn : Library.ofName? x with
  | none =>
    rw [hn] at h
    cases h
  | some _ =>
    rw [hn] at h
    cases h
    rfl

theorem trace_importAll (h : importAll ns m = .ok u m') : m'.trace = m.trace := by
  induction ns generalizing m with
  | nil =>
    cases h
    rfl
  | cons x ns ih =>
    obtain ⟨l, m1, hl, h⟩ := bind_ok h
    obtain ⟨v, m2, hv, h⟩ := bind_ok h
    obtain ⟨_, _, hs, h⟩ := bind_ok h
    cases hv
    cases hs
    rw [ih h, Machine.trace_setVariable, ← trace_loadModule hl]

theorem trace_importNames {l : Library} (h : importNames l module ns m = .ok u m') : m'.trace = m.trace := by
  induction ns generalizing m with
  | nil =>
    cases h
    rfl
  | cons x ns ih =>
    unfold importNames at h
    cases hv : l.attribute? x with
    | none =>
      rw [hv] at h
      cases h
    | some v =>
      rw [hv] at h
      obtain ⟨_, _, hs, h⟩ := bind_ok h
      cases hs
      rw [ih h, Machine.trace_setVariable]

/-- What an instruction of the file does leaves only leftovers pending. -/
def Setting.TidyAction (r : Setting) (action : Action) : Prop :=
  ∀ ⦃q : Place⦄ ⦃line : Nat⦄ ⦃is : List Instr⦄ ⦃flow : Flow⦄ ⦃m m' : Machine⦄,
    r.Reached (.block q true (.at line action :: is)) m → r.Tidy m →
    Eval.execAction r.invoke r.rounds action (m.setLine line) = .ok flow m' → r.Tidy m'

variable {script : Script}

theorem pending_recorded (hc : script.compile = .ok r.program)
    (hr : r.Reached (.block q true (.at l action :: is)) m)
    (he : action.recorded? = some e) (h : eval g e (m.setLine l) = .ok v m') : m'.trace.pending = #[] :=
  (Ready.takes (hr.fine hc).fits he).pending h

theorem tidy_iterate (hc : script.compile = .ok r.program) (t : Target) (e : Expr)
    (hb : r.TidyBlock bd) : r.TidyAction (.iterate t e bd) := by
  intro q l _ flow m m' hr hm h
  obtain ⟨-, ⟨_, -, rfl⟩, -, -⟩ := (Ready.first (hr.fine hc).fits).1
  obtain ⟨v, m1, hev, h⟩ := bind_ok h
  change (lift (m1.heap.elements v) >>= fun es => _) m1 = .ok flow m' at h
  obtain ⟨es, _, he, hl⟩ := bind_ok h
  obtain ⟨he, rfl⟩ := lift_ok he
  refine tidy_forLoop hb _ (hr.iterate hev he) (fun hn => ?_) hl
  obtain ⟨_, hs⟩ := (Records.eval (invoke_records r.rounds r.limits.recursion) _).ok ⟨[], .refl _⟩ hev
  refine Setting.Tidy.performs (hm.of_eq (by rw [m.trace_setLine])) hs fun s ht => ?_
  exact .iterable hr hev he hn hs ht

mutual

theorem tidy_block (hc : script.compile = .ok r.program) (is : List Instr) : r.TidyBlock is := by
  intro q _ m _ hr hm h
  match is with
  | [] =>
    cases h
    exact hm
  | .at l action :: is =>
    obtain ⟨flow', m1, he, h⟩ := bind_ok h
    have hf : r.Tidy m1 := by
      exact tidy_action hc action hr hm he
    cases flow' with
    | normal => exact tidy_block hc is (hr.next he) hf h
    | break_ | continue_ | return_ => cases h; exact hf

/-- **One instruction of the file leaves only leftovers pending.** -/
theorem tidy_action (hco : script.compile = .ok r.program) (action : Action) : r.TidyAction action := by
  intro q ln _ _ m _ hr hm h
  have hl : r.Tidy (m.setLine ln) := hm.of_eq (by rw [m.trace_setLine])
  match action with
  | .eval _ | .return_ _ =>
    obtain ⟨v, m1, he, h⟩ := bind_ok h
    cases h
    exact .of_empty (pending_recorded hco hr rfl he)
  | .assign t e =>
    obtain ⟨v, m1, he, h⟩ := bind_ok h
    obtain ⟨_, m2, ha, h⟩ := bind_ok h
    cases h
    exact tidy_assign t (hr.target he) (.of_empty (pending_recorded hco hr rfl he)) ha
  | .branch c bd orelse =>
    obtain ⟨v, m1, he, h⟩ := bind_ok h
    obtain ⟨b, m2, htr, h⟩ := bind_ok h
    cases htr
    have ht : r.Tidy m1 := .of_empty (pending_recorded hco hr rfl he)
    have hb := hr.branch he
    split at h
    · rename_i htu
      rw [if_pos htu] at hb
      exact tidy_block hco bd hb ht h
    · rename_i hf
      rw [if_neg hf] at hb
      exact tidy_block hco orelse hb ht h
  | .loop c bd =>
    have hc := Ready.takes (hr.fine hco).fits (rfl : (Action.loop c bd).recorded? = some c)
    exact tidy_whileLoop hc (tidy_block hco bd) r.rounds hr.loop h
  | .iterate t e bd => exact tidy_iterate hco t e (tidy_block hco bd) hr hm h
  | .define d =>
    cases h
    exact hl.of_eq (by rw [Machine.trace_setVariable])
  | .break_ | .continue_ | .childSet _ | .endLoop =>
    cases h
    exact hl
  | .import_ modules =>
    obtain ⟨_, m1, hi, h⟩ := bind_ok h
    cases h
    exact hl.of_eq (by rw [trace_importAll hi])
  | .fromImport module ns =>
    obtain ⟨l, m1, hlo, h⟩ := bind_ok h
    obtain ⟨_, m2, hi, h⟩ := bind_ok h
    cases h
    exact hl.of_eq (by rw [trace_importNames hi, trace_loadModule hlo])
  | .startFrame k _ =>
    obtain ⟨_, m1, hs, h⟩ := bind_ok h
    cases h
    rw [startFrame_eq] at hs
    split at hs
    · cases hs
    · cases hs
      exact hl
  | .endFrame =>
    cases h
    exact hl.of_eq (Trace.pending_endFrame _)

end

/-- **What a run without an exception leaves out of its record.** Every text that was written stands in the record
once, but for those that are pending in the end, which are the last ones that were written; and these were written
by the brackets of a target or by an iterable without elements, in the file itself. -/
theorem Script.leftover_output {program : Program} (hcompile : script.compile = .ok program) (rounds : Nat)
    (limits : Limits) (mode : Mode) (input : List String) {flow : Flow}
    (hrun : Eval.execBlock (Eval.invoke rounds limits.recursion) rounds program.body
      (Machine.ready limits mode input) = .ok flow m') :
    program.run rounds limits mode input = some m'.execution ∧ ∃ steps, m'.execution.output = String.join (texts steps)
        ∧ (texts steps).Perm (m'.execution.record.notes.flatMap Trace.EntryRecord.output ++ m'.trace.pending.toList)
        ∧ m'.trace.pending.toList <:+ texts steps
        ∧ ∀ text ∈ m'.trace.pending.toList, Leftover program rounds limits mode input text := by
  let r : Setting := ⟨program, rounds, limits, mode, input⟩
  have hready : r.Tidy (Machine.ready limits mode input) := by
    obtain ⟨-, -, htrace, -⟩ := Machine.sound_ready (p := fun _ => True) limits mode input
    exact .of_empty (by rw [htrace]; rfl)
  obtain ⟨steps, hsteps⟩ :=
    (Records.execBlock (invoke_records rounds limits.recursion) rounds program.body).ok ⟨[], .refl _⟩ hrun
  obtain ⟨htrace, houtput⟩ := hsteps.hasHistory
  have hpending : texts steps = _ := (Trace.start limits).pending_applyAll steps
  rw [← htrace] at hpending
  refine ⟨?_, steps, houtput, ?_, ?_, tidy_block (r := r) hcompile program.body .start hready hrun⟩
  · unfold Program.run
    dsimp only
    rw [hrun]
  · have hnotes := (Trace.notes_applyAll limits steps).flatMap_right Trace.EntryRecord.output
    rw [List.flatMap_map, ← htrace, List.flatMap_congr fun entry _ => Trace.output_entryRecord _ entry] at hnotes
    rw [hpending]
    exact (hnotes.symm.append_right _)
  · rw [hpending]
    exact List.suffix_append _ _

end

/-- A loop over an iterable that writes a letter and has no elements. -/
def emptyLoop : Script :=
  [.forLoop [.name "c"] [.call "print" [.positional [.string "a"]], .operator "or", .list []] []]

def emptyLoopCode : Program :=
  emptyLoop.code

/-- The letter of `emptyLoop` is left. -/
theorem leftover_output_emptyLoop : ∃ m', emptyLoop.compile = .ok emptyLoopCode
    ∧ Eval.execBlock (Eval.invoke 1 1) 1 emptyLoopCode.body (Machine.ready { recursion := 1 } .command [])
      = .ok .normal m' ∧ m'.trace.pending = #["a", "\n"]
    ∧ ∀ text ∈ ["a", "\n"], Leftover emptyLoopCode 1 { recursion := 1 } .command [] text := by
  have hcompile : emptyLoop.compile = .ok emptyLoopCode := rfl
  have hrun : execBlock (Eval.invoke 1 1) 1 emptyLoopCode.body
      (Machine.ready { recursion := 1 } .command []) = .ok .normal _ := rfl
  obtain ⟨-, _, -, -, -, hleft⟩ := Script.leftover_output hcompile 1 { recursion := 1 } .command [] hrun
  exact ⟨_, hcompile, hrun, rfl, hleft⟩

/-- A dictionary and an assignment to an item of it whose key writes a letter. -/
def writingKey : Script :=
  [.assignment [.name "d"] [.dict []],
    .assignment [.subscript (.name "d") [.call "print" [.positional [.string "a"]]]] [.none]]

/-- **A run without an exception can leave output out of its record**: the letter that the key of `writingKey` writes
stands in no entry. -/
theorem output_of_target_left : ∃ program execution, writingKey.compile = .ok program
    ∧ program.run 1 {} .command [] = some execution ∧ execution.record.lastException = none
    ∧ execution.output = "a\n" ∧ execution.record.notes.flatMap Trace.EntryRecord.output = [] :=
  ⟨_, _, rfl, rfl, rfl, rfl, rfl⟩

end Playback
