import Playback.Proofs.Effects
import Playback.Proofs.Numbering

/-!
# Where code fails

The innermost call notes the line of each instruction that it comes to. `FailsAt` says, from the instructions alone,
which of them an exception came from, and the line that is noted then is that instruction's (`block_fails`), with one
exception. The condition of a loop, and the elements that it assigns, come up again without the loop's instruction:
after a round that ended with a `continue` the line is still that of the `continue`.
-/

namespace Playback

open Eval
open Lower (Plan Links emitAll iterationBody)

variable {is xs ys : List Instr}

/-! ## What happens to the lines of the calls that are going on -/

/-- The calls that are going on are on the lines that they were on. -/
def Machine.SameLines (m m' : Machine) : Prop :=
  m'.calls.map (·.line) = m.calls.map (·.line)

theorem Machine.SameVariables.sameLines {m m' : Machine} (h : m.SameVariables m') : m.SameLines m' := by
  rw [Machine.SameLines, h.calls]

theorem sameLines_alongside :
    Alongside (fun _ => True) fun x _ q => Affects (fun _ => True) Machine.SameLines x q :=
  Affects.alongside (.free (fun _ => rfl) fun h h' => h'.trans h) fun _ _ h _ => h.sameLines

theorem sameLines_assigns :
    AssignsOn (fun _ => True) (fun _ => True) fun x _ q => Affects (fun _ => True) Machine.SameLines x q where
  toEvaluates := sameLines_alongside.toEvaluates
  store name v _ _ := by
    refine .change fun {m} _ => ?_
    unfold Machine.SameLines Machine.setVariable
    split
    · rfl
    · rename_i c r hc
      rw [hc]
      rfl

section

variable {invoke : Invoke} (hi : invoke.KeepsVariables)

include hi

theorem Invoke.KeepsVariables.sameLines :
    Lockstep.Calls (fun _ => True) (fun x _ q => Affects (fun _ => True) Machine.SameLines x q) invoke invoke :=
  hi.calls fun h => h.sameLines

theorem eval_sameLines (e : Expr) : Affects (fun _ => True) Machine.SameLines (eval invoke e) (·.Holds fun _ => True) :=
  sameLines_assigns.eval hi.sameLines e (.inr sameLines_alongside)

variable {rounds : Nat} {m m' : Machine} {flow : Flow}

theorem exec_calls (hm : m.calls ≠ []) (h : exec invoke rounds i m = .ok flow m') : m'.calls ≠ [] :=
  (((staysWithin_lockstep).exec (hi.calls fun h => h.sameOutside) rounds i (fun _ _ => trivial)
    fun _ _ => trivial).ok trivial h hm).some

theorem execBlock_calls (hm : m.calls ≠ []) (h : execBlock invoke rounds is m = .ok flow m') : m'.calls ≠ [] :=
  (((staysWithin_lockstep).execBlock (hi.calls fun h => h.sameOutside) rounds is (fun _ _ => trivial)
    fun _ _ => trivial).ok trivial h hm).some

end

/-! ## Which instruction an exception came from -/

section

variable (invoke : Invoke) (rounds : Nat)

/-- Running a block ends with the `continue` on a line. -/
inductive ContinuesAt : List Instr → Machine → Nat → Machine → Prop
  | here (line : Nat) (rest : List Instr) (m : Machine) :
    ContinuesAt (.at line .continue_ :: rest) m line (m.setLine line)
  | next (hexec : Eval.exec invoke rounds i m = .ok .normal m1) (hrest : ContinuesAt rest m1 line m') :
    ContinuesAt (i :: rest) m line m'
  | branch (heval : Eval.eval invoke c (m.setLine start) = .ok v m1)
    (hblock : ContinuesAt (if m1.heap.truthy v then body else orelse) m1 line m') :
    ContinuesAt (.at start (.branch c body orelse) :: rest) m line m'

variable (fault : Fault) (ended : Machine)

mutual

/-- Running a block ends with an exception that comes from an instruction on line `n`: its own expression or assignment
raised it, or was calling out when it was raised. It may be that of a loop after a round that ended with a `continue`,
whose line is given then. -/
inductive FailsAt : List Instr → Machine → Nat → Option Nat → Prop
  | next (hexec : Eval.exec invoke rounds i m = .ok .normal m1) (hrest : FailsAt rest m1 n last) :
    FailsAt (i :: rest) m n last
  | own (hsimple : action.isSimple = true)
    (hraised : Eval.execAction invoke rounds action (m.setLine n) = .error (.raised fault) ended) :
    FailsAt (.at n action :: rest) m n none
  | condition (hraised : Eval.eval invoke c (m.setLine n) = .error (.raised fault) ended) :
    FailsAt (.at n (.branch c body orelse) :: rest) m n none
  | branch (heval : Eval.eval invoke c (m.setLine line) = .ok v m1)
    (hblock : FailsAt (if m1.heap.truthy v then body else orelse) m1 n last) :
    FailsAt (.at line (.branch c body orelse) :: rest) m n last
  | loop (hloop : LoopFailsAt line c body none (m.setLine line) n last) :
    FailsAt (.at line (.loop c body) :: rest) m n last
  | iterable (hraised : (do
        let v ← Eval.eval invoke e
        Eval.lift ((← get).heap.elements v)) (m.setLine n) = .error (.raised fault) ended) :
    FailsAt (.at n (.iterate t e body) :: rest) m n none
  | iterate (heval : Eval.eval invoke e (m.setLine line) = .ok v m1)
    (hes : m1.heap.elements v = .ok es) (hrounds : RoundsFailAt line (Eval.roundFrame? e) t body es none m1 n last) :
    FailsAt (.at line (.iterate t e body) :: rest) m n last

/-- The same of the rounds of a loop on a condition, where the round before may have ended with a `continue`. -/
inductive LoopFailsAt : Nat → Expr → List Instr → Option Nat → Machine → Nat → Option Nat → Prop
  | condition (hraised : Eval.eval invoke c m = .error (.raised fault) ended) :
    LoopFailsAt line c body before m line before
  | body (heval : Eval.eval invoke c m = .ok v m1) (hv : m1.heap.truthy v = true) (hbody : FailsAt body m1 n last) :
    LoopFailsAt line c body before m n last
  | again (heval : Eval.eval invoke c m = .ok v m1) (hv : m1.heap.truthy v = true)
    (hbody : Eval.execBlock invoke rounds body m1 = .ok .normal m2) (hrest : LoopFailsAt line c body none m2 n last) :
    LoopFailsAt line c body before m n last
  | continued (heval : Eval.eval invoke c m = .ok v m1) (hv : m1.heap.truthy v = true)
    (hbody : ContinuesAt invoke rounds body m1 there m2) (hrest : LoopFailsAt line c body (some there) m2 n last) :
    LoopFailsAt line c body before m n last

/-- The same of the rounds of a loop over elements. -/
inductive RoundsFailAt : Nat → Option (Trace.Kind × String) → Target → List Instr → Elements → Option Nat → Machine →
    Nat → Option Nat → Prop
  | element (hnext : es.next? = some (v, rest))
    (hraised : Eval.beginRound invoke frame t v m = .error (.raised fault) ended) :
    RoundsFailAt line frame t body es before m line before
  | body (hnext : es.next? = some (v, rest)) (hbegin : Eval.beginRound invoke frame t v m = .ok () m1)
    (hbody : FailsAt body m1 n last) :
    RoundsFailAt line frame t body es before m n last
  | again (hnext : es.next? = some (v, rest)) (hbegin : Eval.beginRound invoke frame t v m = .ok () m1)
    (hbody : Eval.execBlock invoke rounds body m1 = .ok .normal m2)
    (hrest : RoundsFailAt line frame t body rest none m2 n last) : RoundsFailAt line frame t body es before m n last
  | continued (hnext : es.next? = some (v, rest)) (hbegin : Eval.beginRound invoke frame t v m = .ok () m1)
    (hbody : ContinuesAt invoke rounds body m1 there m2)
    (hrest : RoundsFailAt line frame t body rest (some there) m2 n last) :
    RoundsFailAt line frame t body es before m n last

end

end

variable {body : List Instr}

/-! ## The line that is noted -/

def Machine.OnLine (m : Machine) (line : Nat) : Prop :=
  ∃ call rest, m.calls = call :: rest ∧ call.line = line

mutual

/-- An instruction that goes back to its line: if it is a loop, a round ends with an instruction on the loop's line. -/
def Instr.Homes : Instr → Prop
  | .at line action => action.Homes line

/-- What an instruction that goes back to its line does. -/
def Action.Homes (line : Nat) : Action → Prop
  | .branch _ body orelse => BlockHomes body ∧ BlockHomes orelse
  | .loop _ body | .iterate _ _ body => (∃ init, body = init ++ [.at line .endFrame]) ∧ BlockHomes body
  | _ => True

/-- All instructions of a block go back to their lines. -/
def BlockHomes : List Instr → Prop
  | [] => True
  | i :: rest => i.Homes ∧ BlockHomes rest

end

section

variable {m m' : Machine} {line : Nat}

theorem Machine.onLine_setLine (hm : m.calls ≠ []) (line : Nat) : (m.setLine line).OnLine line := by
  cases hc : m.calls with
  | nil => exact absurd hc hm
  | cons call rest =>
    refine ⟨{ call with line }, rest, ?_, rfl⟩
    simp only [Machine.setLine, hc]

theorem Machine.OnLine.some (h : m.OnLine line) : m.calls ≠ [] := by
  obtain ⟨c, r, hc, -⟩ := h
  rw [hc]
  exact List.cons_ne_nil _ _

theorem Machine.OnLine.same (h : m.OnLine line) (hs : m.SameLines m') : m'.OnLine line := by
  obtain ⟨c, r, hc, hl⟩ := h
  rw [Machine.SameLines, hc] at hs
  obtain ⟨c', r', hc', hl', -⟩ := List.map_eq_cons_iff.1 hs
  exact ⟨c', r', hc', hl'.trans hl⟩

end

/-- A failure left the innermost call on its own line, or on that of the `continue` that came last before it. -/
def Machine.Stopped (m : Machine) (fails : Nat → Option Nat → Prop) : Prop :=
  ∃ n last, fails n last ∧ m.OnLine (last.getD n)

theorem Machine.Stopped.mono {m : Machine} (h : m.Stopped fails)
    (hm : ∀ n z, fails n z → fails' n z) : m.Stopped fails' := by
  obtain ⟨n, z, hf, hl⟩ := h
  exact ⟨n, z, hm n z hf, hl⟩

variable {invoke : Invoke} {c : Expr} {m' : Machine}

theorem Eval.test_error (h : (do truthy (← eval invoke c)) m = .error halt m') : eval invoke c m = .error halt m' := by
  rcases bind_error h with h | ⟨v, _, -, h⟩
  · exact h
  · cases h

theorem Eval.test_ok (h : (do truthy (← eval invoke c)) m = .ok b m') :
    ∃ v, eval invoke c m = .ok v m' ∧ m'.heap.truthy v = b := by
  obtain ⟨v, _, he, h⟩ := bind_ok h
  cases h
  exact ⟨v, he, rfl⟩

section

variable {invoke : Invoke} (hi : invoke.KeepsVariables) {rounds : Nat} {m m' : Machine}

variable {x : Eval Flow} {flow : Flow}

theorem Eval.whileLoop_flow {c : Eval Bool} (n : Nat) (h : whileLoop c x n m = .ok .continue_ m') : False := by
  induction n generalizing m with
  | zero => cases h
  | succ n ih =>
    obtain ⟨b, _, -, h⟩ := bind_ok h
    cases b with
    | false => cases h
    | true =>
      obtain ⟨f, _, -, h⟩ := bind_ok h
      cases f with
      | normal | continue_ => exact ih h
      | break_ | return_ => cases h

theorem Eval.forLoop_flow (n : Nat) (h : forLoop f x n es m = .ok .continue_ m') : False := by
  induction n generalizing m es with
  | zero => cases h
  | succ n ih =>
    cases hn : es.next? with
    | none =>
      simp only [forLoop, hn] at h
      cases h
    | some _ =>
      simp only [forLoop, hn] at h
      obtain ⟨_, _, -, h⟩ := bind_ok h
      obtain ⟨f, _, -, h⟩ := bind_ok h
      cases f with
      | normal | continue_ => exact ih h
      | break_ | return_ => cases h

theorem Eval.simple_flow (hs : action.isSimple = true)
    (h : execAction invoke rounds action m = .ok .continue_ m') : action = .continue_ ∧ m' = m := by
  cases action with
  | continue_ =>
    cases h
    exact ⟨rfl, rfl⟩
  | break_ =>
    cases h
  | assign | fromImport =>
    obtain ⟨_, _, -, h⟩ := bind_ok h
    obtain ⟨_, _, -, h⟩ := bind_ok h
    cases h
  | branch | loop | iterate | define => cases hs
  | _ =>
    obtain ⟨_, _, -, h⟩ := bind_ok h
    cases h

include hi

mutual

theorem block_continues (is : List Instr) {m m' : Machine} (hm : m.calls ≠ [])
    (h : execBlock invoke rounds is m = .ok .continue_ m') :
    ∃ line, ContinuesAt invoke rounds is m line m' ∧ m'.OnLine line := by
  match is with
  | [] =>
    cases h
  | .at line action :: r =>
    obtain ⟨flow, _, he, h⟩ := bind_ok h
    cases flow with
    | normal =>
      have hs := exec_calls hi hm he
      obtain ⟨there, hr, hl⟩ := block_continues r hs h
      exact ⟨there, .next he hr, hl⟩
    | continue_ =>
      cases h
      exact action_continues action line r hm he
    | break_ | return_ => cases h

theorem action_continues (action : Action) (line : Nat) (r : List Instr) {m m' : Machine} (hm : m.calls ≠ [])
    (h : execAction invoke rounds action (m.setLine line) = .ok .continue_ m') :
    ∃ there, ContinuesAt invoke rounds (.at line action :: r) m there m' ∧ m'.OnLine there := by
  have hl := Machine.onLine_setLine hm line
  cases hs : action.isSimple with
  | true =>
    obtain ⟨rfl, rfl⟩ := simple_flow hs h
    exact ⟨line, .here line r m, hl⟩
  | false =>
    cases action with
    | branch c body orelse =>
      obtain ⟨v, m1, he, h⟩ := bind_ok h
      have hso := (hl.same ((eval_sameLines hi c).ok trivial he)).some
      change (if m1.heap.truthy v then execBlock invoke rounds body else execBlock invoke rounds orelse) m1 = _ at h
      cases ht : m1.heap.truthy v with
      | true =>
        rw [ht] at h
        obtain ⟨there, _, hth⟩ := block_continues body hso h
        exact ⟨there, .branch he (by rwa [ht]), hth⟩
      | false =>
        rw [ht] at h
        obtain ⟨there, _, hth⟩ := block_continues orelse hso h
        exact ⟨there, .branch he (by rwa [ht]), hth⟩
    | loop c body =>
      exact (whileLoop_flow _ h).elim
    | iterate t e body =>
      obtain ⟨v, m1, -, h⟩ := bind_ok h
      obtain ⟨_, _, -, h⟩ := bind_ok h
      obtain ⟨_, _, -, h⟩ := bind_ok h
      exact (forLoop_flow _ h).elim
    | define d =>
      obtain ⟨_, _, -, h⟩ := bind_ok h
      cases h
    | _ => cases hs

end

theorem simple_sameLines (hs : action.isSimple = true) :
    Affects (fun _ => True) Machine.SameLines (execAction invoke rounds action) (·.result.Holds fun _ => True) :=
  sameLines_assigns.simple sameLines_alongside hi.sameLines rounds hs fun _ _ => trivial

theorem beginRound_sameLines (f : Option (Trace.Kind × String)) (t : Target) (v : Value) :
    Affects (fun _ => True) Machine.SameLines (beginRound invoke f t v) fun _ => True :=
  sameLines_assigns.beginRound sameLines_alongside hi.sameLines f t (fun _ _ => trivial)
    (.any v)

theorem round_onLine (he : ∃ init, body = init ++ [.at line .endFrame])
    (hm : m.calls ≠ []) (h : execBlock invoke rounds body m = .ok .normal m') : m'.OnLine line := by
  obtain ⟨init, rfl⟩ := he
  rw [execBlock_append] at h
  obtain ⟨flow, _, hin, h⟩ := bind_ok h
  have hs := execBlock_calls hi hm hin
  cases flow with
  | normal =>
    obtain ⟨c, r, hc, hl⟩ := Machine.onLine_setLine hs line
    cases h
    exact ⟨c, r, hc, hl⟩
  | break_ | continue_ | return_ => cases h

section

variable {fault : Fault} {ended : Machine}

variable {line : Nat} {body : List Instr} {m : Machine}

section

variable (hen : ∃ init, body = init ++ [.at line .endFrame])
  (hbo : ∀ {m : Machine}, m.calls ≠ [] → execBlock invoke rounds body m = .error (.raised fault) ended →
    ended.Stopped (FailsAt invoke rounds fault ended body m)) (budget : Nat) (before : Option Nat)
  (hm : m.OnLine (before.getD line))

include hen hbo hm

theorem loop_fails {c : Expr} (h : whileLoop (do truthy (← eval invoke c)) (execBlock invoke rounds body) budget m
      = .error (.raised fault) ended) : ended.Stopped (LoopFailsAt invoke rounds fault ended line c body before m) := by
  induction budget generalizing before m with
  | zero => cases h
  | succ budget ih =>
    rcases bind_error h with h | ⟨b, _, hte, h⟩
    · have he := test_error h
      exact ⟨line, before, .condition he, hm.same ((eval_sameLines hi c).error trivial he)⟩
    obtain ⟨v, he, hv⟩ := test_ok hte
    have hm1 := hm.same ((eval_sameLines hi c).ok trivial he)
    cases b with
    | false => cases h
    | true =>
      rcases bind_error h with h | ⟨flow, _, hf, h⟩
      · exact (hbo hm1.some h).mono fun _ _ => .body he hv
      cases flow with
      | normal =>
        exact (ih none (round_onLine hi hen hm1.some hf) h).mono fun _ _ => .again he hv hf
      | continue_ =>
        obtain ⟨there, hc, ht⟩ := block_continues hi body hm1.some hf
        exact (ih (some there) ht h).mono fun _ _ => .continued he hv hc
      | break_ | return_ => cases h

theorem rounds_fail {frame : Option (Trace.Kind × String)} {t : Target}
    (h : forLoop (beginRound invoke frame t) (execBlock invoke rounds body) budget es m
      = .error (.raised fault) ended) :
    ended.Stopped (RoundsFailAt invoke rounds fault ended line frame t body es before m) := by
  induction budget generalizing es before m with
  | zero => cases h
  | succ budget ih =>
    cases hn : es.next? with
    | none =>
      simp only [forLoop, hn] at h
      cases h
    | some next =>
      obtain ⟨v, _⟩ := next
      simp only [forLoop, hn] at h
      rcases bind_error h with h | ⟨_, _, hb, h⟩
      · exact ⟨line, before, .element hn h, hm.same ((beginRound_sameLines hi frame t v).error trivial h)⟩
      have hm1 := hm.same ((beginRound_sameLines hi frame t v).ok trivial hb)
      rcases bind_error h with h | ⟨flow, _, hf, h⟩
      · exact (hbo hm1.some h).mono fun _ _ => .body hn hb
      cases flow with
      | normal =>
        exact (ih none (round_onLine hi hen hm1.some hf) h).mono fun _ _ => .again hn hb hf
      | continue_ =>
        obtain ⟨there, hc, ht⟩ := block_continues hi body hm1.some hf
        exact (ih (some there) ht h).mono fun _ _ => .continued hn hb hc
      | break_ | return_ => cases h

end

mutual

/-- **Code that goes back to its lines fails on the line that is noted**, but for loops after a `continue`. -/
theorem block_fails (is : List Instr) (his : BlockHomes is) {m : Machine} (hm : m.calls ≠ [])
    (h : execBlock invoke rounds is m = .error (.raised fault) ended) :
    ended.Stopped (FailsAt invoke rounds fault ended is m) := by
  match is with
  | [] =>
    cases h
  | .at line action :: r =>
    rcases bind_error h with he | ⟨flow, _, he, h⟩
    · exact action_fails action line his.1 r hm he
    cases flow with
    | normal =>
      exact (block_fails r his.2 (exec_calls hi hm he) h).mono fun _ _ => .next he
    | break_ | continue_ | return_ => cases h

/-- An exception leaves an action on a line of the code. -/
theorem action_fails (action : Action) (line : Nat) (ha : action.Homes line) (r : List Instr) {m : Machine}
    (hm : m.calls ≠ []) (h : execAction invoke rounds action (m.setLine line) = .error (.raised fault) ended) :
    ended.Stopped (FailsAt invoke rounds fault ended (.at line action :: r) m) := by
  have hl := Machine.onLine_setLine hm line
  cases hs : action.isSimple with
  | true =>
    exact ⟨line, none, .own hs h, hl.same ((simple_sameLines hi hs).error trivial h)⟩
  | false =>
    cases action with
    | branch c body orelse =>
      obtain ⟨hb, ho⟩ := ha
      rcases bind_error h with h | ⟨v, m1, he, h⟩
      · exact ⟨line, none, .condition h, hl.same ((eval_sameLines hi c).error trivial h)⟩
      have hm1 := hl.same ((eval_sameLines hi c).ok trivial he)
      change (if m1.heap.truthy v then execBlock invoke rounds body else execBlock invoke rounds orelse) m1 = _ at h
      cases ht : m1.heap.truthy v with
      | true =>
        rw [ht] at h
        exact (block_fails body hb hm1.some h).mono fun _ _ hf => .branch he (by rwa [ht])
      | false =>
        rw [ht] at h
        exact (block_fails orelse ho hm1.some h).mono fun _ _ hf => .branch he (by rwa [ht])
    | loop c body =>
      obtain ⟨hen, hb⟩ := ha
      exact (loop_fails hi hen (block_fails body hb) rounds none hl h).mono fun _ _ => .loop
    | iterate t e body =>
      obtain ⟨hen, hb⟩ := ha
      rcases bind_error h with h | ⟨v, m1, he, h⟩
      · exact ⟨line, none, .iterable (error_bind h), hl.same ((eval_sameLines hi e).error trivial h)⟩
      have hm1 := hl.same ((eval_sameLines hi e).ok trivial he)
      change (lift (m1.heap.elements v) >>= fun es => forLoop (beginRound invoke (roundFrame? e) t)
        (execBlock invoke rounds body) es.count es) m1 = _ at h
      cases hes : m1.heap.elements v with
      | error fault' =>
        have hr : (do
            let v ← eval invoke e
            lift ((← get).heap.elements v)) (m.setLine line) = .error (.raised fault') m1 := by
          rw [ok_bind he]
          exact congrArg (fun es => (lift es : Eval Elements) m1) hes
        rw [hes] at h
        cases h
        exact ⟨line, none, .iterable hr, hm1⟩
      | ok es =>
        rw [hes] at h
        exact (rounds_fail hi hen (block_fails body hb) _ none hm1 h).mono fun _ _ => .iterate he hes
    | define d =>
      rcases bind_error h with h | ⟨_, _, -, h⟩ <;> cases h
    | _ => cases hs

end

end

end

/-! ## Lowered code -/

theorem BlockHomes.append (hxs : BlockHomes xs) (hys : BlockHomes ys) : BlockHomes (xs ++ ys) := by
  induction xs with
  | nil => exact hys
  | cons i r ih => exact ⟨hxs.1, ih hxs.2⟩

theorem BlockHomes.iterationBody (h : BlockHomes body) : BlockHomes (iterationBody line body) :=
  ⟨trivial, h.append ⟨trivial, trivial⟩⟩

theorem iterationBody_ends (line : Nat) (body : List Instr) :
    ∃ init, iterationBody line body = init ++ [.at line .endFrame] :=
  ⟨.at line (.childSet "block") :: body, rfl⟩

mutual

theorem emit_homes (p : Plan) : BlockHomes (p.emit true) := by
  match p with
  | .skip => trivial
  | .conditional line c body ls =>
    have ho : BlockHomes
        (if ls.isDone then [] else .at line (.childSet "elseblocks") :: ls.emit true) := by
      split
      · trivial
      · exact ⟨trivial, links_home ls⟩
    exact ⟨⟨⟨trivial, emitAll_homes body⟩, ho⟩, trivial, trivial⟩
  | .whileLoop line c body =>
    exact ⟨trivial, ⟨iterationBody_ends line _, (emitAll_homes body).iterationBody⟩, trivial, trivial, trivial⟩
  | .forLoop line t e body =>
    exact ⟨trivial, ⟨iterationBody_ends line _, (emitAll_homes body).iterationBody⟩, trivial, trivial⟩
  | .eval _ _ | .assign _ _ _ | .define _ _ | .return_ _ _ => exact ⟨trivial, trivial⟩
  | .break_ _ | .continue_ _ => exact ⟨trivial, trivial, trivial⟩
  | .import_ _ _ | .fromImport _ _ _ => exact ⟨trivial, trivial, trivial, trivial⟩

theorem emitAll_homes (ps : List Plan) : BlockHomes (emitAll true ps) := by
  match ps with
  | [] => trivial
  | plan :: r => exact (emit_homes plan).append (emitAll_homes r)

theorem links_home (ls : Links) : BlockHomes (ls.emit true) := by
  match ls with
  | .done => trivial
  | .elif line c body r =>
    exact ⟨⟨(emitAll_homes body).iterationBody, trivial, links_home r⟩, trivial⟩
  | .else_ line body => exact ⟨trivial, (emitAll_homes body).append ⟨trivial, trivial⟩⟩

end

theorem HasBodies.homes (h : HasBodies p code) : BlockHomes code.traced := by
  obtain ⟨ps, -, hb⟩ := h.traced
  rw [hb]
  exact (emitAll_homes ps).append ⟨trivial, trivial⟩

end Playback
