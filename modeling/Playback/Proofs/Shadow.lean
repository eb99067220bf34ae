import Playback.Proofs.Mirror

/-!
# Code side by side

The code of a plan with a trace does what its code without a trace does, and reports besides. Two runs of the
code of one plan, each with a trace or without, are followed instruction by instruction: they end in the same
way, in states that differ only in the trace (`Shadows`). How each of them leaves the open frames is known
already of the run alone, and only where code goes on after other code is that used.
-/

namespace Playback

open Eval List
open Lower (Plan Links Place FitAll emitAll codesAll)
open Trace (Pins Aligned Kind)

variable {d a : Bool → List Instr} {c : Expr}

/-! ## One shape for code with and without a trace -/

namespace Lower

def extra (tr : Bool) (is : List Instr) : List Instr :=
  if tr then is else []

/-- A condition, which opens a frame in traced code. -/
def condition (tr : Bool) (kd : Trace.Kind) (e : Expr) : Expr :=
  if tr then .logStart kd "condition" e else e

/-- An iterable, whose elements open frames in traced code. -/
def iterable (tr : Bool) (e : Expr) : Expr :=
  if tr then .each .forIteration "iterable" e else e

/-- The code of a round, which closes its frame in traced code. -/
def round (tr : Bool) (l : Nat) (is : List Instr) : List Instr :=
  extra tr [.at l (.childSet "block")] ++ (is ++ extra tr [.at l .endFrame])

variable (tr : Bool) (l : Nat)

theorem emit_conditional (c : Expr) (b : List Plan) (ls : Links) :
    Plan.emit tr (.conditional l c b ls) = .at l (.branch (condition tr .if_ c)
          (extra tr [.at l (.childSet "trueblock")] ++ emitAll tr b)
          (if ls.isDone then []
            else extra tr [.at l (.childSet "elseblocks")] ++ ls.emit tr))
        :: extra tr [.at l .endFrame] := by
  cases tr with
  | true => simp [Plan.emit, condition, extra]
  | false => cases ls <;> simp [Plan.emit, condition, extra, Links.isDone, Links.emit]

theorem emit_whileLoop (c : Expr) (b : List Plan) : Plan.emit tr (.whileLoop l c b)
      = extra tr [.at l (.startFrame .whileLoop "frames")]
        ++ .at l (.loop (condition tr .whileIteration c) (round tr l (emitAll tr b)))
        :: (extra tr [.at l .endLoop] ++ extra tr [.at l .endFrame]) := by
  cases tr <;> simp [Plan.emit, condition, extra, round, iterationBody]

theorem emit_forLoop (t : Target) (e : Expr) (b : List Plan) : Plan.emit tr (.forLoop l t e b)
      = extra tr [.at l (.startFrame .forLoop "frames")]
        ++ .at l (.iterate t (iterable tr e) (round tr l (emitAll tr b)))
        :: extra tr [.at l .endFrame] := by
  cases tr <;> simp [Plan.emit, iterable, extra, round, iterationBody]

theorem framed_eq (kd : Kind) (action : Action) : framed tr kd l action = extra tr [.at l (.startFrame kd "import")]
        ++ ([.at l action] ++ extra tr [.at l .endFrame]) := by
  cases tr <;> simp [framed, extra]

theorem emit_elif (c : Expr) (b : List Plan) (r : Links) : Links.emit tr (.elif l c b r)
      = [.at l (.branch (condition tr .elif c) (round tr l (emitAll tr b))
          (extra tr [.at l .endFrame] ++ r.emit tr))] := by
  cases tr <;> simp [Links.emit, condition, extra, round, iterationBody]

theorem emit_else (b : List Plan) : Links.emit tr (.else_ l b) = extra tr [.at l (.startFrame .else_ "block")]
        ++ (emitAll tr b ++ extra tr [.at l .endFrame]) := by
  cases tr <;> simp [Links.emit, extra]

end Lower

open Lower (extra)

/-! ## Rules for both runs -/

namespace Both

variable {x x' : Eval Flow} {m m' : Machine} {r : Flow → Machine → Machine → Prop}
  {e : Fault → Machine → Machine → Prop}

theorem andThen (hx : Both x x' m m' q e) (hy : ∀ n n', q .normal n n' → Both y y' n n' r e)
    (hl : ∀ f n n', f ≠ .normal → q f n n' → r f n n') : Both (andThen x y) (andThen x' y') m m' r e := by
  refine hx.bind fun f n n' h => ?_
  cases f with
  | normal => exact hy n n' h
  | break_ | continue_ | return_ => exact .pure (hl _ n n' nofun h)

variable {i j : Machine → Machine → Prop}

/-- Two loops on a condition: `i` holds before each condition, `j` before each round of the bodies. -/
theorem whileLoop {c c' : Eval Bool} (hc : ∀ m m', i m m' →
      Both c c' m m' (fun b n n' => if b then j n n' else r .normal n n') e)
    (hbo : ∀ m m', j m m' → Both x x' m m' (fun f n n' => f.AfterRound (i n n') (r · n n')) e)
    (rounds : Nat) (hm : i m m') : Both (whileLoop c x rounds) (whileLoop c' x' rounds) m m' r e := by
  induction rounds generalizing m m' with
  | zero => exact .exhausted m m'
  | succ rounds ih =>
    refine (hc m m' hm).bind fun b n n' hb => ?_
    cases b with
    | false => exact .pure hb
    | true =>
      refine (hbo n n' hb).bind fun f k _ h => ?_
      cases f with
      | normal | continue_ => exact ih h
      | break_ | return_ => exact .pure h

/-- Two loops over elements: `i` holds before each element is taken in, `j` before each round of the
bodies. -/
theorem forLoop (hb : ∀ m m' v, i m m' → v.Holds p → Both (begin_ v) (begin' v) m m' (fun _ => j) e)
    (hbo : ∀ m m', j m m' → Both x x' m m' (fun f n n' => f.AfterRound (i n n') (r · n n')) e)
    (he : ∀ m m', i m m' → r .normal m m') (b : Nat) (hes : es.Holds p) (hm : i m m') :
    Both (forLoop begin_ x b es) (forLoop begin' x' b es) m m' r e := by
  induction b generalizing es m m' with
  | zero => exact .pure (he m m' hm)
  | succ b ih =>
    unfold forLoop
    split
    · exact .pure (he m m' hm)
    · rename_i v rs hne
      obtain ⟨hv, hr⟩ := hes.next? hne
      refine (hb m m' v hm hv).bind fun _ n n' hn => (hbo n n' hn).bind fun f k _ h => ?_
      cases f with
      | normal | continue_ => exact ih hr h
      | break_ | return_ => exact .pure h

end Both

section

variable {cp : Nat × Nat} {on : Bool × Bool} {pins pins' : Pins} {kd : Kind} {m m' n n' : Machine} {g : Invoke}
  {rounds : Nat}

/-! ## Instructions that report -/

variable {action : Action} {e : Fault → Machine → Machine → Prop}

theorem Eval.execBlock_extra (tr : Bool) (l : Nat)
    (ha : execAction g rounds action = x >>= fun _ => return .normal) (is : List Instr) :
    execBlock g rounds (extra tr [.at l action] ++ is) = when tr (modify (·.setLine l)) >>= fun _ =>
        when tr x >>= fun _ => execBlock g rounds is := by
  cases tr with
  | true =>
    change execBlock g rounds (.at l action :: is) = _
    rw [execBlock, exec, ha]
    simp [when]
  | false => rfl

/-- A run that is traced reaches a line, does something there and goes on. -/
theorem Beside.onTraced (h : Beside cp on pins m m' n n') (l : Nat)
    (ha : execAction g rounds action = x >>= fun _ => return .normal)
    (hx : ∀ k k', Beside cp on pins m m' k k' → Both (when on.1 x) (when on.2 x) k k' r e)
    (his : ∀ k k', r () k k' → Both (execBlock g rounds is) (execBlock g rounds is') k k' q e) :
    Both (execBlock g rounds (extra on.1 [.at l action] ++ is))
      (execBlock g rounds (extra on.2 [.at l action] ++ is')) n n' q e := by
  have hr : Both (when on.1 (modify (·.setLine l))) (when on.2 (modify (·.setLine l))) n n'
      (fun _ => Beside cp on pins m m') e := by
    match on, h with
    | (true, true), h => exact .of_ok rfl rfl (h.setLine l)
    | (false, true), h =>
      exact .of_ok rfl rfl (h.of_level (h.twins.setLine_right l) (.refl h.sound) (.setLine h.sound' l))
    | (false, false), h => exact .of_ok rfl rfl h
    | (true, false), h => exact h.aligned.elim
  rw [execBlock_extra on.1 l ha, execBlock_extra on.2 l ha]
  exact hr.bind fun _ k k' h1 => (hx k k' h1).bind fun _ => his

theorem Beside.startFrame (h : Beside cp on pins m m' n n') (l : Nat) (kd : Kind) (set : String)
    (his : ∀ pins' k k', pins.Sub pins' → Opened cp on pins' kd m m' k k' →
      Both (execBlock g rounds is) (execBlock g rounds is') k k' q e) :
    Both (execBlock g rounds (extra on.1 [.at l (.startFrame kd set)] ++ is))
      (execBlock g rounds (extra on.2 [.at l (.startFrame kd set)] ++ is')) n n' q e := by
  refine h.onTraced l (by rw [execAction]) (fun _ _ h1 => h1.open kd set) ?_
  exact fun k k' ⟨pins', hs, ho⟩ => his pins' k k' hs ho

theorem Machine.Twins.close (h : n.Twins cp pins none n') (on : Bool × Bool) (l : Nat)
    (hf : ∀ t : Trace, t.Same (f t)) (ha : execAction g rounds action = onTrace f >>= fun _ => return .normal) :
    Both (execBlock g rounds (extra on.1 [.at l action])) (execBlock g rounds (extra on.2 [.at l action])) n n'
      (fun _ k k' => k.Twins cp pins none k') e := by
  let closed (b : Bool) (k : Machine) : Machine :=
    if b then { k.setLine l with trace := f (k.setLine l).trace } else k
  have hr : ∀ (b : Bool) (k : Machine),
      execBlock g rounds (extra b [.at l action]) k = .ok .normal (closed b k) := by
    intro b k
    rw [← append_nil (extra b _), execBlock_extra b l ha]
    cases b <;> rfl
  obtain ⟨tr, tr'⟩ := on
  have hl : (closed tr n).Twins cp pins none n' := by
    cases tr with
    | true => exact (h.setLine_left l).same (hf _) (.refl _)
    | false => exact h
  have hri : (closed tr n).Twins cp pins none (closed tr' n') := by
    cases tr' with
    | true => exact (hl.setLine_right l).same (.refl _) (hf _)
    | false => exact hl
  exact .of_ok (hr tr n) (hr tr' n') hri

theorem Machine.Twins.endFrame (h : n.Twins cp pins none n') (on : Bool × Bool) (l : Nat) :
    Both (execBlock g rounds (extra on.1 [.at l .endFrame])) (execBlock g rounds (extra on.2 [.at l .endFrame])) n n'
      (fun _ k k' => k.Twins cp pins none k') e :=
  h.close on l Trace.same_endFrame (by rw [execAction])

theorem Machine.Twins.endLoop (h : n.Twins cp pins none n') (on : Bool × Bool) (l : Nat) :
    Both (execBlock g rounds (extra on.1 [.at l .endLoop])) (execBlock g rounds (extra on.2 [.at l .endLoop])) n n'
      (fun _ k k' => k.Twins cp pins none k') e :=
  h.close on l Trace.same_endLoop (by rw [execAction])

/-! ## Code in both runs -/

/-- A computation that ends normally leaves the open frames as they were. -/
def Remains (p : FunctionCode → Prop) (x : Eval Flow) : Prop :=
  ∀ m, m.Sound p → Ends x m (fun flow m' => flow = .normal → m.Level p m') fun _ => True

variable {p : FunctionCode → Prop} {pl : Place}

theorem plan_remains (hi : g.Settles p) (rounds : Nat) {q : Plan} (hf : q.Fits p pl)
    (tr : Bool) : Remains p (execBlock g rounds (q.emit tr)) := by
  cases tr with
  | true =>
    refine fun m hm => (plan_obeys hi rounds hf m hm).mono ?_ fun _ _ => trivial
    rintro _ _ hl rfl
    exact ⟨hl.later, hl.stack⟩
  | false =>
    exact fun m hm => (plan_stays hi rounds hf m hm).mono (fun _ _ h _ => h.2) fun _ _ => trivial

/-- Where the same is done in both runs, what was recorded stays matched as pinned. -/
abbrev Shadow (cp : Nat × Nat) (on : Bool × Bool) (pins : Pins) (x x' : Eval Flow) (m m' : Machine) : Prop :=
  Both x x' m m' (fun _ n n' => n.Twins cp pins none n') (Raises cp on pins)

theorem Shadow.sub (h : Shadow cp on pins' x x' n n') (hs : pins.Sub pins') : Shadow cp on pins x x' n n' :=
  h.mono (fun _ _ _ h' => h'.sub hs) fun _ _ _ h' => h'.sub hs

/-- Computations, traced and not, do the same in two runs and report to frames that are matched, whichever of the runs
are traced. -/
def Shadows (cp : Nat × Nat) (x : Bool → Eval Flow) : Prop :=
  ∀ ⦃on : Bool × Bool⦄ ⦃pins : Pins⦄ ⦃m m' : Machine⦄, Beside cp on pins m m' m m' →
    Shadow cp on pins (x on.1) (x on.2) m m'

namespace Shadows

variable {d : Bool → List Instr}

theorem beside (hx : Shadows cp x) (h : Beside cp on pins m m' n n') : Shadow cp on pins (x on.1) (x on.2) n n' :=
  hx h.here

theorem opened (hx : Shadows cp x) (hs : pins.Sub pins') (h : Opened cp on pins' kd m m' n n') :
    Shadow cp on pins (x on.1) (x on.2) n n' :=
  (hx h.here).sub hs

theorem nil : Shadows cp fun _ => execBlock g rounds [] := by
  intro _ _ m _ h
  exact .pure h.twins

theorem andThen (hx : Shadows cp x) (hr : ∀ b, Remains Planned (x b)) (hy : Shadows cp y) :
    Shadows cp fun b => andThen (x b) (y b) := by
  intro on _ m m' h
  refine ((hx h).also (hr on.1 m h.sound) (hr on.2 m' h.sound')).andThen ?_ fun _ _ _ _ h' => h'.1
  rintro n _ ⟨ht, hl, hl'⟩
  exact hy.beside (h.of_level ht (hl rfl) (hl' rfl))

theorem normal {α : Type} {z : Eval α} {q : α → Prop} (hz : Mirrors cp z q) (f : α → Flow) :
    Shadows cp fun _ => z >>= fun a => return f a :=
  fun _ _ _ _ h => (hz.beside h).bind fun _ _ _ h' => .pure h'.2.twins

theorem single {action : Bool → Action} (h : Shadows cp fun b => execAction g rounds (action b))
    (l : Nat) : Shadows cp fun b => execBlock g rounds [.at l (action b)] := by
  simp only [execBlock_single]
  exact fun _ _ _ _ hm => h.beside (hm.setLine l)

section

variable (h : Shadows cp fun b => execBlock g rounds (d b)) (l : Nat)

include h

theorem childSet (set : String) : Shadows cp fun b => execBlock g rounds (extra b [.at l (.childSet set)] ++ d b) :=
  fun _ _ _ _ hm => hm.onTraced l (by rw [execAction]) (fun _ _ h1 => h1.turn set) fun _ _ h2 => h.beside h2

theorem endFrame : Shadows cp fun b => execBlock g rounds (d b ++ extra b [.at l .endFrame]) := by
  simp only [execBlock_append]
  intro on _ m _ hm
  exact (h hm).andThen (fun _ _ h1 => h1.endFrame on l) fun _ _ _ _ h1 => h1

theorem startFrame (kd : Kind) (set : String) :
    Shadows cp fun b => execBlock g rounds (extra b [.at l (.startFrame kd set)] ++ d b) :=
  fun _ _ _ _ hm => hm.startFrame l kd set fun _ _ _ hs ho => h.opened hs ho

theorem round : Shadows cp fun b => execBlock g rounds (Lower.round b l (d b)) :=
  (h.endFrame l).childSet l "block"

end

end Shadows

/-! ## Conditions -/

theorem Begun.endFrame (hm : m.Sound p) (h : Begun p tr kd m n) (l : Nat) :
    Ends (execBlock g rounds (extra tr [.at l .endFrame])) n (fun _ k => m.Level p k) fun _ => True := by
  cases tr with
  | true =>
    change Ends (execBlock g rounds [.at l .endFrame]) _ _ _
    rw [execBlock_single]
    exact (endFrame_ends rounds l hm h).mono (fun _ _ h' => h'.2) fun _ _ => trivial
  | false =>
    exact h

theorem Shadows.afterFrame (h : Shadows cp fun b => execBlock g rounds (d b))
    (l : Nat) (hs : pins.Sub pins') (hm : Beside cp on pins m m' m m') (ho : Opened cp on pins' kd m m' n n') :
    Shadow cp on pins (execBlock g rounds (extra on.1 [.at l .endFrame] ++ d on.1))
      (execBlock g rounds (extra on.2 [.at l .endFrame] ++ d on.2)) n n' := by
  rw [execBlock_append, execBlock_append]
  refine ((ho.twins.endFrame on l).also (ho.begun.endFrame hm.sound l) (ho.begun'.endFrame hm.sound' l)).andThen ?_ ?_
  · rintro k k' ⟨ht, hl, hl'⟩
    exact h.beside (hm.of_level (ht.sub hs) hl hl')
  · exact fun _ _ _ _ h1 => h1.1.sub hs

section

variable (hi : g.Mirrors cp)

include hi

theorem condition_both (hc : c.Plain) (h : Beside cp on pins m m' n n') (kd : Kind) :
    Both (eval g (Lower.condition on.1 kd c) >>= truthy) (eval g (Lower.condition on.2 kd c) >>= truthy) n n'
      (fun _ k k' => ∃ pins' : Pins, pins.Sub pins' ∧ Opened cp on pins' kd m m' k k') (Raises cp on pins) := by
  have he : ∀ b, eval g (Lower.condition b kd c) >>= truthy
      = eval g c >>= fun v => when b (startFrame kd "condition") >>= fun _ =>
        when b (log none v) >>= fun _ => truthy v := by
    intro b
    cases b with
    | true =>
      change eval g (.logStart kd "condition" c) >>= truthy = _
      rw [eval]
      simp [when]
    | false => rfl
  have ha := mirrors_assigns cp
  rw [he, he]
  refine ((ha.eval hi.mirrors c (.inl hc)).beside h).bind fun v k k' h1 => ?_
  refine (h1.2.open kd "condition").bind fun _ k k' h2 => ?_
  obtain ⟨pins', hs, ho⟩ := h2
  refine (ho.here.log none v).bind fun _ k k' h3 => ?_
  refine ((ha.truthy v).beside h3).mono ?_ fun _ _ _ h4 => h4.sub hs
  exact fun _ _ _ h4 => ⟨pins', hs, ho.beside h4.2⟩

theorem branch_both (hc : c.Plain) (h : Beside cp on pins m m' m m') (l : Nat) (kd : Kind)
    (hbo : ∀ pins' n n', pins.Sub pins' → Opened cp on pins' kd m m' n n' →
      Both (execBlock g rounds bd) (execBlock g rounds bd') n n' q (Raises cp on pins))
    (hor : ∀ pins' n n', pins.Sub pins' → Opened cp on pins' kd m m' n n' →
      Both (execBlock g rounds orelse) (execBlock g rounds orelse') n n' q (Raises cp on pins)) :
    Both (exec g rounds (.at l (.branch (Lower.condition on.1 kd c) bd orelse)))
      (exec g rounds (.at l (.branch (Lower.condition on.2 kd c) bd' orelse'))) m m' q (Raises cp on pins) := by
  have he : ∀ b is js, exec g rounds (.at l (.branch (Lower.condition b kd c) is js))
      = modify (·.setLine l) >>= fun _ =>
        (eval g (Lower.condition b kd c) >>= truthy) >>= fun holds =>
          if holds then execBlock g rounds is else execBlock g rounds js := by
    intro b is js
    rw [exec, execAction]
    simp only [bind_assoc]
  rw [he, he]
  refine (condition_both hi hc (h.setLine l) kd).bind fun holds n n' h1 => ?_
  obtain ⟨pins', hs, ho⟩ := h1
  cases holds with
  | true => exact hbo pins' n n' hs ho
  | false => exact hor pins' n n' hs ho

end

/-! ## Loops -/

variable {ps : List Plan} {loop iteration : Kind}

/-- A round that closes itself leaves the frames of the loop, which was opened in `m`, where a run is
traced. -/
theorem round_ends (hi : g.Settles p) (rounds l : Nat) (hfi : FitAll p { pl with inLoop := true } ps)
    (hlo : loop.isLoop = true) (hie : iteration.isInner = true) (hm : m.Sound p)
    (hb : Begun p tr loop m n) (hl : n.Level p k)
    (hr : Begun p tr iteration k k1) : Ends (execBlock g rounds (Lower.round tr l (emitAll tr ps))) k1
      (fun f k2 => f.AfterRound (n.Level p k2) fun _ => True) fun _ => True := by
  cases tr with
  | true =>
    have ho := plans_obey hi rounds hfi
    refine (Closes.iterationBody rounds l iteration hie ho k k1 hl.later.sound
      hr).mono (fun f k2 hle => ?_) fun _ _ => trivial
    exact (hle.afterRound hm hb hlo (Kind.ne_call_of_isLoop hlo) hl).mono id fun _ _ => trivial
  | false =>
    have hin : n.Level p k1 := hl.trans hr
    have hs := plans_stay hi rounds hfi
    change Ends (execBlock g rounds (emitAll false ps ++ [])) _ _ _
    rw [append_nil]
    refine (hs k1 hin.later.sound).mono (fun f k2 h => ?_) fun _ _ => trivial
    have ha : n.Level p k2 := hin.trans h.2
    cases f with
    | normal | continue_ => exact ha
    | break_ | return_ => trivial

/-- States inside a round of a loop whose frame is open in `n` and `n'`. -/
def InRound (cp : Nat × Nat) (on : Bool × Bool) (pins : Pins) (iteration : Trace.Kind) (n n' k k' : Machine) : Prop :=
  ∃ (j j' : Machine) (pins' : Pins), Beside cp on pins n n' j j' ∧ pins.Sub pins'
    ∧ Opened cp on pins' iteration j j' k k'

section

variable (hi : g.Mirrors cp) (l : Nat) (hfi : FitAll Planned { pl with inLoop := true } ps)
  (hbo : Shadows cp fun b => execBlock g rounds (emitAll b ps))

include hi hfi hbo

theorem round_both (hl : loop.isLoop = true) (hie : iteration.isInner = true) (hm : m.Sound Planned)
    (hm' : m'.Sound Planned) (ho : Opened cp on pins loop m m' n n') (k k' : Machine)
    (h : InRound cp on pins iteration n n' k k') : Both (execBlock g rounds (Lower.round on.1 l (emitAll on.1 ps)))
      (execBlock g rounds (Lower.round on.2 l (emitAll on.2 ps))) k k'
      (fun f k1 k1' => f.AfterRound (Beside cp on pins n n' k1 k1') fun _ => k1.Twins cp pins none k1')
      (Raises cp on pins) := by
  obtain ⟨j, _, _, hb, hs, hr⟩ := h
  have he := round_ends hi.settles rounds l hfi hl hie hm ho.begun hb.level hr.begun
  have he' := round_ends hi.settles rounds l hfi hl hie hm' ho.begun' hb.level' hr.begun'
  refine (((hbo.round l).opened hs hr).also he he').mono ?_ fun _ _ _ h => h
  rintro f k1 k1' ⟨ht, ha, ha'⟩
  cases f with
  | normal | continue_ => exact ho.here.of_level ht ha ha'
  | break_ | return_ => exact ht

/-- The rounds of a loop on a condition, whose frames were opened in `m` and `m'`. -/
theorem loop_both (hc : c.Plain) (hm : m.Sound Planned) (hm' : m'.Sound Planned)
    (ho : Opened cp on pins .whileLoop m m' n n') :
    Shadow cp on pins (exec g rounds (.at l (.loop (Lower.condition on.1 .whileIteration c)
        (Lower.round on.1 l (emitAll on.1 ps)))))
      (exec g rounds (.at l (.loop (Lower.condition on.2 .whileIteration c)
        (Lower.round on.2 l (emitAll on.2 ps))))) n n' := by
  refine Both.whileLoop (j := InRound cp on pins .whileIteration n n')
    (fun j j' h1 => ?_) (round_both hi l hfi hbo rfl rfl hm hm' ho) rounds
    (ho.here.setLine l)
  refine (condition_both hi hc h1.here .whileIteration).mono ?_ fun _ _ _ h2 => h2
  rintro (_ | _) k _ ⟨pins', hs, hr⟩
  · exact hr.twins.sub hs
  · exact ⟨j, j', pins', h1, hs, hr⟩

omit hi hfi hbo in
theorem looped_shadows {loop : Bool → Instr}
    (hl : ∀ ⦃on pins m m' n n'⦄, m.Sound Planned → m'.Sound Planned → Opened cp on pins kd m m' n n' →
      Shadow cp on pins (exec g rounds (loop on.1)) (exec g rounds (loop on.2)) n n')
    (ha : ∀ ⦃on pins n n'⦄, n.Twins cp pins none n' →
      Shadow cp on pins (execBlock g rounds (a on.1)) (execBlock g rounds (a on.2)) n n') :
    Shadows cp fun b => execBlock g rounds (extra b [.at l (.startFrame kd "frames")] ++ loop b :: a b) := by
  refine fun on pins m m' h => h.startFrame l kd "frames" fun _ n n' hs ho => ?_
  exact ((hl h.sound h.sound' ho).sub hs).andThen (fun _ _ h1 => ha h1) fun _ _ _ _ h1 => h1

theorem whileLoop_shadows (hc : c.Plain) :
    Shadows cp fun b => execBlock g rounds (Plan.emit b (.whileLoop l c ps)) := by
  simp only [Lower.emit_whileLoop]
  refine looped_shadows l (fun _ _ _ _ _ _ hm hm' ho =>
    loop_both hi l hfi hbo hc hm hm' ho) fun on _ _ _ h => ?_
  rw [execBlock_append, execBlock_append]
  exact (h.endLoop on l).andThen (fun _ _ h1 => h1.endFrame on l) fun _ _ _ _ h1 => h1

variable {t : Target} {e : Expr}

omit hfi hbo in
theorem beginRound_both (ht : t.Plain) (he : e.Plain) (hv : v.Holds Planned)
    (h : Beside cp on pins m m' m m') : Both (beginRound g (roundFrame? (Lower.iterable on.1 e)) t v)
      (beginRound g (roundFrame? (Lower.iterable on.2 e)) t v) m m'
      (fun _ k k' => ∃ pins' : Pins, pins.Sub pins' ∧ Opened cp on pins' .forIteration m m' k k')
      (Raises cp on pins) := by
  have hb : ∀ b, beginRound g (roundFrame? (Lower.iterable b e)) t v
      = when b (startFrame .forIteration "iterable") >>= fun _ =>
        when b (log none v) >>= fun _ => assign g t v := by
    intro b
    cases b with
    | true =>
      change beginRound g (some (.forIteration, "iterable")) t v = _
      simp [beginRound, when]
    | false =>
      change beginRound g (roundFrame? e) t v = _
      rw [roundFrame?_plain he]
      rfl
  rw [hb, hb]
  refine (h.open .forIteration "iterable").bind fun _ n n' h1 => ?_
  obtain ⟨pins', hs, ho⟩ := h1
  refine (ho.here.log none v).bind fun _ n n' h2 => ?_
  refine (((mirrors_assigns cp).assign hi.mirrors t (.inl ht) (fun _ _ => trivial) hv).beside h2).mono ?_
    fun _ _ _ h3 => h3.sub hs
  exact fun _ _ _ h3 => ⟨pins', hs, ho.beside h3.2⟩

omit hi hfi hbo in
theorem Eval.eval_iterable (g : Invoke) (tr : Bool) (e : Expr) : eval g (Lower.iterable tr e) = eval g e := by
  cases tr with
  | true =>
    change eval g (.each .forIteration "iterable" e) = _
    rw [eval]
  | false => rfl

/-- The rounds of a loop over elements, whose frames were opened in `m` and `m'`. -/
theorem iterate_both (ht : t.Plain) (he : e.Plain) (hm : m.Sound Planned) (hm' : m'.Sound Planned)
    (ho : Opened cp on pins .forLoop m m' n n') :
    Shadow cp on pins (exec g rounds (.at l (.iterate t (Lower.iterable on.1 e)
        (Lower.round on.1 l (emitAll on.1 ps)))))
      (exec g rounds (.at l (.iterate t (Lower.iterable on.2 e)
        (Lower.round on.2 l (emitAll on.2 ps))))) n n' := by
  have ha := mirrors_assigns cp
  rw [exec, exec, execAction, execAction, eval_iterable, eval_iterable]
  refine ((ha.eval hi.mirrors e (.inl he)).beside (ho.here.setLine l)).bind fun v k k' h1 => ?_
  have hel : Mirrors cp (MonadState.get >>= fun k : Machine => lift (k.heap.elements v)) (·.Holds Planned) :=
    ha.see (fun heap => lift (heap.elements v)) fun heap hh => ha.lift (hh.elements h1.1)
  refine (hel.beside h1.2).bind fun _ k k' h2 => ?_
  refine Both.forLoop (p := Planned)
    (j := InRound cp on pins .forIteration n n') (fun j j' w h3 hw => ?_)
    (round_both hi l hfi hbo rfl rfl hm hm' ho) (fun _ _ h3 => h3.twins) _ h2.1 h2.2
  refine (beginRound_both hi ht he hw h3.here).mono ?_ fun _ _ _ h4 => h4
  rintro _ k k' ⟨pins', hs, hr⟩
  exact ⟨j, j', pins', h3, hs, hr⟩

theorem forLoop_shadows (ht : t.Plain) (he : e.Plain) :
    Shadows cp fun b => execBlock g rounds (Plan.emit b (.forLoop l t e ps)) := by
  simp only [Lower.emit_forLoop]
  exact looped_shadows l (fun _ _ _ _ _ _ hm hm' ho =>
    iterate_both hi l hfi hbo ht he hm hm' ho) fun on _ _ _ h => h.endFrame on l

end

/-! ## Statements -/

section

variable {e : Expr}

theorem logged_both (hi : g.Mirrors cp) (he : e.Plain) (h : Beside cp on pins m m' n n') (kd : Kind) :
    Both (eval g (Lower.logged on.1 kd e)) (eval g (Lower.logged on.2 kd e)) n n'
      (fun v k k' => v.Holds Planned ∧ Beside cp on pins m m' k k') (Raises cp on pins) := by
  have hev : ∀ b, eval g (Lower.logged b kd e)
      = eval g e >>= fun v => when b (log (some kd) v) >>= fun _ => return v := by
    intro b
    cases b with
    | true =>
      rfl
    | false => simp [Lower.logged, when]
  rw [hev, hev]
  refine (((mirrors_assigns cp).eval hi.mirrors e (.inl he)).beside h).bind fun v k k' h1 => ?_
  exact (h1.2.log (some kd) v).bind fun _ k k' h2 => .pure ⟨h1.1, h2⟩

/-- The value of a return, which is recorded where a run is traced, and the frames of the call are closed. -/
theorem return_shadows (hi : g.Mirrors cp) (he : e.Plain) : Shadows cp fun b =>
      execAction g rounds (.return_ (if b then .logEnd .return_ .functionCall e else e)) := by
  have hex : ∀ b : Bool, execAction g rounds (.return_ (if b then .logEnd .return_ .functionCall e else e))
        = eval g e >>= fun v => when b (logEnd .return_ .functionCall v) >>= fun _ =>
          return .return_ v := by
    intro b
    cases b with
    | true =>
      rw [if_pos rfl, execAction, eval]
      simp [when]
    | false =>
      rw [execAction]
      simp [when]
  simp only [hex]
  intro on pins m _ h
  refine (((mirrors_assigns cp).eval hi.mirrors e (.inl he)).beside h).bind fun v n n' h1 => ?_
  let closed (k : Machine) : Trace := k.trace.logAndEnd .return_ .functionCall (k.heap.str v) v.typeName
  have hr (k : Machine) (b : Bool) := when_ok (show logEnd .return_ .functionCall v k
    = .ok () { k with trace := closed k } from rfl) b
  have hs (k : Machine) (b : Bool) :=
    Trace.Same.when (show (k.trace.logResult (some .return_) (k.heap.str v) v.typeName).Same (closed k) from
      ⟨rfl, rfl, rfl, rfl, rfl⟩) b k.trace
  have hk (k : Machine) : (closed k).lastException = k.trace.lastException := rfl
  refine Both.bind (.of_ok (hr n on.1) (hr n' on.2) ?_)
    fun _ k k' h2 => .pure h2
  refine h1.2.twins.setTrace ?_ (h1.2.twins.kept.when (hk n) _) (h1.2.twins.kept'.when (hk n') _)
  have hl := h1.2.twins.trace.logResult h1.2.aligned (some .return_) (n.heap.str v) v.typeName
  refine hl.congr (hs n on.1) ?_
  rw [← h1.2.twins.heap]
  exact hs n' on.2

theorem leaveLoop_shadows (l : Nat) (action : Action) (f : Flow) (ha : execAction g rounds action = return f)
    (hd : ∀ b, d b = extra b [.at l .endLoop] ++ [.at l action]) : Shadows cp fun b => execBlock g rounds (d b) := by
  simp only [hd, execBlock_append]
  intro on _ m _ h
  refine (h.twins.endLoop on l).andThen (fun n _ h1 => ?_) fun _ _ _ _ h1 => h1
  rw [execBlock_single, exec, ha]
  exact .of_ok rfl rfl ((h1.setLine_left l).setLine_right l)

theorem framed_shadows (l : Nat) (kd : Kind) (h : Shadows cp fun _ => execAction g rounds action) :
    Shadows cp fun b => execBlock g rounds (Lower.framed b kd l action) := by
  simp only [Lower.framed_eq]
  exact ((h.single l).endFrame l).startFrame l kd "import"

end

mutual

/-- **Two runs of the code of a plan do the same**, whichever of them are traced. -/
theorem plan_shadows (hi : g.Mirrors cp) (rounds : Nat) (pl : Place) (p : Plan)
    (hf : p.Fits Planned pl) : Shadows cp fun b => execBlock g rounds (p.emit b) := by
  have ha := mirrors_assigns cp
  match p with
  | .skip =>
    exact .nil
  | .eval l e =>
    refine .single ?_ l
    intro on pins m m' h
    exact (logged_both hi hf h .expression).bind fun v n n' h1 => .pure h1.2.twins
  | .assign l t e =>
    refine .single ?_ l
    intro on pins m m' h
    refine (logged_both hi hf.2 h .assignment).bind fun v n n' h1 => ?_
    refine ((ha.assign hi.mirrors t (.inl hf.1) (fun _ _ => trivial) h1.1).beside h1.2).bind fun _ k k' h2 => ?_
    exact .pure h2.2.twins
  | .conditional l c bd ls =>
    have ht := (plans_shadow hi rounds pl bd hf.2.1).childSet l "trueblock"
    have hel : Shadows cp fun b => execBlock g rounds
        (if ls.isDone then [] else extra b [.at l (.childSet "elseblocks")] ++ ls.emit b) := by
      split
      · exact .nil
      · exact (links_shadow hi rounds pl ls hf.2.2).childSet l _
    simp only [Lower.emit_conditional]
    intro on pins m m' h
    exact (branch_both hi hf.1 h l .if_ (fun _ _ _ => ht.opened)
      fun _ _ _ => hel.opened).andThen (fun _ _ h1 => h1.endFrame on l) fun _ _ _ _ h1 => h1
  | .whileLoop l c bd =>
    exact whileLoop_shadows hi l hf.2 (plans_shadow hi rounds _ bd hf.2) hf.1
  | .forLoop l t e bd =>
    exact forLoop_shadows hi l hf.2.2 (plans_shadow hi rounds _ bd hf.2.2) hf.1 hf.2.1
  | .define l d =>
    refine .single ?_ l
    exact .normal (ha.store _ trivial (.function hf)) fun _ => .normal
  | .return_ l e =>
    exact .single (return_shadows hi hf.2) l
  | .break_ l =>
    exact leaveLoop_shadows l .break_ .break_ (by rw [execAction]) fun b => by cases b <;> simp [Plan.emit, extra]
  | .continue_ l =>
    exact leaveLoop_shadows l .continue_ .continue_ (by rw [execAction]) fun b => by cases b <;> simp [Plan.emit, extra]
  | .import_ l modules =>
    refine framed_shadows l .import_ ?_
    exact .normal (ha.importAll modules fun _ _ => trivial) fun _ => .normal
  | .fromImport l module ns =>
    refine framed_shadows l .fromImport ?_
    rw [execAction, ← bind_assoc]
    exact .normal (Mirrors.bind (ha.loadModule module) fun lb _ =>
      ha.importNames lb module ns fun _ _ => trivial) fun _ => .normal

theorem plans_shadow (hi : g.Mirrors cp) (rounds : Nat) (pl : Place) (ps : List Plan)
    (hfi : FitAll Planned pl ps) : Shadows cp fun b => execBlock g rounds (emitAll b ps) := by
  match ps with
  | [] =>
    exact .nil
  | plan :: r =>
    simp only [emitAll, execBlock_append]
    exact (plan_shadows hi rounds pl plan hfi.1).andThen
      (plan_remains hi.settles rounds hfi.1) (plans_shadow hi rounds pl r hfi.2)

theorem links_shadow (hi : g.Mirrors cp) (rounds : Nat) (pl : Place) (ls : Links)
    (hfi : ls.Fit Planned pl) : Shadows cp fun b => execBlock g rounds (ls.emit b) := by
  match ls with
  | .done =>
    exact .nil
  | .elif l c bd r =>
    have ht := (plans_shadow hi rounds pl bd hfi.2.1).round l
    have he := links_shadow hi rounds pl r hfi.2.2
    simp only [Lower.emit_elif, execBlock_single]
    intro _ _ m _ h
    exact branch_both hi hfi.1 h l .elif (fun _ _ _ => ht.opened) fun _ _ _ hs h1 => he.afterFrame l hs h h1
  | .else_ l bd =>
    simp only [Lower.emit_else]
    exact ((plans_shadow hi rounds pl bd hfi).endFrame l).startFrame l .else_ "block"

end

end

end Playback
