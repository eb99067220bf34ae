import Playback.Proofs.Lockstep

/-!
# The numbers of functions

Lowering numbers the functions of a script in the order in which it comes to them, and it comes to the body of a
function twice. What it gives the two times differs in these numbers only: `bareBlock` is code without them
(`SameCode`). No number is given out twice. Both are seen from planning a statement twice, from the same line
(`plan_inStep`), and hold of all functions of a program (`Script.compile_counted`).
-/

namespace Playback

open List

open Lower (Plan Links Place Counter M emitAll codesAll iterationBody framed plan planBlock planSuite planLinks
  takeLine takeSerial)

/-! ## Code without numbers -/

mutual

def Instr.bare : Instr → Instr
  | .at line action => .at line action.bare

def Action.bare : Action → Action
  | .branch c body orelse => .branch c (bareBlock body) (bareBlock orelse)
  | .loop c body => .loop c (bareBlock body)
  | .iterate target e body => .iterate target e (bareBlock body)
  | .define code => .define code.bare
  | action => action

/-- The function without its number, and without those of the functions inside it. -/
def FunctionCode.bare : FunctionCode → FunctionCode
  | .mk _ name id params locals traced plain =>
    .mk 0 name id params locals (bareBlock traced) (bareBlock plain)

/-- The instructions, without the numbers of functions. -/
def bareBlock : List Instr → List Instr
  | [] => []
  | i :: rest => i.bare :: bareBlock rest

end

/-- The same code but for the numbers of functions. -/
def SameCode (xs ys : List Instr) : Prop :=
  bareBlock xs = bareBlock ys

theorem bareBlock_append (xs ys : List Instr) : bareBlock (xs ++ ys) = bareBlock xs ++ bareBlock ys := by
  induction xs with
  | nil => rfl
  | cons i _ ih => rw [cons_append, bareBlock, bareBlock, ih, cons_append]

namespace Lower

mutual

def Plan.bare : Plan → Plan
  | .conditional line c body links => .conditional line c (bareAll body) links.bare
  | .whileLoop line c body => .whileLoop line c (bareAll body)
  | .forLoop line target e body => .forLoop line target e (bareAll body)
  | .define line code => .define line code.bare
  | p => p

def bareAll : List Plan → List Plan
  | [] => []
  | p :: rest => p.bare :: bareAll rest

def Links.bare : Links → Links
  | .done => .done
  | .elif line c body rest => .elif line c (bareAll body) rest.bare
  | .else_ line body => .else_ line (bareAll body)

end

attribute [local simp] Plan.emit Links.emit iterationBody bareBlock bareBlock_append Instr.bare Action.bare Plan.bare
  Links.bare

mutual

theorem bare_emit (t : Bool) (p : Plan) : bareBlock (p.emit t) = p.bare.emit t := by
  match p with
  | .skip | .eval _ _ | .assign _ _ _ | .define _ _ | .return_ _ _ => rfl
  | .conditional _ c b ls =>
    have hd : ls.bare.isDone = ls.isDone := by cases ls <;> rfl
    have hb := bare_emitAll t b
    have hli := bare_links t ls
    cases t <;> cases hl : ls.isDone <;> simp [hb, hli, hd, hl]
  | .whileLoop _ _ b | .forLoop _ _ _ b =>
    have hb := bare_emitAll t b
    cases t <;> simp [hb]
  | .break_ _ | .continue_ _ | .import_ _ _ | .fromImport _ _ _ => cases t <;> rfl

theorem bare_emitAll (t : Bool) (ps : List Plan) : bareBlock (emitAll t ps) = emitAll t (bareAll ps) := by
  match ps with
  | [] => rfl
  | p :: r => rw [emitAll, bareBlock_append, bare_emit t p, bare_emitAll t r, bareAll, emitAll]

theorem bare_links (t : Bool) (ls : Links) : bareBlock (ls.emit t) = ls.bare.emit t := by
  match ls with
  | .done => rfl
  | .elif _ _ b r =>
    have hb := bare_emitAll t b
    have hr := bare_links t r
    cases t <;> simp [hb, hr]
  | .else_ _ b =>
    have hb := bare_emitAll t b
    cases t <;> simp [hb]

end

mutual

theorem codes_bare (p : Plan) : p.bare.codes = p.codes.map FunctionCode.bare := by
  match p with
  | .conditional _ _ b ls =>
    rw [Plan.bare, Plan.codes, Plan.codes, codes_bareAll b, codes_bareLinks ls, map_append]
  | .whileLoop _ _ b | .forLoop _ _ _ b => rw [Plan.bare, Plan.codes, Plan.codes, codes_bareAll b]
  | .skip | .eval _ _ | .assign _ _ _ | .define _ _ | .return_ _ _ | .break_ _ | .continue_ _ | .import_ _ _
  | .fromImport _ _ _ => rfl

theorem codes_bareAll (ps : List Plan) : codesAll (bareAll ps) = (codesAll ps).map FunctionCode.bare := by
  match ps with
  | [] => rfl
  | p :: r => rw [bareAll, codesAll, codesAll, codes_bare p, codes_bareAll r, map_append]

theorem codes_bareLinks (ls : Links) : ls.bare.codes = ls.codes.map FunctionCode.bare := by
  match ls with
  | .done => rfl
  | .elif _ _ b r =>
    rw [Links.bare, Links.codes, Links.codes, codes_bareAll b, codes_bareLinks r, map_append]
  | .else_ _ b => rw [Links.bare, Links.codes, Links.codes, codes_bareAll b]

end

end Lower

/-! ## All functions of a program -/

/-- The functions that either body of a function defines. -/
def FunctionCode.inner (code : FunctionCode) : List FunctionCode :=
  blockCodes code.traced ++ blockCodes code.plain

mutual

theorem Action.sizeOf_codes {action : Action} (h : code ∈ action.codes) : sizeOf code < sizeOf action := by
  match action with
  | .branch _ b _ =>
    rw [Action.branch.sizeOf_spec]
    rcases mem_append.1 h with h | h
    all_goals
      have := sizeOf_blockCodes h
      omega
  | .loop _ b | .iterate _ _ b =>
    have := sizeOf_blockCodes h
    simp only [Action.loop.sizeOf_spec, Action.iterate.sizeOf_spec]
    omega
  | .define _ =>
    rw [mem_singleton.1 h, Action.define.sizeOf_spec]
    omega

theorem sizeOf_blockCodes (h : code ∈ blockCodes is) : sizeOf code < sizeOf is := by
  match is with
  | .at l action :: r =>
    rw [List.cons.sizeOf_spec, Instr.at.sizeOf_spec]
    rcases mem_append.1 h with h | h
    · have := Action.sizeOf_codes h
      omega
    · have := sizeOf_blockCodes h
      omega

end

theorem FunctionCode.sizeOf_inner {code i : FunctionCode} (h : i ∈ code.inner) : sizeOf i < sizeOf code := by
  obtain ⟨_, _, _, _, _, t, plain⟩ := code
  rw [FunctionCode.mk.sizeOf_spec]
  rcases mem_append.1 h with h | h
  · have : _ < sizeOf t := sizeOf_blockCodes h
    omega
  · have : _ < sizeOf plain := sizeOf_blockCodes h
    omega

/-- A function and those inside its bodies, at any depth. -/
def FunctionCode.functions (code : FunctionCode) : List FunctionCode :=
  code :: code.inner.attach.flatMap fun inner => inner.1.functions
termination_by sizeOf code
decreasing_by exact sizeOf_inner inner.2

theorem FunctionCode.functions_eq (code : FunctionCode) :
    code.functions = code :: code.inner.flatMap FunctionCode.functions := by
  rw [functions, flatMap_subtype fun _ _ => rfl, unattach_attach]

theorem FunctionCode.induct {q : FunctionCode → Prop}
    (step : ∀ code : FunctionCode, (∀ i ∈ code.inner, q i) → q code) (code : FunctionCode) : q code :=
  step code fun i _ => induct step i
termination_by sizeOf code
decreasing_by exact sizeOf_inner ‹_›

def Program.functions (program : Program) : List FunctionCode :=
  (blockCodes program.body).flatMap FunctionCode.functions

theorem flatMap_functions_perm {codes : List FunctionCode}
    (h : ∀ code ∈ codes, code.functions.Perm (code :: code.functions.flatMap FunctionCode.inner)) :
    (codes.flatMap FunctionCode.functions).Perm
      (codes ++ (codes.flatMap FunctionCode.functions).flatMap FunctionCode.inner) := by
  induction codes with
  | nil => exact .nil
  | cons code _ ih =>
    obtain ⟨hc, hr⟩ := forall_mem_cons.1 h
    rw [flatMap_cons, flatMap_append]
    refine (hc.append (ih hr)).trans ?_
    rw [← append_assoc, ← append_assoc]
    exact .cons _ (perm_append_comm.append_right _)

/-- Each function of a program is defined in the file or inside one function of the program. -/
theorem Program.functions_perm (p : Program) :
    p.functions.Perm (blockCodes p.body ++ p.functions.flatMap FunctionCode.inner) := by
  have hc (code : FunctionCode) : code.functions.Perm (code :: code.functions.flatMap FunctionCode.inner) := by
    induction code using FunctionCode.induct with
    | step code ih =>
      rw [code.functions_eq]
      exact .cons _ (flatMap_functions_perm ih)
  exact flatMap_functions_perm fun code _ => hc code

theorem Program.mem_functions {p : Program} : code ∈ p.functions ↔
      code ∈ blockCodes p.body ∨ ∃ o ∈ p.functions, code ∈ o.inner := by
  rw [p.functions_perm.mem_iff, mem_append, mem_flatMap]

/-- A property that a function has together with the functions inside it. -/
def Inherited (p : FunctionCode → Prop) : Prop :=
  ∀ code, p code → ∀ inner ∈ code.inner, p inner

/-- A property that functions inherit and that those of the file have is one of all functions of the program. -/
theorem Inherited.functions (hp : Inherited p) {q : Program}
    (h : ∀ code ∈ blockCodes q.body, p code) : ∀ code ∈ q.functions, p code := by
  have hin (code : FunctionCode) : p code → ∀ f ∈ code.functions, p f := by
    induction code using FunctionCode.induct with
    | step code ih =>
      intro hc f hf
      rw [code.functions_eq] at hf
      rcases mem_cons.1 hf with rfl | hf
      · exact hc
      · obtain ⟨i, hi, hf⟩ := mem_flatMap.1 hf
        exact ih i hi (hp code hc i hi) f hf
  intro code hc
  obtain ⟨o, ho, hc⟩ := mem_flatMap.1 hc
  exact hin o (h o ho) code hc

namespace Lower

/-- The two bodies of a function are the code of plans that are the same without the numbers of functions. -/
def Twofold (code : FunctionCode) : Prop :=
  ∃ ps qs, bareAll ps = bareAll qs ∧ code.traced = emitAll true ps ++ [.at 1 .endFrame] ∧ code.plain = emitAll false qs

/-- Functions are numbered one after the other, from one number to before another, and are twofold. -/
structure Counted (functions : List FunctionCode) (n n' : Nat) : Prop where
  le : n ≤ n'
  serials : functions.map FunctionCode.serial = List.range' n (n' - n)
  bodies : ∀ f ∈ functions, Twofold f

theorem Counted.nil (n : Nat) : Counted [] n n :=
  ⟨Nat.le_refl n, by simp, forall_mem_nil _⟩

theorem Counted.single {f : FunctionCode} {n : Nat} (hf : f.serial = n) (h : Twofold f) : Counted [f] n (n + 1) :=
  ⟨by omega, by simp [hf], forall_mem_singleton.2 h⟩

theorem Counted.append {fs gs : List FunctionCode} {n n1 n2 : Nat} (h : Counted fs n n1) (h' : Counted gs n1 n2) :
    Counted (fs ++ gs) n n2 := by
  obtain ⟨_, hfs, hb⟩ := h
  obtain ⟨_, hgs, hb'⟩ := h'
  have hs : n + (n1 - n) = n1 := by omega
  have hl : n1 - n + (n2 - n1) = n2 - n := by omega
  refine ⟨by omega, ?_, forall_mem_append.2 ⟨hb, hb'⟩⟩
  rw [map_append, hfs, hgs, ← hl, ← range'_append_1, hs]

/-! ## Planning twice -/

/-- Two plannings fail alike, or what they give is so related, as well as the next number of the first, and they come to
the same line. -/
inductive Agree {α : Type} (r : α → α → Nat → Prop) :
    Except CompileError (α × Counter) → Except CompileError (α × Counter) → Prop where
  | ok : r a b c.serial → c.line = c'.line → Agree r (.ok (a, c)) (.ok (b, c'))
  | error (e : CompileError) : Agree r (.error e) (.error e)

/-- From the same line, two plannings agree that start with these numbers. -/
def InStep {α : Type} (x y : M α) (n n' : Nat) (r : α → α → Nat → Prop) : Prop :=
  ∀ line, Agree r (x { line, serial := n }) (y { line, serial := n' })

namespace InStep

variable {α β : Type}

theorem pure {a b : α} (h : r a b n) : InStep (Pure.pure a) (Pure.pure b) n n' r :=
  fun _ => .ok h rfl

theorem bind {f g : α → M β} (hx : InStep x y n n' r) (hf : ∀ a b n1 n1', r a b n1 → InStep (f a) (g b) n1 n1' q) :
    InStep (x >>= f) (y >>= g) n n' q := by
  intro line
  change Agree q (x { line, serial := n } >>= fun a => f a.1 a.2) (y { line, serial := n' } >>= fun a => g a.1 a.2)
  have h := hx line
  generalize x { line, serial := n } = out, y { line, serial := n' } = out' at h
  cases h with
  | error e => exact .error e
  | @ok a b c c' hab hl =>
    obtain ⟨line', n1⟩ := c
    obtain rfl : line' = c'.line := hl
    exact hf a b n1 c'.serial hab c'.line

theorem line {f g : Nat → M β} (h : ∀ l, InStep (f l) (g l) n n' q) : InStep (takeLine >>= f) (takeLine >>= g) n n' q :=
  fun l => h l (l + 1)

theorem serial {f g : Nat → M β} (h : InStep (f n) (g n') (n + 1) (n' + 1) q) :
    InStep (takeSerial >>= f) (takeSerial >>= g) n n' q :=
  h

theorem read {f g : Counter → M β} (h : ∀ c c', c.line = c'.line → InStep (f c) (g c') n n' q) :
    InStep (get >>= f) (get >>= g) n n' q :=
  fun line => h { line, serial := n } { line, serial := n' } rfl line

theorem jump {f g : PUnit → M β} (l' : Nat) (h : InStep (f ⟨⟩) (g ⟨⟩) n n' q) :
    InStep (modify (fun c : Counter => { c with line := l' }) >>= f)
      (modify (fun c : Counter => { c with line := l' }) >>= g) n n' q :=
  fun _ => h l'

theorem resolve {e : Except CompileError α} (h : ∀ a, InStep (f a) (g a) n n' q) :
    InStep (liftM e >>= f) (liftM e >>= g) n n' q := by
  intro l
  cases e with
  | error e => exact .error e
  | ok a => exact h a l

theorem guarded {b : Bool} {e : CompileError} (h : InStep x y n n' r) :
    InStep (if !b then (MonadExcept.throw e : M PUnit) >>= fun _ => x else x)
      (if !b then (MonadExcept.throw e : M PUnit) >>= fun _ => y else y) n n' r := by
  cases b with
  | true => exact h
  | false => exact fun _ => .error e

/-- The same is planned twice from one line; what comes of it is then related as well. -/
theorem twice {r : Nat → α → α → Nat → Prop} {l' : Nat} {f g : α → Counter → α → M β}
    (hx : ∀ n n', InStep x x n n' (r n))
    (hf : ∀ a b a' b' d d' n1 n2 n2', r n a b n1 → r n a a' n1 → r n1 a' b' n2 → d.line = d'.line →
      InStep (f a d a') (g b d' b') n2 n2' q) : InStep
      (do modify fun c : Counter => { c with line := l' }
          let a ← x
          let d ← get
          modify fun c : Counter => { c with line := l' }
          let a' ← x
          f a d a')
      (do modify fun c : Counter => { c with line := l' }
          let b ← x
          let d' ← get
          modify fun c : Counter => { c with line := l' }
          let b' ← x
          g b d' b') n n' q := by
  intro l
  have hfi := hx n n' l'
  have hc n1 := hx n n1 l'
  change Agree q (x { line := l', serial := n } >>= _) (x { line := l', serial := n' } >>= _)
  generalize x { line := l', serial := n } = out, x { line := l', serial := n' } = out' at hfi hc
  cases hfi with
  | error e => exact .error e
  | @ok a b c c' hab hl =>
    have hs := hx c.serial c'.serial l'
    have hc := hc c.serial
    change Agree q (x { line := l', serial := c.serial } >>= _) (x { line := l', serial := c'.serial } >>= _)
    generalize x { line := l', serial := c.serial } = out, x { line := l', serial := c'.serial } = out'
      at hs hc
    cases hs with
    | error e => exact .error e
    | @ok a' b' d d' hab' hl' =>
      obtain ⟨line2, n2⟩ := d
      obtain rfl : line2 = d'.line := hl'
      cases hc with
      | ok hc _ => exact hf a b a' b' c c' c.serial n2 d'.serial hab hc hab' hl d'.line

end InStep

/-- Two of something are the same without the numbers of functions, and in the first these follow on each other. -/
def Alike {α : Type} (bare : α → α) (codes : α → List FunctionCode) (n : Nat) (a b : α) (n' : Nat) : Prop :=
  bare a = bare b ∧ Counted ((codes a).flatMap FunctionCode.functions) n n'

theorem Alike.of_nil {α : Type} {bare : α → α} {codes : α → List FunctionCode} {a : α} (h : codes a = []) (n : Nat) :
    Alike bare codes n a a n :=
  ⟨rfl, h ▸ .nil n⟩

theorem InStep.suite (h : InStep (planBlock p ss) (planBlock p ss) n n' (Alike bareAll codesAll n)) :
    InStep (planSuite p ss) (planSuite p ss) n n' (Alike bareAll codesAll n) := by
  cases ss with
  | nil =>
    exact .line fun _ => .pure (.of_nil rfl n)
  | cons s _ =>
    exact h

mutual

theorem plan_inStep (p : Place) (s : Statement) (n n' : Nat) :
    InStep (plan p s) (plan p s) n n' (Alike Plan.bare Plan.codes n) := by
  match s with
  | .blank | .comment _ | .import_ _ | .fromImport _ _ =>
    exact .line fun _ => .pure (.of_nil rfl n)
  | .expression v =>
    refine .line fun l => .resolve fun e => ?_
    cases e with
    | none | some => exact .pure (.of_nil rfl n)
  | .assignment ts v =>
    exact .line fun l => .resolve fun t => .resolve fun e => .pure (.of_nil rfl n)
  | .conditional cond b ls =>
    refine .line fun l => .resolve fun c => ?_
    refine (planBlock_inStep p b n n').suite.bind fun ps qs n1 n1' hb => ?_
    refine (planLinks_inStep p ls n1 n1').bind fun _ _ _ _ hl => .pure ⟨?_, ?_⟩
    · rw [Plan.bare, Plan.bare, hb.1, hl.1]
    · rw [Plan.codes, flatMap_append]
      exact hb.2.append hl.2
  | .whileLoop cond b =>
    refine .line fun l => .resolve fun c => (planBlock_inStep _ b n n').suite.bind fun ps qs _ _ hb => ?_
    exact .pure ⟨by rw [Plan.bare, Plan.bare, hb.1], hb.2⟩
  | .forLoop ts _ b =>
    refine .line fun l => .resolve fun t => .resolve fun e => ?_
    refine (planBlock_inStep _ b n n').suite.bind fun ps qs _ _ hb => ?_
    exact .pure ⟨by rw [Plan.bare, Plan.bare, hb.1], hb.2⟩
  | .function x id params b =>
    have hb n n' := (planBlock_inStep { inLoop := false, inFunction := true } b n n').suite
    refine .line fun l => .serial (.read fun c _ ha => .twice hb ?_)
    intro ps qs ps' _ d _ n1 _ _ ht hbo hp he
    rw [ha, he]
    refine .jump _ (.pure ⟨?_, ?_⟩)
    · simp [Plan.bare, FunctionCode.bare, bareBlock_append, bare_emitAll, ht.1, hp.1]
    · have hi : FunctionCode.inner ⟨n, x, id.getD x, params, (params ++ blockNames b).eraseDups,
          emitAll true ps ++ [.at 1 .endFrame], emitAll false ps'⟩ = codesAll ps ++ codesAll ps' := by
        simp [FunctionCode.inner, FunctionCode.traced, FunctionCode.plain, blockCodes_append, codes_emitAll, blockCodes,
          Instr.codes, Action.codes]
      rw [Plan.codes, flatMap_singleton, FunctionCode.functions_eq, hi, flatMap_append]
      refine (Counted.single rfl ⟨ps, ps', hbo.1, rfl, rfl⟩).append ?_
      exact ht.2.append hp.2
  | .return_ v =>
    exact .line fun l => .guarded (.resolve fun e => .pure (.of_nil rfl n))
  | .break_ | .continue_ =>
    exact .line fun l => .guarded (.pure (.of_nil rfl n))

theorem planBlock_inStep (pl : Place) (ss : List Statement) (n n' : Nat) :
    InStep (planBlock pl ss) (planBlock pl ss) n n' (Alike bareAll codesAll n) := by
  match ss with
  | [] =>
    exact .pure (.of_nil rfl n)
  | s :: r =>
    refine (plan_inStep pl s n n').bind fun p q n1 n1' hp => ?_
    refine (planBlock_inStep pl r n1 n1').bind fun _ _ _ _ hps => .pure ⟨?_, ?_⟩
    · rw [bareAll, bareAll, hp.1, hps.1]
    · rw [codesAll, flatMap_append]
      exact hp.2.append hps.2

theorem planLinks_inStep (p : Place) (ls : List Link) (n n' : Nat) :
    InStep (planLinks p ls) (planLinks p ls) n n' (Alike Links.bare Links.codes n) := by
  match ls with
  | [] =>
    exact .pure (.of_nil rfl n)
  | .elif e b :: r =>
    refine .line fun l => .resolve fun c => ?_
    refine (planBlock_inStep p b n n').suite.bind fun ps qs n1 n1' hb => ?_
    refine (planLinks_inStep p r n1 n1').bind fun _ _ _ _ hl => .pure ⟨?_, ?_⟩
    · rw [Links.bare, Links.bare, hb.1, hl.1]
    · rw [Links.codes, flatMap_append]
      exact hb.2.append hl.2
  | .else_ b :: r =>
    refine .line fun l => .guarded ((planBlock_inStep p b n n').suite.bind fun ps qs _ _ hb => ?_)
    exact .pure ⟨by rw [Links.bare, Links.bare, hb.1], hb.2⟩

end

end Lower

/-- **The functions of a program are numbered one after the other, from 0 on, and are twofold.** -/
theorem Script.compile_counted {p : Program}
    {s : Script} (h : s.compile = .ok p) : ∃ n, Lower.Counted p.functions 0 n := by
  obtain ⟨r, hp, hb⟩ := Script.compile_ok h
  have hs := Lower.planBlock_inStep .file s 0 0 1
  rw [hp] at hs
  cases hs with
  | ok ha _ =>
    rw [Program.functions, hb, codes_emitAll]
    exact ⟨_, ha.2⟩

end Playback
