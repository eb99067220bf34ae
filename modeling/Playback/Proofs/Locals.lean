import Playback.Proofs.Effects
import Playback.Proofs.Scopes
import Playback.Proofs.Serials

/-!
# Names inside a call

In every state of a run the variables of each call are among the names of its function (`Reached.inScope`), which are
settled when it is lowered. So a name of the function never has a value from outside the call, and any other name never
has one from inside (`Script.names_static`). Every function that a run comes to call is one of the program;
`Machine.InScope` says both of a machine.
-/

namespace Playback

open Eval
open List hiding after
open FunctionCode (Scoped)

variable {code c : FunctionCode}

theorem FunctionCode.bind_names (c : FunctionCode) (as : List Value) (ks : Keywords) :
    Yields (c.bind as ks) fun s => ∀ x ∈ s, x.1 ∈ c.params :=
  (c.bind_mem as ks).mono fun _ h x hx => (h x hx).1

/-! ## Machines whose calls are in scope -/

/-- The variables of every call are names of its function. -/
def Machine.Confined (m : Machine) : Prop :=
  ∀ call ∈ m.calls, ∀ x ∈ call.locals, x.1 ∈ call.code.locals

/-- All functions that a machine holds or is calling are those of a program, the variables of every call are names of
its function, and so are these names for the innermost call. -/
structure Machine.InScope (program : Program) (n : String → Prop) (m : Machine) : Prop where
  heap : m.heap.Holds (· ∈ program.functions)
  globals : ∀ x ∈ m.globals, x.2.Holds (· ∈ program.functions)
  locals : ∀ call ∈ m.calls, ∀ x ∈ call.locals, x.2.Holds (· ∈ program.functions)
  called : ∀ code ∈ m.calls.map (·.code), code ∈ program.functions
  confined : m.Confined
  names : ∀ code ∈ (m.calls.map (·.code)).head?, ∀ name, n name → name ∈ code.locals

variable {m m' : Machine} {n : String → Prop} {program : Program} {rounds : Nat} {t : Bool} {task : Task}

namespace Machine.InScope

theorem mono (h : m.InScope program n) (hn : ∀ x, n' x → n x) : m.InScope program n' :=
  { h with names := fun c hc x hna => h.names c hc x (hn x hna) }

theorem of_same (h : m.InScope program n) (hh : m'.heap.Holds (· ∈ program.functions)) (hsa : m.SameVariables m') :
    m'.InScope program n where
  heap := hh
  globals := hsa.globals ▸ h.globals
  locals := hsa.calls ▸ h.locals
  called := hsa.calls ▸ h.called
  confined := by
    unfold Machine.Confined
    exact hsa.calls ▸ h.confined
  names := hsa.calls ▸ h.names

theorem value (h : m.InScope program n) (x : String) : Yields (m.value x) (·.Holds (· ∈ program.functions)) := by
  have hso : { m with trace := Trace.start {} }.Sound (· ∈ program.functions) :=
    ⟨h.heap, h.globals, h.locals, Trace.sound_start _⟩
  exact hso.value x

theorem setVariable (h : m.InScope program n) (hna : n x) (hv : v.Holds (· ∈ program.functions)) :
    (m.setVariable x v).InScope program n ∧ (m.setVariable x v).calls.map (·.code) = m.calls.map (·.code) := by
  unfold Machine.setVariable
  split
  · exact ⟨{ h with globals := Scope.forall_put h.globals hv }, rfl⟩
  · rename_i c r hcs
    obtain ⟨hh, hg, hl, hca, hc, hn⟩ := h
    unfold Machine.Confined at hc
    rw [hcs] at hl hca hc hn
    obtain ⟨hcl, hr⟩ := forall_mem_cons.1 hl
    obtain ⟨hcl', hr'⟩ := forall_mem_cons.1 hc
    refine ⟨⟨hh, hg, ?_, hca, ?_, hn⟩, by rw [hcs]; rfl⟩
    · exact forall_mem_cons.2 ⟨Scope.forall_put hcl hv, hr⟩
    · exact forall_mem_cons.2 ⟨Scope.forall_put hcl' (hn _ rfl x hna), hr'⟩

theorem setLine (h : m.InScope program n) (l : Nat) :
    (m.setLine l).InScope program n ∧ (m.setLine l).calls.map (·.code) = m.calls.map (·.code) := by
  unfold Machine.setLine
  split
  · exact ⟨h, rfl⟩
  · rename_i c r hcl
    obtain ⟨hh, hg, hl, hca, hc, hn⟩ := h
    unfold Machine.Confined at hc
    rw [hcl] at hl hca hc hn
    refine ⟨⟨hh, hg, ?_, hca, ?_, hn⟩, by rw [hcl]; rfl⟩
    · exact forall_mem_cons.2 (forall_mem_cons.1 hl)
    · exact forall_mem_cons.2 (forall_mem_cons.1 hc)

theorem called_ (h : m.InScope program n) (hc : code ∈ program.functions)
    (hs : code.Scoped) {locals : Scope} (hl : ∀ x ∈ locals, x.2.Holds (· ∈ program.functions))
    (hp : ∀ x ∈ locals, x.1 ∈ code.params) (trace : Trace) :
    { m with calls := { code, locals, line := 1 } :: m.calls, trace }.InScope program (· ∈ code.locals) where
  heap := h.heap
  globals := h.globals
  locals := forall_mem_cons.2 ⟨hl, h.locals⟩
  called := forall_mem_cons.2 ⟨hc, h.called⟩
  confined := by
    obtain ⟨params, -, -⟩ := hs
    exact forall_mem_cons.2 ⟨fun x hx => params x.1 (hp x hx), h.confined⟩
  names := by
    rintro _ ⟨⟩ _ hn
    exact hn

end Machine.InScope

/-! ## Computations that keep to the scope -/

/-- What is said of a machine that is in scope and a later one: that is in scope as well, and the same functions are
being called. -/
def Machine.StaysInScope (program : Program) (n : String → Prop) (m m' : Machine) : Prop :=
  m'.InScope program n ∧ m'.calls.map (·.code) = m.calls.map (·.code)

theorem Machine.StaysInScope.trans
    (h : m.StaysInScope program n m1) (h' : m1.StaysInScope program n m2) : m.StaysInScope program n m2 :=
  ⟨h'.1, h'.2.trans h.2⟩

theorem machineRelation_inScope (program : Program) (n : String → Prop) :
    MachineRelation (· ∈ program.functions) (·.InScope program n) (Machine.StaysInScope program n) where
  refl hm := ⟨hm, rfl⟩
  trans := .trans
  keeps _ h := h.1
  heap hm := hm.heap
  value name hm := hm.value name

/-- A computation keeps to the scope of the innermost call. -/
abbrev KeepsScope (program : Program) (n : String → Prop) {α : Type} (x : Eval α) (q : α → Prop) : Prop :=
  Affects (·.InScope program n) (Machine.StaysInScope program n) x q

/-- Running code that binds these names is made of operations that keep to the scope. -/
theorem keepsScope_lockstepOn (program : Program) (n : String → Prop) :
    LockstepOn n (· ∈ program.functions) fun x _ q => KeepsScope program n x q where
  toAlongside := Affects.alongside (machineRelation_inScope program n) fun hm hh h _ =>
    ⟨hm.of_same hh h, congrArg (map _) h.calls⟩
  store _ _ hn hv := .change fun hm => hm.setVariable hn hv
  setLine line := .change fun hm => hm.setLine line

/-! ## Calls -/

theorem Eval.runCall_gives (h : runCall run c t i d m = .ok v m') :
    ∃ f m1, run (c.body t) m = .ok f m1 ∧ v = f.result := by
  obtain ⟨o, m1, ha, h⟩ := bind_ok h
  obtain ⟨l, _, -, h⟩ := bind_ok h
  unfold attempt at ha
  cases hr : run (c.body t) m with
  | ok f m3 =>
    rw [hr] at ha
    cases ha
    cases t <;> cases h <;> exact ⟨f, _, rfl, rfl⟩
  | error halt m3 =>
    rw [hr] at ha
    cases ha
    cases halt <;> cases t <;> cases h

section

variable (hs : ∀ code ∈ program.functions, code.Scoped)

theorem Program.body_functions (hc : c ∈ program.functions) (t : Bool) :
    ∀ i ∈ blockCodes (c.body t), i ∈ program.functions := by
  refine fun i hi => Program.mem_functions.2 (.inr ⟨c, hc, mem_append.2 ?_⟩)
  cases t with
  | true => exact .inl hi
  | false => exact .inr hi

include hs

/-- **A call keeps to the scope**: its body binds names of its function, in the call, which its end takes away. -/
theorem invoke_keepsScope (rounds room : Nat) (n : String → Prop) :
    Lockstep.Calls (· ∈ program.functions) (fun x _ => KeepsScope program n x) (Eval.invoke rounds room)
      (Eval.invoke rounds room) := by
  induction room generalizing n with
  | zero => exact fun _ _ _ _ _ _ => .throw (machineRelation_inScope program n) _
  | succ room ih =>
    intro code args keywords hc ha hk
    have hbo (traced : Bool) : KeepsScope program (· ∈ code.locals)
        (execBlock (Eval.invoke rounds room) rounds (code.body traced))
        (·.result.Holds (· ∈ program.functions)) := by
      obtain ⟨-, hbi, -⟩ := hs code hc
      exact (keepsScope_lockstepOn program _).execBlock (ih _) rounds _ (Program.body_functions hc traced) (hbi traced)
    have hca {m : Machine} (hm : m.InScope program n) {locals : Scope}
        (hb : code.bind args keywords = .ok locals) : (m.called code locals).InScope program (· ∈ code.locals) :=
      hm.called_ hc (hs code hc) (code.bind_holds ha hk locals hb) (code.bind_names args keywords locals hb) _
    rw [Eval.invoke]
    refine ⟨fun {m} hm => ?_, fun {m v _} hm h => ?_⟩
    · cases hb : code.bind args keywords with
      | error fault =>
        rw [after, callWith_error hb]
        exact ⟨hm, rfl⟩
      | ok locals =>
        obtain ⟨_, he, -⟩ := callWith_after (execBlock (Eval.invoke rounds room) rounds) hb m
        obtain ⟨hin, hco⟩ := (hbo (m.traces code)).after (hca hm hb)
        generalize after (execBlock (Eval.invoke rounds room) rounds
          (code.body (m.traces code))) (m.called code locals) = m1 at he hin hco
        rw [he]
        have ht : m1.calls.tail.map (·.code) = m.calls.map (·.code) := by
          rw [map_tail, hco]
          rfl
        refine ⟨⟨hin.heap, hin.globals, fun call hcl => ?_, ht ▸ hm.called, fun call hcl => ?_, ?_⟩, ht⟩
        · exact hin.locals call (mem_of_mem_tail hcl)
        · exact hin.confined call (mem_of_mem_tail hcl)
        · exact ht ▸ hm.names
    · cases hb : code.bind args keywords with
      | error fault =>
        rw [callWith_error hb] at h
        cases h
      | ok locals =>
        rw [callWith_ok hb] at h
        obtain ⟨_, m1, hr, rfl⟩ := runCall_gives h
        exact (hbo (m.traces code)).gives (hca hm hb) hr

end

/-! ## Every state of a run -/

namespace Task

/-- The names that a task binds in the call that it is part of. -/
def binds : Task → List String
  | .block _ _ is => blockBinds is
  | .loop _ _ _ body => blockBinds body
  | .iterate _ _ _ t body _ => t.binds ++ blockBinds body
  | .assign t _ => t.binds
  | _ => []

/-- The functions that the code a task is in the middle of defines. -/
def codes : Task → List FunctionCode
  | .block _ _ is => blockCodes is
  | .loop _ _ _ body => blockCodes body
  | .iterate _ _ _ _ body _ => blockCodes body
  | _ => []

/-- Whether the code that a task is in the middle of is traced. -/
def traced : Task → Bool
  | .block _ traced _ => traced
  | .loop _ traced _ _ => traced
  | .iterate _ traced _ _ _ _ => traced
  | _ => false

/-- The values of a task hold functions of a program. -/
def Holds (program : Program) : Task → Prop
  | .iterate _ _ _ _ _ es => es.Holds (· ∈ program.functions)
  | .assign _ v => v.Holds (· ∈ program.functions)
  | .call code args keywords => code ∈ program.functions ∧ RowHolds (· ∈ program.functions) args
      ∧ ∀ k ∈ keywords, k.2.Holds (· ∈ program.functions)
  | _ => True

end Task

/-- The functions that the code defines which the innermost call, or the file, is running. -/
def Program.running (program : Program) (traced : Bool) : List FunctionCode → List FunctionCode
  | [] => blockCodes program.body
  | code :: _ => blockCodes (code.body traced)

/-- What holds of every reachable state: the machine is in scope for what is to be done, and what is still to be
executed is part of the body that the innermost call is running. -/
structure Task.InScope (program : Program) (task : Task) (m : Machine) : Prop where
  machine : m.InScope program (· ∈ task.binds)
  holds : task.Holds program
  codes : task.codes ⊆ program.running task.traced (m.calls.map (·.code))

namespace Task.InScope

variable {task' : Task}

theorem defines (h : task.InScope program m) : ∀ c ∈ task.codes, c ∈ program.functions := by
  intro c hco
  have hc := h.codes hco
  have hca := h.machine.called
  generalize m.calls.map (·.code) = calls at hc hca
  cases calls with
  | nil => exact Program.mem_functions.2 (.inl hc)
  | cons o r => exact Program.body_functions (hca o mem_cons_self) _ c hc

theorem step (h : task.InScope program m) (hm : m.StaysInScope program (· ∈ task.binds) m')
    (hb : task'.binds ⊆ task.binds) (ht : task'.traced = task.traced) (hc : task'.codes ⊆ task.codes)
    (hh : task'.Holds program) : task'.InScope program m' := by
  refine ⟨hm.1.mono hb, hh, ?_⟩
  rw [hm.2, ht]
  exact List.Subset.trans hc h.codes

theorem aside (hm : m.StaysInScope program (· ∈ task.binds) m') (hc : task'.codes = [])
    (hb : task'.binds ⊆ task.binds) (hh : task'.Holds program) : task'.InScope program m' := by
  refine ⟨hm.1.mono hb, hh, ?_⟩
  rw [hc]
  exact nil_subset _

/-- The file is in scope at the start of a run. -/
theorem start (program : Program) (limits : Limits) (mode : Mode) (input : List String) :
    (Task.block .file true program.body).InScope program (Machine.ready limits mode input) := by
  obtain ⟨hso, hc, -⟩ := Machine.sound_ready (p := (· ∈ program.functions)) limits mode input
  refine ⟨⟨hso.heap, hso.globals, hso.locals, ?_, ?_, ?_⟩, trivial, ?_⟩
  · rw [hc]
    exact forall_mem_nil _
  · intro call hca
    rw [hc] at hca
    cases hca
  · rw [hc]
    rintro _ ⟨⟩
  · rw [hc]
    exact List.Subset.refl _

/-- A branch binds and defines only what the whole conditional does. -/
theorem branch (h : (Task.block p t (.at l (.branch e body orelse) :: is)).InScope program m)
    (hm : m.StaysInScope program (· ∈ blockBinds (.at l (.branch e body orelse) :: is)) m') (b : Bool) :
    (Task.block p t (if b then body else orelse)).InScope program m' := by
  have hb := subset_append_left (blockBinds body ++ blockBinds orelse) (blockBinds is)
  have hc := subset_append_left (blockCodes body ++ blockCodes orelse) (blockCodes is)
  cases b with
  | true =>
    refine h.step hm (List.Subset.trans ?_ hb) rfl (List.Subset.trans ?_ hc) trivial
    all_goals exact subset_append_left _ _
  | false =>
    refine h.step hm (List.Subset.trans ?_ hb) rfl (List.Subset.trans ?_ hc) trivial
    all_goals exact subset_append_right _ _

end Task.InScope

theorem targetsBind_append (ts us : List Target) : targetsBind (ts ++ us) = targetsBind ts ++ targetsBind us := by
  induction ts with
  | nil => rfl
  | cons t r ih => rw [cons_append, targetsBind, targetsBind, ih, append_assoc]

section

variable {α : Type} {x : Eval α} {q : α → Prop} {a : α}

/-- After a computation that keeps to the scope, the machine is in scope and the value is as said. -/
theorem Machine.InScope.ok (hm : m.InScope program n) (hx : KeepsScope program n x q) (h : x m = .ok a m') :
    m.StaysInScope program n m' ∧ q a :=
  ⟨hx.ok hm h, hx.gives hm h⟩

theorem Machine.InScope.ok_at (hm : m.InScope program n) (hx : KeepsScope program n x q)
    (h : x (m.setLine l) = .ok a m') : m.StaysInScope program n m' ∧ q a := by
  obtain ⟨hm', ha⟩ := (hm.setLine l).1.ok hx h
  exact ⟨.trans (hm.setLine l) hm', ha⟩

end

/-- A target inside one that unpacks binds names of the whole, and takes an element of the value. -/
theorem Task.InScope.unpacked {t : Target} (h : (Task.assign (.unpack (ts ++ t :: us)) v).InScope program m)
    (hg : ∀ n, Lockstep.Calls (· ∈ program.functions) (fun x _ => KeepsScope program n x) g g)
    (hu : unpack m.heap v (ts ++ t :: us).length = .ok (vs ++ w :: ws)) (ha : assignAll g ts vs m = .ok () m') :
    (Task.assign t w).InScope program m' := by
  have hb : (Task.assign (.unpack (ts ++ t :: us)) v).binds = targetsBind ts ++ (t.binds ++ targetsBind us) :=
    targetsBind_append ts (t :: us)
  have hr := keepsScope_lockstepOn program (· ∈ (Task.assign (.unpack (ts ++ t :: us)) v).binds)
  obtain ⟨hvs, hws⟩ := forall_mem_append.1 (unpack_holds h.machine.heap h.holds _ _ hu)
  have hm := h.machine.ok (hr.assignAll (hg _) ts (.inr hr.toAlongside)
    (fun _ hn => hb ▸ mem_append_left _ hn) vs hvs) ha
  refine .aside hm.1 rfl (fun _ hn => ?_) (forall_mem_cons.1 hws).1
  exact hb ▸ mem_append_right _ (mem_append_left _ hn)

section

variable {script : Script} (hcompile : script.compile = .ok program) {room : Nat} {limits : Limits} {mode : Mode}
  {input : List String}

include hcompile

theorem Script.functions_scoped : ∀ c ∈ program.functions, c.Scoped := by
  refine Inherited.functions (fun c hco i hi => ?_) (Script.compile_scoped hcompile)
  obtain ⟨-, -, hc⟩ := hco
  rcases mem_append.1 hi with h | h
  · exact hc true i h
  · exact hc false i h

/-- **Every reachable state is in scope.** -/
theorem Reached.inScope (h : Reached program rounds limits mode input room task m) : task.InScope program m := by
  have hs := Script.functions_scoped hcompile
  have hin := invoke_keepsScope hs rounds
  have hr := keepsScope_lockstepOn program
  have he {n} room e := (hr n).eval (hin room n) e (.inr (hr n).toAlongside)
  have hre {n} room es := (hr n).evalAll (hin room n) es (.inr (hr n).toAlongside)
  induction h with
  | start => exact .start program limits mode input
  | @next _ _ _ i _ _ _ _ hex ih =>
    obtain ⟨hi, -⟩ := forall_mem_append.1 ih.defines
    have hm' := ih.machine.ok ((hr _).exec (hin _ _) rounds i hi fun _ => mem_append_left _) hex
    exact ih.step hm'.1 (subset_append_right _ _) rfl (subset_append_right _ _) trivial
  | value _ _ ih => exact .aside (ih.machine.setLine _) rfl (nil_subset _) trivial
  | target _ hva ih =>
    obtain ⟨hm', hv⟩ := ih.machine.ok_at (he _ _) hva
    exact .aside hm' rfl (subset_append_left _ _) hv
  | branch _ hva ih => exact ih.branch (ih.machine.ok_at (he _ _) hva).1 _
  | loop _ ih =>
    exact ih.step (ih.machine.setLine _) (subset_append_left _ _) rfl (subset_append_left _ _) trivial
  | condition _ ih | container _ ih => exact .aside ⟨ih.machine, rfl⟩ rfl (nil_subset _) trivial
  | round _ hva _ ih =>
    have hm' := ih.machine.ok (he _ _) hva
    exact ih.step hm'.1 (List.Subset.refl _) rfl (List.Subset.refl _) trivial
  | again _ hva _ hex _ ih =>
    have hm' := (ih.machine.ok (he _ _) hva).1
    have hm'' := hm'.1.ok ((hr _).execBlock (hin _ _) rounds _ ih.defines fun _ => id) hex
    exact ih.step (hm'.trans hm''.1) (List.Subset.refl _) rfl (List.Subset.refl _) trivial
  | iterate _ hva hes ih =>
    obtain ⟨hm', hv⟩ := ih.machine.ok_at (he _ _) hva
    exact ih.step hm' (subset_append_left _ _) rfl (subset_append_left _ _) (hm'.1.heap.elements hv _ hes)
  | element _ hn ho ih =>
    have hm' := ih.machine.ok ((hr _).openRound _ _) ho
    exact .aside hm'.1 rfl (subset_append_left _ _) (ih.holds.next? hn).1
  | elementRound _ hn hbe ih =>
    have hv := (ih.holds.next? hn).1
    have hm' := ih.machine.ok ((hr _).beginRound (hin _ _) _ _ (fun _ => mem_append_left _) hv) hbe
    exact ih.step hm'.1 (subset_append_right _ _) rfl (List.Subset.refl _) trivial
  | elementAgain _ hn hbe hex _ ih =>
    obtain ⟨hv, hes⟩ := ih.holds.next? hn
    have hm' := (ih.machine.ok ((hr _).beginRound (hin _ _) _ _ (fun _ => mem_append_left _) hv) hbe).1
    have hm'' := hm'.1.ok ((hr _).execBlock (hin _ _) rounds _ ih.defines fun _ => mem_append_right _) hex
    exact ih.step (hm'.trans hm''.1) (List.Subset.refl _) rfl (List.Subset.refl _) hes
  | part _ _ hvl ih => exact .aside (ih.machine.ok (hre _ _) hvl).1 rfl (nil_subset _) trivial
  | index _ hva ih => exact .aside (ih.machine.ok (he _ _) hva).1 rfl (nil_subset _) trivial
  | unpacked _ hu ha ih => exact ih.unpacked (hin _) hu ha
  | call _ hf ha hk ih =>
    obtain ⟨hm1, hco⟩ := ih.machine.ok (he _ _) hf
    obtain ⟨hm2, hvs⟩ := hm1.1.ok (hre _ _) ha
    obtain ⟨hm3, hks⟩ := hm2.1.ok ((hr _).evalKeywords (hin _ _) _ (.inr (hr _).toAlongside)) hk
    exact .aside (hm1.trans (hm2.trans hm3)) rfl (nil_subset _) ⟨hco.code, hvs, hks⟩
  | @body _ code args keywords locals ticket _ m _ hbi _ ih =>
    obtain ⟨hco, ha, hk⟩ := ih.holds
    have hcl := ih.machine.called_ hco (hs code hco) (code.bind_holds ha hk locals hbi)
      (code.bind_names args keywords locals hbi)
    obtain ⟨-, hb, -⟩ := hs code hco
    exact ⟨(hcl _).mono (hb ticket.traced), trivial, List.Subset.refl _⟩

theorem Reached.confined_exec (h : Reached program rounds limits mode input room (.block p t (i :: is)) m) :
    (after (exec (Eval.invoke rounds room) rounds i) m).Confined := by
  have hin := h.inScope hcompile
  have hi := (forall_mem_append.1 hin.defines).1
  have hiv := invoke_keepsScope (Script.functions_scoped hcompile) rounds room
  have he := (keepsScope_lockstepOn program (· ∈ blockBinds (i :: is))).exec (hiv _) rounds i hi
    fun _ => mem_append_left _
  exact (he.after hin.machine).1.confined

omit hcompile in
theorem Machine.value_cons {c : Call} (hc : m.calls = c :: r) (x : String) : m.value x = (c.locals.lookup x).elim
      (if c.code.locals.contains x then .error (.unboundLocal x) else m.globalValue x) .ok := by
  unfold Machine.value
  rw [hc]
  dsimp only
  cases c.locals.lookup x with
  | some v => rfl
  | none => rfl

omit hcompile in
/-- **Whether a name is a function's own does not depend on what has run.** In every state that a run comes to, and
however the next instruction ends, the variables of every call are among the names that were collected for its function.
So in the innermost call a name of its function has the value that the call has bound it to, or none because the call
has not bound it yet, and any other name has the value that it has outside all functions. -/
theorem Script.names_static {script : Script} (hcompile : script.compile = .ok program) {room : Nat} {task : Task}
    {m : Machine} (h : Reached program rounds limits mode input room task m) : m.Confined
    ∧ (∀ place traced i is, task = .block place traced (i :: is) →
      (Eval.after (Eval.exec (Eval.invoke rounds room) rounds i) m).Confined)
    ∧ ∀ call rest, m.calls = call :: rest → ∀ name, (name ∈ call.code.locals →
        m.value name = (call.locals.lookup name).elim (.error (.unboundLocal name)) .ok)
      ∧ (name ∉ call.code.locals → m.value name = { m with calls := [] }.value name) := by
  have hconfined := (h.inScope hcompile).machine.confined
  refine ⟨hconfined, ?_, fun call rest hcalls name => ⟨fun hname => ?_, fun hname => ?_⟩⟩
  · rintro place traced i is rfl
    exact h.confined_exec hcompile
  · rw [Machine.value_cons hcalls, if_pos (List.contains_iff_mem.2 hname)]
  · have hlookup : call.locals.lookup name = none := by
      refine List.lookup_eq_none_iff.2 fun x hx => bne_iff_ne.2 ?_
      rintro rfl
      exact hname (hconfined call (hcalls ▸ List.mem_cons_self) x hx)
    rw [Machine.value_cons hcalls, hlookup, if_neg fun hmem => hname (List.contains_iff_mem.1 hmem)]
    rfl

end

/-! ## A name that is not bound yet -/

/-- A function that binds a name of the file in a branch that is not taken, and then returns it. -/
def shadowing : Script :=
  [.assignment [.name "x"] [.bool true],
    .function "f" none [] [.assignment [.tuple [[.name "y"], [.name "z"]]] [.tuple [[.bool true], [.none]]],
      .conditional [.name "z"] [.assignment [.name "x"] [.name "y"]] [], .return_ [.name "x"]],
    .expression [.call "f" []]]

/-- The function of `shadowing`: `x`, `y` and `z` are its names. -/
def shadowingFunction : FunctionCode :=
  ⟨0, "f", "f", [], ["y", "z", "x"], [.at 2 (.assign (.unpack [.name "y", .name "z"])
        (.log (some .assignment) (.tuple [.const (.bool true), .const .none]))),
      .at 3 (.branch (.logStart .if_ "condition" (.name "z"))
        [.at 3 (.childSet "trueblock"), .at 4 (.assign (.name "x") (.log (some .assignment) (.name "y")))] []),
      .at 3 .endFrame,
      .at 5 (.return_ (.logEnd .return_ .functionCall (.name "x"))),
      .at 1 .endFrame],
    [.at 2 (.assign (.unpack [.name "y", .name "z"]) (.tuple [.const (.bool true), .const .none])),
      .at 3 (.branch (.name "z") [.at 4 (.assign (.name "x") (.name "y"))] []),
      .at 5 (.return_ (.name "x"))]⟩

def shadowingCode : Program where
  body :=
    [.at 1 (.assign (.name "x") (.log (some .assignment) (.const (.bool true)))), .at 2 (.define shadowingFunction),
      .at 7 (.eval (.log (some .expression) (.call (.name "f") [] [])))]

/-- Where the call in `shadowing` returns, `y` and `z` are bound and `x` is not, although the file has bound it; the
name of the function itself has the value that it has in the file. -/
theorem names_static_shadowing : shadowing.compile = .ok shadowingCode
    ∧ ∃ m call, Reached shadowingCode 1 { recursion := 1 } .command [] 0
        (.block .function true (shadowingFunction.traced.drop 3)) m
      ∧ m.calls = [call] ∧ call.locals.map (·.1) = ["y", "z"] ∧ m.Confined
      ∧ m.value "x" = .error (.unboundLocal "x") ∧ m.globalValue "x" = .ok (.bool true)
      ∧ m.value "f" = .ok (.function shadowingFunction) := by
  have hcompile : shadowing.compile = .ok shadowingCode := rfl
  have hfile : Reached shadowingCode 1 { recursion := 1 } .command [] 1 _ _ := .start
  have hvalue := ((hfile.next rfl).next rfl).value rfl
  have hcall := (hvalue.part (rfl : _ = [] ++ _ :: []) rfl).call rfl rfl rfl
  have hbody := hcall.body rfl rfl
  have hreturn := ((hbody.next rfl).next rfl).next rfl
  obtain ⟨hconfined, -, hnames⟩ := Script.names_static hcompile hreturn
  obtain ⟨hown, -⟩ := hnames _ [] rfl "x"
  obtain ⟨-, hother⟩ := hnames _ [] rfl "f"
  exact ⟨hcompile, _, _, hreturn, rfl, rfl, hconfined, hown (by decide), rfl, (hother (by decide)).trans rfl⟩

end Playback
