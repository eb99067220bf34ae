import Playback.Proofs.Lockstep

/-!
# The names of a function

The names of a function are collected from its statements (`boundNames`); what code binds when it runs stands in its
instructions (`blockBinds`). Lowering makes the two agree (`Lower.binding_rules`), in both bodies of a function, so every
function of a compiled script has among its names its parameters and whatever its bodies can bind
(`FunctionCode.Scoped`).
-/

namespace Playback

open List

theorem blockBinds_append (xs ys : List Instr) : blockBinds (xs ++ ys) = blockBinds xs ++ blockBinds ys := by
  induction xs with
  | nil => rfl
  | cons i r ih => rw [cons_append, blockBinds, blockBinds, ih, append_assoc]

theorem blockBinds_iterationBody (l : Nat) (b : List Instr) : blockBinds (Lower.iterationBody l b) = blockBinds b := by
  simp [Lower.iterationBody, blockBinds, Instr.binds, Action.binds, blockBinds_append]

/-- The parameters of a function and what its bodies bind are among its names, and so for the functions that it
defines. -/
inductive FunctionCode.Scoped : FunctionCode → Prop where
  | intro {code : FunctionCode} (params : ∀ name ∈ code.params, name ∈ code.locals)
      (binds : ∀ traced : Bool, ∀ name ∈ blockBinds (if traced then code.traced else code.plain), name ∈ code.locals)
      (codes : ∀ traced : Bool, ∀ c ∈ blockCodes (if traced then code.traced else code.plain), c.Scoped) :
      code.Scoped

namespace Lower

/-! ## Targets -/

theorem target_names : TargetRules (fun t u => u.binds = targetNames t) (fun row us => targetsBind us = rowNames row)
    fun rows us => targetsBind us = rowsNames rows where
  name _ := rfl
  subscript _ _ := rfl
  tuple h := h
  list h := h
  bracket h := (append_nil _).symm.trans h
  nil := rfl
  cons hu hr := congrArg₂ (· ++ ·) hu hr
  none := rfl
  empty hr := hr
  row hu hr := congrArg₂ (· ++ ·) ((append_nil _).symm.trans hu) hr

theorem targets_bind (ts : List Token) : Yields (targets ts) (·.binds = rowNames ts) := by
  intro u hu
  rcases target_names.of_targets ts u hu with h | ⟨us, rfl, h⟩
  · exact (append_nil _).symm.trans h
  · exact h

/-! ## Statements -/

/-- Code binds these names, and the functions that it defines are scoped. -/
structure Binding (ns : List String) (is : List Instr) : Prop where
  binds : blockBinds is = ns
  codes : ∀ code ∈ blockCodes is, code.Scoped

theorem Binding.nil : Binding [] [] :=
  ⟨rfl, nofun⟩

theorem Binding.append (his : Binding ns is) (hjs : Binding more js) : Binding (ns ++ more) (is ++ js) where
  binds := by rw [blockBinds_append, his.binds, hjs.binds]
  codes := by
    rw [blockCodes_append]
    exact forall_mem_append.2 ⟨his.codes, hjs.codes⟩

theorem Binding.of_eq (h : Binding ns is) (hb : blockBinds js = blockBinds is)
    (hc : blockCodes js = blockCodes is) : Binding ns js :=
  ⟨hb.trans h.binds, hc ▸ h.codes⟩

theorem Binding.single (l : Nat) (action : Action) (hb : action.binds = ns) (hco : action.codes = []) :
    Binding ns [.at l action] where
  binds := (append_nil _).trans hb
  codes code hc := by
    have hn : blockCodes [.at l action] = [] := by rw [blockCodes, Instr.codes, hco]; rfl
    rw [hn] at hc
    cases hc

theorem Binding.framed (t : Bool) (k : Trace.Kind) (l : Nat)
    (hb : action.binds = ns) (hc : action.codes = []) : Binding ns (framed t k l action) := by
  have hs := Binding.single l action hb hc
  cases t with
  | false => exact hs
  | true => exact hs.of_eq rfl rfl

theorem Binding.branch (hb : Binding ns b) (ho : Binding more orelse)
    (l : Nat) (c : Expr) : Binding (ns ++ more) [.at l (.branch c b orelse)] := by
  have hbo := hb.append ho
  exact hbo.of_eq ((append_nil _).trans (blockBinds_append b orelse).symm)
    ((append_nil _).trans (blockCodes_append b orelse).symm)

theorem Binding.iterate (ht : t.binds = ns)
    (hb : Binding more b) (l : Nat) (e : Expr) : Binding (ns ++ more) [.at l (.iterate t e b)] where
  binds := (append_nil _).trans (congrArg₂ (· ++ ·) ht hb.binds)
  codes := by
    have hc : blockCodes [.at l (.iterate t e b)] = blockCodes b := append_nil _
    exact hc ▸ hb.codes

theorem Binding.iterationBody (h : Binding ns b) (l : Nat) : Binding ns (iterationBody l b) :=
  h.of_eq (blockBinds_iterationBody l b) (blockCodes_iterationBody l b)

theorem Binding.leave (t : Bool) (hb : action.binds = []) (hc : action.codes = []) :
    Binding [] (if t then [.at l .endLoop, .at l action] else [.at l action]) := by
  cases t with
  | true => exact (Binding.single l .endLoop rfl rfl).append (.single l _ hb hc)
  | false => exact .single l _ hb hc

theorem Binding.conditional (hb : ∀ t, Binding ns (emitAll t b)) (hl : ∀ t, Binding more (Links.emit t ls)) (t : Bool) :
    Binding (ns ++ more) ((Plan.conditional l c b ls).emit t) := by
  cases t with
  | false => exact (hb false).branch (hl false) l c
  | true =>
    have ho : Binding more (if ls.isDone then [] else .at l (.childSet "elseblocks") :: ls.emit true) := by
      cases ls with
      | done => exact hl true
      | elif | else_ => exact (hl true).of_eq rfl rfl
    have ht : Binding ns (.at l (.childSet "trueblock") :: emitAll true b) := (hb true).of_eq rfl rfl
    exact (ht.branch ho l _).of_eq rfl rfl

/-- A function whose names are its parameters and the names that its bodies bind. -/
theorem scoped_function (serial : Nat) (x id : String) (ps : List String)
    (ht : Binding ns t) (hp : Binding ns plain) : FunctionCode.Scoped
      (.mk serial x id ps (ps ++ ns).eraseDups (t ++ [.at 1 .endFrame]) plain) := by
  have he : Binding ns (t ++ [.at 1 .endFrame]) := by
    have ha := ht.append (.single 1 .endFrame rfl rfl)
    exact append_nil ns ▸ ha
  refine .intro (fun n hn => mem_eraseDups.2 (mem_append_left _ hn)) (fun b n hn => ?_) fun b => ?_
  · refine mem_eraseDups.2 (mem_append_right _ ?_)
    cases b with
    | true => exact he.binds ▸ hn
    | false => exact hp.binds ▸ hn
  · cases b with
    | true => exact he.codes
    | false => exact hp.codes

/-- **Lowered code binds the names that are collected from its statement.** -/
theorem binding_rules : BlockRules (fun _ s _ p _ => ∀ t, Binding (boundNames s) (p.emit t))
    (fun _ ss _ ps _ => ∀ t, Binding (blockNames ss) (emitAll t ps))
    fun _ ks _ ls _ => ∀ t, Binding (linkNames ks) (ls.emit t) where
  skip h _ := by rcases h with rfl | ⟨_, rfl⟩ | ⟨_, rfl⟩ <;> exact .nil
  eval _ _ := .single _ _ rfl rfl
  assign ht _ _ := .single _ _ (targets_bind _ _ ht) rfl
  conditional _ hb _ hl := .conditional hb hl
  whileLoop _ hb t := by
    cases t with
    | true => exact ((hb true).iterationBody _).of_eq (append_nil _) (append_nil _)
    | false => exact (hb false).of_eq (append_nil _) (append_nil _)
  forLoop ht _ hb t := by
    have hn := targets_bind _ _ ht
    cases t with
    | true => exact (Binding.iterate hn ((hb true).iterationBody _) _ _).of_eq rfl rfl
    | false => exact .iterate hn (hb false) _ _
  function x id params _ ht _ hp _ :=
    ⟨rfl, forall_mem_singleton.2 (scoped_function _ x _ params (ht true) (hp false))⟩
  return_ _ _ _ _ := .single _ _ rfl rfl
  break_ _ t := .leave t rfl rfl
  continue_ _ t := .leave t rfl rfl
  import_ _ t := .framed t _ _ rfl rfl
  fromImport _ _ t := .framed t _ _ rfl rfl
  nil _ := .nil
  cons _ hp hr t := (hp t).append (hr t)
  empty _ := .nil
  suite h := h
  done _ := .nil
  elif {_ _ _ _ _ _ _ ls _ c} _ hb _ hl t := by
    cases t with
    | true =>
      have ho : Binding _ (.at c.line .endFrame :: ls.emit true) := (hl true).of_eq rfl rfl
      exact ((hb true).iterationBody _).branch ho _ _
    | false => exact (hb false).branch (hl false) _ _
  else_ hb t := by
    cases t with
    | true => exact ((hb true).append (.single _ .endFrame rfl rfl)).of_eq rfl rfl
    | false =>
      rw [linkNames, linkNames, append_nil]
      exact hb false

end Lower

theorem Script.compile_scoped {s : Script} (h : s.compile = .ok p) : ∀ c ∈ blockCodes p.body, c.Scoped := by
  obtain ⟨r, hp, hb⟩ := Script.compile_ok h
  rw [hb]
  exact (Lower.binding_rules.of_block _ s _ r hp true).codes

end Playback
