import Playback.Proofs.Statements

/-!
# Conditionals in the record of a run

Where iterations are not limited and no exception is raised, the frame of a conditional shows which way it went
(`Script.branches_recorded`): it has the value of the condition, and then the block, if the value holds, or what the
conditional came to of its links. `LinkRecords` says what that is, link by link as they stand in the source.
-/

namespace Playback

open Eval Machine

open Lower (Plan Links Place Lowered emitAll)
open Trace (FrameRecord EntryRecord)

/-! ## The records of links -/

/-- The records of what a conditional comes to of its links, from a state on: one frame for each `elif`, with the value
of its condition, until one of the values holds, whose frame then has a block; and one with a block for the `else`, if
none holds. -/
inductive LinkRecords (f : Invoke) : List Link → Machine → List FrameRecord → Prop where
  | done (m : Machine) : LinkRecords f [] m []
  | passed : Resolve.value "PYTHON_ELIF_STATEMENT" "condition" condition = .ok c →
    eval f c (m.setLine line) = .ok v m₁ → m₁.heap.truthy v = false → TracedLoop.Shows (v, m₁.heap) entry →
    LinkRecords f rs ((m₁.openFor .elif "condition" v).closeFrame line) records →
    LinkRecords f (.elif condition body :: rs) m (⟨.elif, [("condition", [entry])]⟩ :: records)
  | taken : Resolve.value "PYTHON_ELIF_STATEMENT" "condition" condition = .ok c →
    eval f c (m.setLine line) = .ok v m₁ → m₁.heap.truthy v = true → TracedLoop.Shows (v, m₁.heap) entry →
    LinkRecords f (.elif condition body :: rs) m [⟨.elif, [("condition", [entry]), ("block", block)]⟩]
  | else_ (m : Machine) : LinkRecords f [.else_ body] m [⟨.else_, [("block", block)]⟩]

variable {limits : Limits} {links : List Link} {place : Place}

namespace Lower

variable {c c' : Counter}

theorem lift_ok {α : Type} {e : Except CompileError α} {a : α} (h : (liftM e : M α) c = .ok (a, c')) : e = .ok a := by
  cases e with
  | error e => cases h
  | ok _ => cases h; rfl

variable {condition : Expression} {body : List Statement}

/-- The links after an `elif` are asked for only if the value of its condition does not hold. -/
theorem linkRecords_elif (he : Resolve.value "PYTHON_ELIF_STATEMENT" "condition" condition = .ok e)
    (hrest : ∀ f m xs records, ls.comes f m = some xs → List.Forall₂ Came.Recorded xs records → LinkRecords f rs m records)
    (hc : (Links.elif l e ps ls).comes f m = some xs) (hre : List.Forall₂ Came.Recorded xs records) :
    LinkRecords f (.elif condition body :: rs) m records := by
  cases hev : eval f e (m.setLine l) with
  | error _ m₁ =>
    rw [Links.comes, hev] at hc
    cases hc
  | ok v m₁ =>
    rw [Links.comes_elif hev] at hc
    cases ht : m₁.heap.truthy v with
    | true =>
      rw [ht] at hc
      cases hc
      cases hre with
      | cons hr hn =>
        cases hn
        obtain ⟨en, hs, hr⟩ := hr
        rw [if_pos ht] at hr
        obtain ⟨b, rfl⟩ := hr
        exact .taken he hev ht hs
    | false =>
      rw [ht] at hc
      obtain ⟨_, hi, rfl⟩ := Option.map_eq_some_iff.1 hc
      cases hre with
      | cons hr hm =>
        obtain ⟨en, hs, hr⟩ := hr
        rw [if_neg (Bool.eq_false_iff.1 ht)] at hr
        rw [hr]
        exact .passed he hev ht hs (hrest _ _ _ _ hi hm)

/-- **What a conditional comes to of its links is recorded link by link**, and only conditionals are planned as such. -/
theorem branch_rules : BlockRules
    (fun _ s _ p _ => ∀ branch, p.branch? = some branch → ∃ condition body links, s = .conditional condition body links)
    (fun _ _ _ _ _ => True)
    fun _ ks _ ls _ => ls.isDone = ks.isEmpty ∧ ∀ f m xs records, ls.comes f m = some xs →
      List.Forall₂ Came.Recorded xs records → LinkRecords f ks m records where
  skip _ := nofun
  eval _ := nofun
  assign _ _ := nofun
  conditional _ _ _ _ _ _ := ⟨_, _, _, rfl⟩
  whileLoop _ _ := nofun
  forLoop _ _ _ := nofun
  function _ _ _ _ _ _ _ := nofun
  return_ _ _ _ := nofun
  break_ _ := nofun
  continue_ _ := nofun
  import_ _ := nofun
  fromImport _ _ := nofun
  nil := trivial
  cons _ _ _ := trivial
  empty := trivial
  suite h := h
  done := by
    refine ⟨rfl, fun f m xs records hc hre => ?_⟩
    cases hc
    cases hre
    exact .done m
  elif he _ _ hls := ⟨rfl, fun _ _ _ _ => linkRecords_elif he hls.2⟩
  else_ _ := by
    refine ⟨rfl, fun f m xs records hc hre => ?_⟩
    cases hc
    cases hre with
    | cons hr hn =>
      cases hn
      obtain ⟨b, rfl⟩ := hr
      exact .else_ m

theorem plan_conditional {p : Plan} (h : plan place (.conditional condition body links) c = .ok (p, c')) :
    ∃ l e ps ls c1, p = .conditional l e ps ls ∧ Resolve.value "PYTHON_IF_STATEMENT" "condition" condition = .ok e
      ∧ planLinks place links c1 = .ok (ls, c') := by
  obtain ⟨l, c1, -, h⟩ := bind_ok h
  obtain ⟨e, _, he, h⟩ := bind_ok h
  obtain ⟨ps, c3, -, h⟩ := bind_ok h
  obtain ⟨ls, _, hl, h⟩ := bind_ok h
  cases h
  exact ⟨l, e, ps, ls, c3, rfl, lift_ok he, hl⟩

end Lower

/-! ## The record of a conditional -/

/-- The record of a conditional with links whose condition has a value: it has that value, and a block if the value
holds; if it does not and there are links, it has what the conditional comes to of them. -/
def IfRecord (f : Invoke) (links : List Link) (line : Nat) (v : Value) (m : Machine) (r : FrameRecord) : Prop :=
  ∃ entry, TracedLoop.Shows (v, m.heap) entry ∧
    if m.heap.truthy v then ∃ block, r = ⟨.if_, [("condition", [entry]), ("trueblock", block)]⟩
    else if links.isEmpty then r = ⟨.if_, [("condition", [entry])]⟩
    else ∃ records : List FrameRecord, r = ⟨.if_, [("condition", [entry]), ("elseblocks", records.map .frame)]⟩
      ∧ LinkRecords f links ((m.openFor .if_ "condition" v).turnTo line "elseblocks") records

/-- A conditional in traced code has a condition and links from the source. -/
def TracedIf.Of (branch : TracedIf) (condition : Expression) (links : List Link) : Prop :=
  Resolve.value "PYTHON_IF_STATEMENT" "condition" condition = .ok branch.condition
    ∧ ∃ place c c', Lower.planLinks place links c = .ok (branch.links, c')

variable {condition : Expression} {body : List Statement} {c c' : Lower.Counter} {branch : TracedIf}

theorem TracedIf.of_plan (h : Lower.plan place (.conditional condition body links) c = .ok (p, c'))
    (hb : p.branch? = some branch) : branch.Of condition links := by
  obtain ⟨l, e, _, _, c1, rfl, he, hl⟩ := Lower.plan_conditional h
  cases hb
  exact ⟨he, place, c1, c', hl⟩

theorem BranchRecord.ifRecord (hof : branch.Of condition links)
    (h : BranchRecord (!branch.links.isDone) (v, m.heap) (branch.comes f v m) r) :
    IfRecord f links branch.line v m r := by
  obtain ⟨-, _, c, _, hl⟩ := hof
  obtain ⟨e, hs, hre⟩ := h
  refine ⟨e, hs, ?_⟩
  obtain ⟨hd, hre'⟩ := Lower.branch_rules.of_links _ links c _ hl
  rw [hd] at hre
  cases ht : m.heap.truthy v with
  | true => rwa [if_pos ht] at hre
  | false =>
    rw [if_neg (Bool.eq_false_iff.1 ht)] at hre
    cases he : links.isEmpty with
    | true => rwa [he] at hre
    | false =>
      rw [he] at hre
      obtain ⟨_, records, hc, hr, hi⟩ := hre
      exact ⟨records, hr, hre' _ _ _ _ hc hi⟩

/-! ## Conditionals that code comes to -/

/-- A conditional that a run comes to records its condition and the branch taken in the frame that it opens. -/
theorem Reached.conditional_recorded {script : Script} (hco : script.compile = .ok p)
    (hlimits : limits.iterations = none) {input : List String} (h : Reached p rounds limits mode input k t m)
    (hs : Lower.statement place true (.conditional condition body links) c = .ok (d, c')) :
    Ends (execBlock (invoke rounds k) rounds d) m
      (fun _ m' => ∃ l e v m₁, Resolve.value "PYTHON_IF_STATEMENT" "condition" condition = .ok e
        ∧ eval (invoke rounds k) e (m.setLine l) = .ok v m₁
        ∧ ∀ later, IfRecord (invoke rounds k) links l v m₁ ((m'.trace.applyAll later).frame m₁.trace.frames.size))
      fun _ => True := by
  obtain ⟨q, hpl, hcd⟩ := Lower.statement_ok.1 hs
  have hp := Lower.proper_rules.of_plan place _ c _ hpl
  have hm := h.inRun hco hlimits
  have hl := Ledger.blank_serves rounds (h.iterationLimit.trans hlimits) h.arena limits.recursion k
  have ho := plan_obeys hl.settles rounds hp m hm.sound
  have hr := (Records.execBlock (invoke_records rounds k) rounds d).ends m
  rw [hcd] at ho
  obtain ⟨l, e, ps, ls, _, rfl, he, _⟩ := Lower.plan_conditional hpl
  obtain ⟨hc, hbo, hfi⟩ := hp
  let branch : TracedIf := ⟨l, e, emitAll true ps, ls⟩
  have hof : branch.Of condition links := TracedIf.of_plan hpl rfl
  have hbl := Ledger.plans_trace hl hbo fun _ _ => trivial
  have hen := Ledger.branch_end branch hl.spares hm hc (hbl.keeps hl hbo)
    (Ledger.links_count hl hfi fun _ _ => trivial)
  have hbr : branch.code = d := by
    rw [← hcd]
    rfl
  rw [hbr] at hen
  refine (ho.and (hr.and hen)).mono ?_ fun _ _ => trivial
  rintro _ m' ⟨hle, hpe, -, v, m₁, hev, hf, -⟩
  refine ⟨l, e, v, m₁, he, hev, fun later => ?_⟩
  have ha := (hm.later hle.later hpe).arena
  have hlv := (((eval_settles hl.settles e hc).stays.ends_level (.setLine hm.sound l)).ok hev).2
  have hla := hf.later fun i hlo hi =>
    hle.frames_kept hm.sound ha later i (Nat.le_trans hlv.later.frames.size hlo) hi
  exact (hla.recorded (ha.moves (m'.trace.moves_applyAll later))).ifRecord hof

/-! ## The frames of conditionals in a record -/

section

variable (script : Script) (rounds : Nat) (hlimits : limits.iterations = none) (mode : Mode) (input : List String)

/-- A frame is that of a conditional of the script, started in a state of the run. -/
def Script.BranchFrame (limits : Limits) (t : Trace) (id : Nat) : Prop :=
  ∃ condition body links, Statement.conditional condition body links ∈ script.statements ∧
    ∃ (branch : TracedIf) (room : Nat) (past : List Trace.Step) (start : Machine) (v : Value) (m : Machine),
      branch.Of condition links ∧ room + start.calls.length = limits.recursion
      ∧ (ready limits mode input).Performs past start
      ∧ eval (invoke rounds room) branch.condition (start.setLine branch.line) = .ok v m
      ∧ BranchFramed (!branch.links.isDone) (v, m.heap) (branch.comes (invoke rounds room) v m) t id

variable {script rounds mode input} in
theorem Script.BranchFrame.later {id : Nat} (h : script.BranchFrame rounds mode input limits t id)
    (hl : t.SameFrom id t') : script.BranchFrame rounds mode input limits t' id := by
  obtain ⟨condition, body, links, hs, branch, k, past, start, v, m, hof, hr, hp, he, hf⟩ := h
  exact ⟨condition, body, links, hs, branch, k, past, start, v, m, hof, hr, hp, he, hf.later hl⟩

/-- The ledger of the conditionals of a script. After an exception it says nothing. -/
def Script.branchLedger : Ledger where
  rounds
  start := ready limits mode input
  unlimited := ready_unlimited hlimits mode input
  arena := ready_arena limits mode input
  recursion := limits.recursion
  holds b t id := b = true → t.kindOf id = .if_ → script.BranchFrame rounds mode input limits t id
  later h hid hl hb hk :=
    (h hb ((Trace.kindOf_congr (hl _ (Nat.le_refl _) hid)).symm.trans hk)).later hl
  of_well h _ := h rfl
  other ho _ hk := by
    rw [hk] at ho
    cases ho
  conditional _ hb := absurd hb Bool.false_ne_true

theorem Script.branchLedger_explains : (script.branchLedger rounds hlimits mode input).Explains
    (Lower.Defined script.statements) (Plan.Origin script.statements) where
  loop {_ loop _ _ _ _} _ _ _ _ hf _ hk := by
    rw [hf.kind] at hk
    cases loop <;> cases hk
  branch {plan branch room start m v _} ho hb hst he hf _ _ := by
    obtain ⟨s, hs, place, c, _, hp⟩ := ho
    obtain ⟨condition, body, links, rfl⟩ := Lower.branch_rules.of_plan place s c _ hp branch hb
    obtain ⟨past, hpa⟩ := hst.past
    exact ⟨condition, body, links, hs (Statement.mem_nested _), branch, room, past, start, v, m,
      TracedIf.of_plan hp hb, hst.room, hpa, he, hf⟩

end

/-! ## The theorem -/

/-- **Conditionals are recorded with the way that they go**, where iterations are not limited. A conditional that a run
comes to in traced code, and that ends without an exception, leaves a frame with one entry for the value of its
condition. Where the value holds, there is a block and nothing else; where it does not and there are links, there is
what `LinkRecords` says of them. Nothing that is done later changes any of it. In the record of a run that raises no
exception all frames of conditionals are such frames, of conditionals of the script and started in a state of the
run. -/
theorem Script.branches_recorded {script : Script} {program : Program} (hcompile : script.compile = .ok program)
    (rounds : Nat) {limits : Limits} (hlimits : limits.iterations = none) (mode : Mode) (input : List String) :
    (∀ (place : Place) (condition : Expression) (body : List Statement) (links : List Link) (c c' : Lower.Counter)
      (code after : List Instr) (room : Nat) (m m' : Machine) (flow : Flow),
      Lower.statement place true (.conditional condition body links) c = .ok (code, c') →
      Reached program rounds limits mode input room (.block place true (code ++ after)) m →
      Eval.execBlock (Eval.invoke rounds room) rounds code m = .ok flow m' →
      ∃ line e v m₁, Resolve.value "PYTHON_IF_STATEMENT" "condition" condition = .ok e
        ∧ Eval.eval (Eval.invoke rounds room) e (m.setLine line) = .ok v m₁
        ∧ ∀ later, IfRecord (Eval.invoke rounds room) links line v m₁
          ((m'.trace.applyAll later).frame m₁.trace.frames.size))
    ∧ ∀ flow m', Eval.execBlock (Eval.invoke rounds limits.recursion) rounds program.body
        (Machine.ready limits mode input) = .ok flow m' →
      ∀ r ∈ m'.execution.record.frames, r.kind = .if_ →
        ∃ condition body links, Statement.conditional condition body links ∈ script.statements ∧
          ∃ room past start line e v m₁, room + start.calls.length = limits.recursion
            ∧ (Machine.ready limits mode input).Performs past start
            ∧ Resolve.value "PYTHON_IF_STATEMENT" "condition" condition = .ok e
            ∧ Eval.eval (Eval.invoke rounds room) e (start.setLine line) = .ok v m₁
            ∧ IfRecord (Eval.invoke rounds room) links line v m₁ r := by
  refine ⟨fun place condition body links c c' code after room m m' flow hstatement hreached hok => ?_,
    fun flow m' hrun r hr hkind => ?_⟩
  · exact (hreached.conditional_recorded hcompile hlimits hstatement).ok hok
  · have hexplains := script.branchLedger_explains rounds hlimits mode input
    have hgood := (Script.run_settles hcompile hexplains rfl).ok hrun
    obtain ⟨_, hsteps⟩ := ((Records.execBlock (invoke_records rounds limits.recursion) rounds program.body).ends
      (Machine.ready limits mode input)).ok hrun
    have harena := hsteps.arena (Machine.ready_arena limits mode input)
    obtain ⟨id, hid, rfl, hkindOf⟩ := harena.mem_frames hr
    obtain ⟨condition, body, links, hs, branch, room, past, start, v, m, hof, hroom, hpast, heval, hframed⟩ :=
      hgood id (Nat.zero_le _) hid rfl (hkindOf.trans hkind)
    exact ⟨condition, body, links, hs, room, past, start, branch.line, branch.condition, v, m, hroom, hpast, hof.1,
      heval, (hframed.recorded harena).ifRecord hof⟩

/-- A conditional that comes to its `else`. -/
def chooser : Script :=
  [.assignment [.name "x"] [.number (.int 0)], .conditional [.name "x"] [.expression [.name "x"]]
      [.elif [.name "x"] [.expression [.name "x"]], .else_ [.expression [.name "x"]]]]

def chooserCode : Program :=
  chooser.code

/-- The record of `chooser` has a conditional with links. -/
theorem branches_recorded_chooser : ∃ m' r, chooser.compile = .ok chooserCode ∧ ({} : Limits).iterations = none
    ∧ Eval.execBlock (Eval.invoke 1 1000) 1 chooserCode.body (Machine.ready {} .command []) = .ok .normal m'
    ∧ r ∈ m'.execution.record.frames ∧ r.kind = .if_ ∧ r.sets.map (·.1) = ["condition", "elseblocks"]
    ∧ ∃ condition body links, Statement.conditional condition body links ∈ chooser.statements ∧
      ∃ room past start line e v m₁, room + start.calls.length = 1000
        ∧ (Machine.ready {} .command []).Performs past start
        ∧ Resolve.value "PYTHON_IF_STATEMENT" "condition" condition = .ok e
        ∧ Eval.eval (Eval.invoke 1 room) e (start.setLine line) = .ok v m₁
        ∧ IfRecord (Eval.invoke 1 room) links line v m₁ r := by
  have hcompile : chooser.compile = .ok chooserCode := rfl
  have hlimits : ({} : Limits).iterations = none := rfl
  have hcheck : Eval.endsNormally (Eval.execBlock (Eval.invoke 1 1000) 1 chooserCode.body)
      (Machine.ready {} .command []) (fun m' => m'.execution.record.frames.any fun r =>
        r.kind == .if_ && r.sets.map (·.1) == ["condition", "elseblocks"]) = true := by decide +kernel
  obtain ⟨m', hrun, hany⟩ := Eval.exists_of_endsNormally hcheck
  obtain ⟨r, hr, hshape⟩ := List.any_eq_true.1 hany
  simp only [Bool.and_eq_true, beq_iff_eq] at hshape
  obtain ⟨hkind, hsets⟩ := hshape
  obtain ⟨-, hframes⟩ := Script.branches_recorded hcompile 1 hlimits .command []
  exact ⟨m', r, hcompile, hlimits, hrun, hr, hkind, hsets, hframes _ m' hrun r hr hkind⟩

end Playback
