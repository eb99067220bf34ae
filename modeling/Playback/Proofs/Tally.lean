import Playback.Proofs.Roll

/-!
# The tally of calls

The trace counts a call when it begins and decides from the count whether the call is traced; if it is, a frame is filed
for it before anything else is. So the calls counted under an id are those on the roll, each has its place there as its
number, and the frames on file are those of the first, as many as are traced (`Program.calls_tallied`).
-/

namespace Playback

open List Program Machine

open Trace (Ticket)

/-- What is decided about a call when it begins. -/
def Admitted.ticket (call : Admitted) : Ticket :=
  (call.machine.trace.beginCall call.code.id).1

/-- The frame that is innermost when the body of a call starts. -/
def Admitted.frame (call : Admitted) : Nat :=
  (call.machine.called call.code call.locals).trace.top

def callsUnder (id : String) (calls : List Admitted) : List Admitted :=
  calls.filter (·.code.id = id)

/-! ## One call -/

namespace Admitted

variable (call : Admitted) (id : String)

theorem limit_called : (call.machine.called call.code call.locals).trace.callLimit = call.machine.trace.callLimit := by
  unfold called
  cases call.machine.traces call.code <;> rfl

theorem invocations_called : (call.machine.called call.code call.locals).trace.invocations id
    = call.machine.trace.invocations id + if id = call.code.id then 1 else 0 := by
  unfold called
  cases call.machine.traces call.code with
  | true => exact (Trace.invocations_startDetached ..).trans (Trace.invocations_beginCall ..)
  | false => exact Trace.invocations_beginCall ..

/-- A call that is traced files the frame that its body starts in, and no call files another. -/
theorem callsOf_called : (call.machine.called call.code call.locals).trace.callsOf id = call.machine.trace.callsOf id
    ++ if id = call.code.id ∧ call.machine.trace.invocations id < call.machine.trace.callLimit then [call.frame]
      else [] := by
  unfold Admitted.frame called
  cases ht : call.machine.traces call.code with
  | true =>
    have hl : call.machine.trace.invocations call.code.id < call.machine.trace.callLimit :=
      of_decide_eq_true ht
    have hf := Trace.callsOf_startDetached (call.machine.trace.beginCall call.code.id).2 .functionCall "body"
      call.code.id id
    rw [Trace.callsOf_beginCall] at hf
    refine hf.trans (congrArg (call.machine.trace.callsOf id ++ ·) ?_)
    by_cases hid : id = call.code.id
    · rw [if_pos hid, if_pos ⟨hid, hid ▸ hl⟩]
      rfl
    · rw [if_neg hid, if_neg fun h => hid h.1]
  | false =>
    have hl : ¬call.machine.trace.invocations call.code.id < call.machine.trace.callLimit :=
      of_decide_eq_false ht
    have hn : ¬(id = call.code.id ∧ call.machine.trace.invocations id < call.machine.trace.callLimit) := by
      rintro ⟨rfl, hlt⟩
      exact hl hlt
    rw [if_neg hn, append_nil]
    exact Trace.callsOf_beginCall ..

end Admitted

/-! ## All calls -/

theorem callsUnder_cons_self (call : Admitted) (r : List Admitted) :
    callsUnder call.code.id (call :: r) = call :: callsUnder call.code.id r :=
  filter_cons_of_pos (decide_eq_true rfl)

theorem callsUnder_cons_other {id : String} (hid : id ≠ call.code.id) (r : List Admitted) :
    callsUnder id (call :: r) = callsUnder id r :=
  filter_cons_of_neg (by simpa using Ne.symm hid)

namespace Begins

variable {calls : List Admitted} {m m' : Machine}

theorem invocations (h : Begins calls m m') (id : String) :
    m'.trace.invocations id = m.trace.invocations id + (callsUnder id calls).length := by
  induction h with
  | quiet hq => exact hq.invocations id
  | @call m _ call r hca _ _ =>
    have hc := call.invocations_called id
    rw [hca.invocations id] at hc
    by_cases hid : id = call.code.id
    · subst hid
      rw [callsUnder_cons_self, length_cons]
      rw [if_pos rfl] at hc
      omega
    · rw [callsUnder_cons_other hid]
      rw [if_neg hid] at hc
      omega

theorem ticket (h : Begins calls m m') {id : String} {call : Admitted}
    (hc : (callsUnder id calls)[i]? = some call) : call.ticket
      = ⟨m.trace.invocations id + i, decide (m.trace.invocations id + i < m.trace.callLimit)⟩ := by
  induction h generalizing i with
  | quiet _ => cases hc
  | @call m _ first r hf _ ih =>
    have hco := first.invocations_called id
    rw [hf.invocations id] at hco
    by_cases hid : id = first.code.id
    · subst hid
      rw [callsUnder_cons_self] at hc
      cases i with
      | zero =>
        cases hc
        unfold Admitted.ticket Trace.beginCall
        rw [hf.invocations, hf.limit, Nat.add_zero]
      | succ i =>
        rw [ih hc, hco, if_pos rfl, first.limit_called, hf.limit, Nat.add_right_comm, Nat.add_assoc]
    · rw [callsUnder_cons_other hid] at hc
      rw [ih hc, hco, if_neg hid, first.limit_called, hf.limit, Nat.add_zero]

/-- The frames of the first calls under an id are filed in turn, as many as are still traced. -/
theorem callsOf (h : Begins calls m m') (id : String) : m'.trace.callsOf id = m.trace.callsOf id
      ++ ((callsUnder id calls).take (m.trace.callLimit - m.trace.invocations id)).map Admitted.frame := by
  induction h with
  | quiet hq => rw [hq.callsOf id, callsUnder, filter_nil, take_nil, map_nil, append_nil]
  | @call r _ call m hc _ ih =>
    rw [ih, call.callsOf_called, call.limit_called, call.invocations_called, hc.callsOf, hc.limit,
      hc.invocations, append_assoc]
    congr 1
    by_cases hid : id = call.code.id
    · subst hid
      rw [callsUnder_cons_self, if_pos rfl]
      by_cases hl : m.trace.invocations call.code.id < m.trace.callLimit
      · -- this call takes the next place
        obtain ⟨left, hle⟩ : ∃ left, m.trace.callLimit - m.trace.invocations call.code.id = left + 1 :=
          ⟨m.trace.callLimit - m.trace.invocations call.code.id - 1, by omega⟩
        have hr : m.trace.callLimit - (m.trace.invocations call.code.id + 1) = left := by omega
        rw [if_pos ⟨rfl, hl⟩, hle, hr]
        rfl
      · -- no place is left, for this call or for later ones
        have hn : m.trace.callLimit - m.trace.invocations call.code.id = 0 := by omega
        have hr : m.trace.callLimit - (m.trace.invocations call.code.id + 1) = 0 := by omega
        rw [if_neg fun hp => hl hp.2, hn, hr]
        rfl
    · rw [callsUnder_cons_other hid, if_neg fun hp => hid hp.1, if_neg hid]
      rfl

end Begins

/-! ## Runs -/

def Trace.Record.invocations (record : Trace.Record) (id : String) : Nat :=
  ((record.detached.lookup id).map (·.invocations)).getD 0

theorem Trace.record_invocations (t : Trace) (id : String) : t.record.invocations id = t.invocations id := by
  unfold Trace.Record.invocations Trace.invocations Trace.record
  dsimp only
  induction t.detached with
  | nil => rfl
  | cons e r ih =>
    rw [map_cons, lookup_cons, lookup_cons]
    split
    · rfl
    · exact ih

/-- The trace at the end of a run, whether it comes to its end or an exception ends it; none if memory or the rounds of
its loops do not suffice. -/
def Program.lastTrace? (program : Program) (rounds : Nat) (limits : Limits) (mode : Mode) (input : List String) :
    Option Trace :=
  let body := Eval.execBlock (Eval.invoke rounds limits.recursion) rounds program.body
  match body (ready limits mode input) with
  | .ok _ m => some m.trace
  | .error (.raised fault) m => some (m.trace.logUncaught fault.kind.name fault.message)
  | .error _ _ => none

section

variable {program : Program} {rounds : Nat} {limits : Limits} {mode : Mode} {input : List String} {t : Trace}

theorem Program.run_of_lastTrace (h : program.lastTrace? rounds limits mode input = some t) :
    ∃ execution, program.run rounds limits mode input = some execution ∧ execution.record = t.record := by
  unfold lastTrace? at h
  unfold run
  dsimp only at h ⊢
  generalize Eval.execBlock (Eval.invoke rounds limits.recursion) rounds program.body
    (ready limits mode input) = outcome at h ⊢
  match outcome, h with
  | .ok _ m, rfl => exact ⟨_, rfl, rfl⟩
  | .error (.raised e) m, rfl => exact ⟨_, rfl, rfl⟩

/-- A run without a last trace leaves nothing, or nothing but the failure of memory. -/
theorem Program.run_of_no_lastTrace (h : program.lastTrace? rounds limits mode input = none) :
    program.run rounds limits mode input = none
      ∨ program.run rounds limits mode input = some (.failure limits "capacity overflow") := by
  unfold lastTrace? at h
  unfold run
  dsimp only at h ⊢
  generalize Eval.execBlock (Eval.invoke rounds limits.recursion) rounds program.body
    (ready limits mode input) = outcome at h ⊢
  cases outcome with
  | ok f m => cases h
  | error halt m =>
    cases halt with
    | raised e => cases h
    | capacity => exact .inr rfl
    | exhausted => exact .inl rfl

/-- The last trace has what the body of the program filed: an exception that ends it files nothing. -/
theorem Program.lastTrace_begins (h : program.lastTrace? rounds limits mode input = some t) : ∃ m : Machine, m.trace = t
      ∧ Begins (program.roll rounds limits mode input) (ready limits mode input) m := by
  have hm := block_makes rounds (invoke_makes rounds limits.recursion) program.body (ready limits mode input)
  unfold lastTrace? at h
  dsimp only at h
  unfold Eval.after at hm
  generalize Eval.execBlock (Eval.invoke rounds limits.recursion) rounds program.body
    (ready limits mode input) = outcome at h hm
  match outcome, h, hm with
  | .ok _ m, rfl, hm => exact ⟨m, rfl, hm⟩
  | .error (.raised e) m, rfl, hm =>
    refine ⟨{ m with trace := m.trace.logUncaught e.kind.name e.message }, rfl, hm.after ?_⟩
    exact .apply (.logUncaught e.kind.name e.message) rfl rfl

end

/-- **Every call is accounted for.** Whatever program is run, and within whatever limits: if memory and the rounds of
its loops suffice, then for every id the record counts the calls that were made under it, not those that were refused;
it has the frames of the first of them, in the order in which they started and as many as are traced; and the number on
the ticket of a call is its place among them, so a traced call has its own frame in the place that its ticket says. This
is so however the calls are nested, whether they fail or not, and whichever functions share the id. -/
theorem Program.calls_tallied (program : Program) (rounds : Nat) (limits : Limits) (mode : Mode) (input : List String) :
    (∀ t, program.lastTrace? rounds limits mode input = some t →
      (∃ execution, program.run rounds limits mode input = some execution ∧ execution.record = t.record)
      ∧ ∀ id,
        let calls := callsUnder id (program.roll rounds limits mode input)
        t.record.invocations id = calls.length
        ∧ (t.record.callsOf id).length = min (t.record.invocations id) limits.tracedCalls
        ∧ t.record.callsOf id = (calls.take limits.tracedCalls).map (fun call => t.frame call.frame)
        ∧ ∀ i call, calls[i]? = some call → call.ticket = ⟨i, decide (i < limits.tracedCalls)⟩
          ∧ (i < limits.tracedCalls → (t.record.callsOf id)[i]? = some (t.frame call.frame)))
    ∧ (program.lastTrace? rounds limits mode input = none → program.run rounds limits mode input = none
      ∨ program.run rounds limits mode input = some (.failure limits "capacity overflow")) := by
  refine ⟨fun t hlast => ⟨Program.run_of_lastTrace hlast, fun id => ?_⟩, Program.run_of_no_lastTrace⟩
  intro calls
  obtain ⟨m, rfl, hbegins⟩ := Program.lastTrace_begins hlast
  obtain ⟨-, -, hready, -⟩ := Machine.sound_ready (p := fun _ => True) limits mode input
  -- at the start nothing is counted or filed, and every call may still be traced
  have hinvocations : m.trace.record.invocations id = calls.length := by
    rw [Trace.record_invocations, hbegins.invocations id, hready]
    exact Nat.zero_add _
  have hfiled : m.trace.record.callsOf id
      = (calls.take limits.tracedCalls).map fun call => m.trace.frame call.frame := by
    rw [Trace.record_callsOf, hbegins.callsOf id, hready, List.map_append, List.map_map]
    rfl
  refine ⟨hinvocations, ?_, hfiled, fun i call hcall => ⟨?_, fun hi => ?_⟩⟩
  · rw [hfiled, hinvocations, List.length_map, List.length_take, Nat.min_comm]
  · rw [hbegins.ticket hcall, hready]
    change (⟨0 + i, decide (0 + i < limits.tracedCalls)⟩ : Ticket) = _
    rw [Nat.zero_add]
  · rw [hfiled, List.getElem?_map, List.getElem?_take_of_lt hi, hcall]
    rfl

/-- Two functions whose calls are filed under one id. The first gives one; the second calls it and then what it is
called with, and is called with itself. -/
@[irreducible] def sharedId : Program :=
  Script.code [.function "g" (some "k") [] [.return_ [.number (.int 1)]],
    .function "f" (some "k") ["x"] [.expression [.call "g" []], .return_ [.call "x" [.positional [.name "x"]]]],
    .expression [.call "f" [.positional [.name "f"]]]]

/-- Three calls are traced, and three may be nested. -/
def sharedIdLimits : Limits := { tracedCalls := 3, recursion := 3 }

/-- Five calls are made and the sixth is refused: the third is the second of `f`, which is made inside the first, and
its frame is the last on file. -/
theorem calls_tallied_sharedId : ∃ t call, sharedId.lastTrace? 1 sharedIdLimits .command [] = some t
      ∧ (callsUnder "k" (sharedId.roll 1 sharedIdLimits .command [])).map (·.code.name) = ["f", "g", "f", "g", "f"]
      ∧ (callsUnder "k" (sharedId.roll 1 sharedIdLimits .command []))[2]? = some call
      ∧ t.record.invocations "k" = 5 ∧ (t.record.callsOf "k").length = 3
      ∧ call.ticket = ⟨2, true⟩ ∧ (t.record.callsOf "k")[2]? = some (t.frame call.frame) := by
  have hnames : (callsUnder "k" (sharedId.roll 1 sharedIdLimits .command [])).map (·.code.name)
      = ["f", "g", "f", "g", "f"] := by decide +kernel
  have hends : (sharedId.lastTrace? 1 sharedIdLimits .command []).isSome = true := by decide +kernel
  obtain ⟨t, hlast⟩ := Option.isSome_iff_exists.1 hends
  have hlength : (callsUnder "k" (sharedId.roll 1 sharedIdLimits .command [])).length = 5 := by
    have hnames := congrArg List.length hnames
    rwa [List.length_map] at hnames
  obtain ⟨call, hcall⟩ : ∃ call, (callsUnder "k" (sharedId.roll 1 sharedIdLimits .command []))[2]? = some call :=
    ⟨_, List.getElem?_eq_getElem (by omega)⟩
  obtain ⟨-, htallied⟩ := (Program.calls_tallied sharedId 1 sharedIdLimits .command []).1 t hlast
  obtain ⟨hinvocations, hfiled, -, hplaces⟩ := htallied "k"
  obtain ⟨hticket, hplace⟩ := hplaces 2 call hcall
  rw [hlength] at hinvocations
  rw [hinvocations] at hfiled
  exact ⟨t, call, hlast, hnames, hcall, hinvocations, hfiled, hticket, hplace (by decide)⟩

end Playback
