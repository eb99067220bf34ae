import Mathlib.Data.List.Pairwise
import Playback.Proofs.Locals

/-!
# Which functions are the same

Two functions compare equal, and are the same, if they have the same number. In a program no two functions share a
number, so a declaration binds the same function in two calls exactly if it is the same body of the same function that
runs (`Script.nested_functions_compare`). A function that is called with a trace and without therefore binds two
functions by one declaration that are not equal (`nested_functions_differ`).
-/

namespace Playback

open List Script FunctionCode

open Lower (Place)

variable {f g c c' f' : FunctionCode} {captured captured' : Bool} {k k' n j ln : Nat} {script : Script}
variable {program : Program}

/-! ## Numbers stand for functions -/

theorem Heap.compare_functions (heap : Heap) (f g : FunctionCode) :
    heap.compare .eq (.function f) (.function g) = .ok (f.serial == g.serial)
      ∧ heap.compare .is (.function f) (.function g) = .ok (f.serial == g.serial) := by
  refine ⟨rfl, ?_⟩
  change Except.ok ("function" == "function" && f.serial == g.serial) = _
  simp

section

variable {script : Script} {program : Program} (hcompile : script.compile = .ok program)

include hcompile

theorem Script.nodup_serials : (program.functions.map serial).Nodup := by
  obtain ⟨n, hc⟩ := compile_counted hcompile
  rw [hc.serials]
  exact nodup_range'

theorem Script.eq_of_serial (hf : f ∈ program.functions) (hg : g ∈ program.functions)
    (h : f.serial = g.serial) : f = g :=
  inj_on_of_nodup_map (nodup_serials hcompile) hf hg h

theorem Script.eq_of_inner (hf : f ∈ program.functions) (hg : g ∈ program.functions)
    (hc : c ∈ f.inner) (hc' : c ∈ g.inner) : f = g := by
  have hn := program.functions_perm.nodup_iff.1 (nodup_serials hcompile).of_map
  have hi := nodup_flatMap.1 (nodup_append.1 hn).2.1
  by_contra hne
  have hs : Std.Symm (Function.onFun List.Disjoint inner) := ⟨fun _ _ => disjoint_comm.1⟩
  exact hi.2.forall hf hg hne hc hc'

theorem Script.nodup_inner (hf : f ∈ program.functions) : f.inner.Nodup := by
  have hn := program.functions_perm.nodup_iff.1 (nodup_serials hcompile).of_map
  exact (nodup_flatMap.1 (nodup_append.1 hn).2.1).1 f hf

end

/-! ## What a declaration binds -/

/-- The function that the declaration of a function binds that comes `k`-th in a body. -/
def FunctionCode.declared (code : FunctionCode) (captured : Bool) (k : Nat) : Option FunctionCode :=
  (blockCodes (code.body captured))[k]?

/-- The place of what both bodies of a function define among all that is inside it. -/
theorem FunctionCode.declared_inner (h : c.declared captured k = some f) :
    c.inner[if captured then k else (blockCodes c.traced).length + k]? = some f := by
  unfold inner
  cases captured with
  | true =>
    rw [List.getElem?_append_left]
    · exact h
    · exact (List.getElem?_eq_some_iff.1 h).1
  | false =>
    rw [if_neg Bool.false_ne_true, List.getElem?_append_right (Nat.le_add_right _ _), Nat.add_sub_cancel_left]
    exact h

/-- **Declarations bind the same function exactly if they are the same declaration in the same body of the same
function.** -/
theorem Script.declared_inj (hcompile : script.compile = .ok program)
    (hc : c ∈ program.functions) (hc' : c' ∈ program.functions) (h : c.declared captured k = some f)
    (h' : c'.declared captured' k' = some f') :
    f.serial = f'.serial ↔ k = k' ∧ captured = captured' ∧ c.serial = c'.serial := by
  have hi := List.mem_of_getElem? (declared_inner h)
  have hi' := List.mem_of_getElem? (declared_inner h')
  have hf : f ∈ program.functions := Program.mem_functions.2 (.inr ⟨c, hc, hi⟩)
  have hf' : f' ∈ program.functions := Program.mem_functions.2 (.inr ⟨c', hc', hi'⟩)
  constructor
  · intro hs
    obtain rfl := eq_of_serial hcompile hf hf' hs
    obtain rfl := eq_of_inner hcompile hc hc' hi hi'
    -- both are at one place among all that is inside the function, where the plain body comes after the traced one
    have hp := (List.getElem?_inj (List.getElem?_eq_some_iff.1 (declared_inner h)).1
      (nodup_inner hcompile hc)).1
      ((declared_inner h).trans (declared_inner h').symm)
    have hk := (List.getElem?_eq_some_iff.1 h).1
    have hk' := (List.getElem?_eq_some_iff.1 h').1
    cases captured <;> cases captured' <;>
      simp only [body, ↓reduceIte, Bool.false_eq_true, and_true] at hp hk hk' ⊢ <;> omega
  · rintro ⟨rfl, rfl, hs⟩
    obtain rfl := eq_of_serial hcompile hc hc' hs
    rw [Option.some.inj (h.symm.trans h')]

/-- **The two bodies of a function declare the same functions**, in the same order and with the same code. -/
theorem Script.declared_alike (hcompile : script.compile = .ok program) (hcd : c ∈ program.functions) :
    (blockCodes c.traced).map bare = (blockCodes c.plain).map bare := by
  obtain ⟨n, hco⟩ := compile_counted hcompile
  obtain ⟨_, _, ha, ht, hp⟩ := hco.bodies c hcd
  have hc := congrArg Lower.codesAll ha
  rw [Lower.codes_bareAll, Lower.codes_bareAll] at hc
  rw [ht, hp, blockCodes_append, codes_emitAll, codes_emitAll, ← hc]
  exact congrArg _ (append_nil _)

theorem Reached.declared (hcompile : script.compile = .ok program) {c : Call}
    (h : Reached program n l md i j (.block p captured (.at ln (.define f) :: is)) m) (hca : m.calls = c :: r) :
    c.code ∈ program.functions ∧ ∃ k, c.code.declared captured k = some f := by
  obtain ⟨hm, -, hco⟩ := h.inScope hcompile
  have hc := hm.called
  rw [hca] at hc hco
  exact ⟨hc _ mem_cons_self, mem_iff_getElem?.1 (hco mem_cons_self)⟩

/-- **When declarations bind the same function.** Take any two states of a run in which a call is about to execute a
declaration of a function. Both are declarations of the body that their call runs, the traced one if the call is
captured and the plain one if not, and these bodies declare the same functions in the same order. What the two bind
compares equal, and is the same, exactly if they are the same declaration, the same function is being called, and both
calls are captured or neither is. -/
theorem Script.nested_functions_compare {script : Script} {program : Program} (hcompile : script.compile = .ok program)
    {rounds : Nat} {limits : Limits} {mode : Mode} {input : List String} {room room' : Nat} {place place' : Place}
    {captured captured' : Bool} {line line' : Nat} {f f' : FunctionCode} {is is' : List Instr} {m m' : Machine}
    {call call' : Call} {rest rest' : List Call}
    (h : Reached program rounds limits mode input room (.block place captured (.at line (.define f) :: is)) m)
    (h' : Reached program rounds limits mode input room' (.block place' captured' (.at line' (.define f') :: is')) m')
    (hcalls : m.calls = call :: rest) (hcalls' : m'.calls = call' :: rest') :
    ∃ k k', call.code.declared captured k = some f ∧ call'.code.declared captured' k' = some f'
      ∧ (∀ i, (call.code.declared true i).map FunctionCode.bare = (call.code.declared false i).map FunctionCode.bare)
      ∧ ∀ (heap : Heap), ∀ op ∈ [CompareOp.eq, .is], heap.compare op (.function f) (.function f')
        = .ok (decide (k = k' ∧ captured = captured' ∧ call.code.serial = call'.code.serial)) := by
  obtain ⟨hcode, k, hk⟩ := h.declared hcompile hcalls
  obtain ⟨hcode', k', hk'⟩ := h'.declared hcompile hcalls'
  refine ⟨k, k', hk, hk', fun i => ?_, fun heap op hop => ?_⟩
  · unfold FunctionCode.declared
    rw [← List.getElem?_map, ← List.getElem?_map]
    exact congrArg (·[i]?) (Script.declared_alike hcompile hcode)
  · have hiff := Script.declared_inj hcompile hcode hcode' hk hk'
    obtain ⟨heq, his⟩ := heap.compare_functions f f'
    have hsame : (f.serial == f'.serial)
        = decide (k = k' ∧ captured = captured' ∧ call.code.serial = call'.code.serial) := by
      rw [← decide_eq_decide.2 hiff]
      rfl
    rw [← hsame]
    simp only [List.mem_cons, List.not_mem_nil, or_false] at hop
    rcases hop with rfl | rfl
    · exact heq
    · exact his

/-! ## One declaration, two functions -/

/-- A function that returns a function, called twice: are the two that come back equal? -/
def makers : Script :=
  [.function "make" none [] [.function "get" none [] [.return_ [.bool true]], .return_ [.name "get"]],
    .assignment [.name "a"] [.call "make" []],
    .assignment [.name "b"] [.call "make" []],
    .expression [.call "print" [.positional [.name "a", .operator "==", .name "b"]]]]

/-- The inner function of `makers`, by its number. -/
def makersInner (serial : Nat) : FunctionCode :=
  ⟨serial, "get", "get", [], [],
    [.at 2 (.return_ (.logEnd .return_ .functionCall (.const (.bool true)))), .at 1 .endFrame],
    [.at 2 (.return_ (.const (.bool true)))]⟩

/-- The outer function of `makers`: the inner one is number 1 in its traced body and number 2 in the plain one. -/
def makersOuter : FunctionCode :=
  ⟨0, "make", "make", [], ["get"],
    [.at 2 (.define (makersInner 1)), .at 4 (.return_ (.logEnd .return_ .functionCall (.name "get"))), .at 1 .endFrame],
    [.at 2 (.define (makersInner 2)), .at 4 (.return_ (.name "get"))]⟩

def makersCode : Program where
  body :=
    [.at 1 (.define makersOuter), .at 5 (.assign (.name "a") (.log (some .assignment) (.call (.name "make") [] []))),
      .at 6 (.assign (.name "b") (.log (some .assignment) (.call (.name "make") [] []))),
      .at 7 (.eval (.log (some .expression) (.call (.name "print") [.compare (.name "a") [(.eq, .name "b")]] [])))]

/-- Where both calls in `makers` are captured, or neither is, they return equal functions; where only the first one is,
they do not. -/
theorem nested_functions_differ : makers.compile = .ok makersCode
    ∧ (makersCode.run 1 { tracedCalls := 0 } .command []).map (·.output) = some "True\n"
    ∧ (makersCode.run 1 { tracedCalls := 2 } .command []).map (·.output) = some "True\n"
    ∧ (makersCode.run 1 { tracedCalls := 1 } .command []).map (·.output) = some "False\n" :=
  ⟨rfl, by decide +kernel⟩

/-- With one call captured, the two calls in `makers` come to the same declaration in different bodies. -/
theorem nested_functions_compare_makers : makers.compile = .ok makersCode
    ∧ ∃ m m' call call', Reached makersCode 1 { tracedCalls := 1, recursion := 1 } .command [] 0
        (.block .function true makersOuter.traced) m
      ∧ Reached makersCode 1 { tracedCalls := 1, recursion := 1 } .command [] 0
        (.block .function false makersOuter.plain) m'
      ∧ m.calls = [call] ∧ m'.calls = [call'] ∧ call.code = call'.code
      ∧ m'.heap.compare .eq (.function (makersInner 1)) (.function (makersInner 2)) = .ok false := by
  have hcompile : makers.compile = .ok makersCode := rfl
  have hfile : Reached makersCode 1 { tracedCalls := 1, recursion := 1 } .command [] 1 _ _ := .start
  have hfirst := hfile.next rfl
  have hcall := ((hfirst.value rfl).part (rfl : _ = [] ++ _ :: []) rfl).call rfl rfl rfl
  have hsecond := hfirst.next rfl
  have hcall' := ((hsecond.value rfl).part (rfl : _ = [] ++ _ :: []) rfl).call rfl rfl rfl
  obtain ⟨m, hbody, hcalls⟩ : ∃ m, Reached makersCode 1 { tracedCalls := 1, recursion := 1 } .command [] 0
      (.block .function true makersOuter.traced) m ∧ m.calls = [{ code := makersOuter, locals := [], line := 1 }] :=
    ⟨_, hcall.body rfl rfl, rfl⟩
  obtain ⟨m', hbody', hcalls'⟩ : ∃ m, Reached makersCode 1 { tracedCalls := 1, recursion := 1 } .command [] 0
      (.block .function false makersOuter.plain) m ∧ m.calls = [{ code := makersOuter, locals := [], line := 1 }] :=
    ⟨_, hcall'.body rfl rfl, rfl⟩
  obtain ⟨k, k', -, -, -, hcompare⟩ := Script.nested_functions_compare hcompile hbody hbody' hcalls hcalls'
  have hne : ¬(k = k' ∧ true = false ∧ makersOuter.serial = makersOuter.serial) := by simp
  refine ⟨hcompile, m, m', _, _, hbody, hbody', hcalls, hcalls', rfl, ?_⟩
  rw [hcompare _ .eq List.mem_cons_self, decide_eq_false hne]

end Playback
