import Playback.Node.Decode
import Playback.Node.Encode
import Playback.Proofs.Spelling

/-!
# How deep the tree of a script is

Reading a tree is bounded in two ways: levels of nested expressions and levels of nested blocks. `levels` and
`blocks` count what the canonical tree of a script takes. What is `Canonical` is read back from its tree if that is not
deeper than the bounds, and is refused as too deep if it is; so is everything that a tree leaves nothing of out.
-/

namespace Playback

open List

/-! ## Levels -/

mutual

def Token.levels : Token → Nat
  | .operator _ | .number _ | .string _ | .bool _ | .none | .name _ => 1
  | .call _ args => argumentsLevels args + 1
  | .callMember object _ args => max object.levels (argumentsLevels args) + 1
  | .member object _ => object.levels + 1
  | .list rows | .tuple rows | .set rows => rowsLevels rows + 1
  | .dict entries => entriesLevels entries + 1
  | .subscript target key => max target.levels (rowLevels key + 1) + 1
  | .slice target start stop => max target.levels (max (rowLevels start + 1) (rowLevels stop + 1)) + 1
  | .bracket inner => rowLevels inner + 1 + 1

/-- How many levels the trees of the tokens of a row have; the expression around them is one more. -/
def rowLevels : List Token → Nat
  | [] => 0
  | t :: rest => max t.levels (rowLevels rest)

def rowsLevels : List (List Token) → Nat
  | [] => 0
  | row :: rest => max (rowLevels row + 1) (rowsLevels rest)

def argumentsLevels : List Argument → Nat
  | [] => 0
  | .positional value :: rest => max (rowLevels value + 1) (argumentsLevels rest)
  | .keyword _ value :: rest => max (rowLevels value + 1) (argumentsLevels rest)

def entriesLevels : List Entry → Nat
  | [] => 0
  | .pair key value :: rest => max (max (rowLevels key + 1) (rowLevels value + 1)) (entriesLevels rest)

end

mutual

/-- How many levels the deepest expression of a statement has. -/
def Statement.levels : Statement → Nat
  | .blank | .comment _ | .break_ | .continue_ | .import_ _ | .fromImport _ _ => 0
  | .expression value | .return_ value => rowLevels value + 1
  | .assignment targets value => max (rowLevels targets) (rowLevels value + 1)
  | .conditional condition body links =>
    max (rowLevels condition + 1) (max (statementsLevels body) (linksLevels links))
  | .whileLoop condition body => max (rowLevels condition + 1) (statementsLevels body)
  | .forLoop targets iterable body =>
    max (max (rowLevels targets) (rowLevels iterable + 1)) (statementsLevels body)
  | .function _ _ _ body => statementsLevels body

def statementsLevels : List Statement → Nat
  | [] => 0
  | s :: rest => max s.levels (statementsLevels rest)

def linksLevels : List Link → Nat
  | [] => 0
  | .elif condition body :: rest => max (max (rowLevels condition + 1) (statementsLevels body)) (linksLevels rest)
  | .else_ body :: rest => max (statementsLevels body) (linksLevels rest)

end

mutual

def Statement.blocks : Statement → Nat
  | .conditional _ body links => max (statementsBlocks body + 1) (linksBlocks links)
  | .whileLoop _ body | .forLoop _ _ body | .function _ _ _ body => statementsBlocks body + 1
  | _ => 0

def statementsBlocks : List Statement → Nat
  | [] => 0
  | s :: rest => max s.blocks (statementsBlocks rest)

def linksBlocks : List Link → Nat
  | [] => 0
  | .elif _ body :: rest => max (statementsBlocks body + 1) (linksBlocks rest)
  | .else_ body :: rest => max (statementsBlocks body + 1) (linksBlocks rest)

end

/-! ## Reading with a bound -/

/-- Reading stopped because something is nested too deep. -/
def CompileError.IsTooDeep (e : CompileError) : Prop :=
  e = .tooDeep "Expressions" maxTreeNesting ∨ e = .tooDeep "Statement blocks" maxBlockNesting

/-- A reader gives the thing if it fits, and otherwise stops because it is too deep. -/
structure Bounded {α : Type} (fits : Prop) (x : Except CompileError α) (a : α) : Prop where
  ok : fits → x = .ok a
  deep : ¬ fits → ∃ e, x = .error e ∧ e.IsTooDeep

namespace Bounded

variable {α β : Type}

theorem always (a : α) (hp : p) : Bounded p (.ok a) a :=
  ⟨fun _ => rfl, fun hn => absurd hp hn⟩

theorem never (hp : ¬ p) (he : e.IsTooDeep) : Bounded p (.error e) a :=
  ⟨fun h => absurd h hp, fun _ => ⟨e, rfl, he⟩⟩

theorem iff (h : Bounded p x a) (hpq : p ↔ q) : Bounded q x a :=
  ⟨fun hq => h.ok (hpq.2 hq), fun hq => h.deep fun hp => hq (hpq.1 hp)⟩

theorem bind (hx : Bounded p x a) (hf : Bounded q (f a) b) : Bounded (p ∧ q) (x >>= f) b := by
  constructor
  · rintro ⟨hp, hq⟩
    rw [hx.ok hp]
    exact hf.ok hq
  · intro hn
    by_cases hp : p
    · rw [hx.ok hp]
      exact hf.deep fun hq => hn ⟨hp, hq⟩
    · obtain ⟨e, he, hd⟩ := hx.deep hp
      rw [he]
      exact ⟨e, rfl, hd⟩

theorem map (f : α → β) (hx : Bounded p x a) : Bounded p (x >>= fun a => .ok (f a)) (f a) :=
  .iff (.bind hx (always (f a) trivial)) (and_true p).to_iff

theorem map₂ (f : α → β → γ) (hx : Bounded p x a) (hy : Bounded q y b) :
    Bounded (p ∧ q) (x >>= fun a => y >>= fun b => .ok (f a b)) (f a b) :=
  .bind hx (.map (f a) hy)

theorem map₃ (f : α → β → γ → δ) (hx : Bounded p x a) (hy : Bounded q y b) (hz : Bounded r z c) :
    Bounded (p ∧ q ∧ r) (x >>= fun a => y >>= fun b => z >>= fun c => .ok (f a b c)) (f a b c) :=
  .bind hx (.map₂ (f a) hy hz)

theorem cons (hx : Bounded p (f node) a) (hr : Bounded q (nodes.mapM f) as) :
    Bounded (p ∧ q) ((node :: nodes).mapM f) (a :: as) := by
  rw [mapM_cons]
  exact .bind hx (.map (a :: ·) hr)

end Bounded

attribute [local simp] Token.levels rowLevels rowsLevels entriesLevels argumentsLevels Statement.levels statementsLevels
  linksLevels Statement.blocks statementsBlocks linksBlocks Nat.max_le

open Node

/-! ## Reading back expressions -/

/-- A token that is finite as far as it is a double: a tree has no other doubles. -/
def Token.Finite : Token → Prop
  | .number (.float x) => Binary64.isFinite x = true
  | _ => True

/-- The tree of the token is read back, if there is room for its levels. -/
def Token.Canonical (t : Token) : Prop :=
  ∀ room, Bounded (t.levels ≤ room) (tokenIn room (ofToken t)) t

abbrev RowCanonical (row : List Token) : Prop :=
  ∀ t ∈ row, t.Canonical

def Argument.Canonical : Argument → Prop
  | .positional value => value ≠ [] ∧ RowCanonical value
  | .keyword _ value => RowCanonical value

def Entry.Canonical : Entry → Prop
  | .pair key value => RowCanonical key ∧ RowCanonical value

theorem expressionTooDeep_isTooDeep : expressionTooDeep.IsTooDeep :=
  .inl rfl

namespace Node

theorem numberValue_ofToken (h : (Token.number n).Finite) : (ofToken (.number n)).numberValue = .ok n := by
  cases n with
  | int i =>
    have hp : (ofToken (.number (.int i))).property? "value" = some (Json.number (.int i.toInt)) := rfl
    unfold numberValue
    rw [hp]
    dsimp only
    rw [Source.ofInt?_toInt]
  | float x =>
    have hx : Numeral.ofFloat? x = some (@Numeral.float x h) := dif_pos h
    have hp : (ofToken (.number (.float x))).property? "value"
        = some (Json.number (@Numeral.float x h)) := by
      change some (Number.toJson (.float x)) = _
      rw [Number.toJson, hx]
    unfold numberValue
    rw [hp]
  | text s => rfl

theorem tokens_bounded (h : RowCanonical row) (k : Nat) :
    Bounded (rowLevels row ≤ k) (tokensWith (tokenIn k) (ofTokens row)) row := by
  induction row with
  | nil => exact .always _ (Nat.zero_le k)
  | cons t r ih =>
    obtain ⟨ht, hr⟩ := forall_mem_cons.1 h
    exact .iff (.cons (ht k) (ih hr)) (by simp)

theorem expressionIn_bounded (h : RowCanonical row) (k : Nat) :
    Bounded (rowLevels row + 1 ≤ k) (expressionIn k (ofTokenNodes (ofTokens row))) row := by
  cases k with
  | zero => exact .never (by omega) expressionTooDeep_isTooDeep
  | succ k => exact (tokens_bounded h k).iff (by omega)

theorem elementsWith_bounded (hn : node.children "elements" = ofExpressions rows)
    (h : ∀ row ∈ rows, row ≠ [] ∧ RowCanonical row) (k : Nat) :
    Bounded (rowsLevels rows ≤ k) (elementsWith (expressionIn k) node) rows := by
  have hr : Bounded (rowsLevels rows ≤ k) ((ofExpressions rows).mapM (expressionIn k)) rows := by
    clear hn
    induction rows with
    | nil => exact .always _ (Nat.zero_le k)
    | cons row r ih =>
      obtain ⟨hro, hr⟩ := forall_mem_cons.1 h
      exact .iff (.cons (expressionIn_bounded hro.2 k) (ih hr)) (by simp)
  have hf := hr.map (·.filter (!·.isEmpty))
  rw [filter_eq_self.2 fun row hro => by simpa using (h row hro).1] at hf
  unfold elementsWith
  rwa [hn]

theorem entries_bounded (h : ∀ e ∈ es, e.Canonical) (k : Nat) :
    Bounded (entriesLevels es ≤ k) ((ofEntries es).mapM (entryWith (expressionIn k))) es := by
  induction es with
  | nil => exact .always _ (Nat.zero_le k)
  | cons e r ih =>
    obtain ⟨key, v⟩ := e
    obtain ⟨⟨hk, hv⟩, hr⟩ := forall_mem_cons.1 h
    refine .iff (.cons (.map₂ Entry.pair (expressionIn_bounded hk k) (expressionIn_bounded hv k)) (ih hr)) ?_
    rw [entriesLevels]
    omega

theorem argumentsWith_bounded (hn : node.children "arguments" = ofArguments as) (h : ∀ a ∈ as, a.Canonical) (k : Nat) :
    Bounded (argumentsLevels as ≤ k) (argumentsWith (expressionIn k) node) as := by
  have ha : Bounded (argumentsLevels as ≤ k) ((ofArguments as).mapM (argumentWith? (expressionIn k))) (as.map some) := by
    clear hn
    induction as with
    | nil => exact .always _ (Nat.zero_le k)
    | cons a r ih =>
      obtain ⟨ha, hr⟩ := forall_mem_cons.1 h
      cases a with
      | positional v =>
        have hv := (expressionIn_bounded ha.2 k).map fun ts =>
          if ts.isEmpty then none else some (Argument.positional ts)
        rw [isEmpty_eq_false_iff.2 ha.1] at hv
        exact .iff (.cons hv (ih hr)) (by simp)
      | keyword x v =>
        have hv := (expressionIn_bounded ha k).map fun ts => some (Argument.keyword x ts)
        exact .iff (.cons hv (ih hr)) (by simp)
  have hr := ha.map (·.filterMap id)
  rw [filterMap_map, Function.id_comp, filterMap_some] at hr
  unfold argumentsWith
  rwa [hn]

end Node

namespace Token.Canonical

theorem of_succ {t : Token} (h : ∀ k, Bounded (t.levels ≤ k + 1) (tokenIn (k + 1) (ofToken t)) t) : t.Canonical := by
  intro k
  cases k with
  | zero =>
    refine .never ?_ expressionTooDeep_isTooDeep
    cases t <;> simp
  | succ k => exact h k

theorem operator (s : String) : (Token.operator s).Canonical :=
  of_succ fun _ => .always _ (by simp)

theorem string (s : String) : (Token.string s).Canonical :=
  of_succ fun _ => .always _ (by simp)

theorem bool (b : Bool) : (Token.bool b).Canonical :=
  of_succ fun _ => .always _ (by simp)

theorem none : Token.none.Canonical :=
  of_succ fun _ => .always _ (by simp)

theorem name (s : String) : (Token.name s).Canonical :=
  of_succ fun _ => .always _ (by simp)

theorem number (h : (Token.number n).Finite) : (Token.number n).Canonical := by
  refine of_succ fun k => ?_
  change Bounded _ ((ofToken (.number n)).numberValue >>= fun n => .ok (Token.number n)) _
  rw [numberValue_ofToken h]
  exact .always _ (by simp)

theorem call (x : String) (h : ∀ a ∈ as, a.Canonical) : (Token.call x as).Canonical :=
  of_succ fun k => .iff (.map (Token.call x) (argumentsWith_bounded rfl h k)) (by simp)

theorem callMember (m : String) (ht : t.Canonical) (h : ∀ a ∈ as, a.Canonical) : (Token.callMember t m as).Canonical :=
  of_succ fun k => .iff (.map₂ (Token.callMember · m) (ht k) (argumentsWith_bounded rfl h k)) (by simp)

theorem member (m : String) (ht : t.Canonical) : (Token.member t m).Canonical :=
  of_succ fun k => .iff (.map (Token.member · m) (ht k)) (by simp)

theorem list (h : ∀ row ∈ rows, row ≠ [] ∧ RowCanonical row) : (Token.list rows).Canonical :=
  of_succ fun k => .iff (.map Token.list (elementsWith_bounded rfl h k)) (by simp)

theorem tuple (h : ∀ row ∈ rows, row ≠ [] ∧ RowCanonical row) : (Token.tuple rows).Canonical :=
  of_succ fun k => .iff (.map Token.tuple (elementsWith_bounded rfl h k)) (by simp)

theorem set (h : ∀ row ∈ rows, row ≠ [] ∧ RowCanonical row) : (Token.set rows).Canonical :=
  of_succ fun k => .iff (.map Token.set (elementsWith_bounded rfl h k)) (by simp)

theorem dict (h : ∀ e ∈ es, e.Canonical) : (Token.dict es).Canonical :=
  of_succ fun k => .iff (.map Token.dict (entries_bounded h k)) (by simp)

theorem subscript (ht : t.Canonical) (hk : RowCanonical key) : (Token.subscript t key).Canonical :=
  of_succ fun k => .iff (.map₂ Token.subscript (ht k) (expressionIn_bounded hk k)) (by simp)

theorem slice (ht : t.Canonical) (hs : RowCanonical start) (hst : RowCanonical stop) :
    (Token.slice t start stop).Canonical := by
  refine of_succ fun k => ?_
  refine .iff (.map₃ Token.slice (ht k) (expressionIn_bounded hs k) (expressionIn_bounded hst k)) ?_
  rw [Token.levels]
  omega

theorem bracket (h : RowCanonical row) : (Token.bracket row).Canonical :=
  of_succ fun k => .iff (.map Token.bracket (expressionIn_bounded h k)) (by simp)

end Token.Canonical

/-! ## Reading back statements -/

/-- The tree of the statement is read back, if its expressions and its blocks are not too deep. -/
def Statement.Canonical (s : Statement) : Prop :=
  ∀ room, Bounded (s.levels ≤ maxTreeNesting + 1 ∧ s.blocks ≤ room)
    (statementWith (blockIn room) (withChildren "PYTHON_STATEMENT" [("statement", [ofBareStatement s])])) s

abbrev BodyCanonical (body : List Statement) : Prop :=
  ∀ s ∈ body, s.Canonical

def Link.Canonical : Link → Prop
  | .elif condition body => RowCanonical condition ∧ BodyCanonical body
  | .else_ body => BodyCanonical body

namespace Node

theorem expression_bounded (h : RowCanonical row) :
    Bounded (rowLevels row + 1 ≤ maxTreeNesting + 1) (expression (ofExpression row)) row :=
  expressionIn_bounded h (maxTreeNesting + 1)

theorem mapM_identifier (ns : List String) : (ns.map ofIdentifier).mapM identifier = .ok ns := by
  induction ns with
  | nil => rfl
  | cons x r ih =>
    rw [map_cons, mapM_cons, ih]
    rfl

theorem mapM_property (tag property : String) (ns : List String) :
    (ns.map fun n => withProperty tag property (.string n)).mapM (stringProperty · property) = .ok ns := by
  induction ns with
  | nil => rfl
  | cons x r ih =>
    have hn : (withProperty tag property (.string x)).stringProperty property = .ok x := by
      simp [withProperty, stringProperty, property?]
    rw [map_cons, mapM_cons, ih, hn]
    rfl

theorem statements_bounded (h : BodyCanonical b) (k : Nat) :
    Bounded (statementsLevels b ≤ maxTreeNesting + 1 ∧ statementsBlocks b ≤ k)
      ((ofBlock b).mapM (statementWith (blockIn k))) b := by
  induction b with
  | nil => exact .always _ (by simp)
  | cons s r ih =>
    obtain ⟨hs, hr⟩ := forall_mem_cons.1 h
    by_cases hb : s = .blank
    · subst hb
      exact .iff (.cons (.always Statement.blank trivial) (ih hr)) (by simp)
    · rw [ofBlock.eq_3 s r hb]
      refine .iff (.cons (hs k) (ih hr)) ?_
      simp
      omega

theorem blockIn_bounded (h : BodyCanonical b) (k : Nat) :
    Bounded (statementsLevels b ≤ maxTreeNesting + 1 ∧ statementsBlocks b + 1 ≤ k) (blockIn k (ofBlock b)) b := by
  cases k with
  | zero => exact .never (by omega) (.inr rfl)
  | succ k => exact (statements_bounded h k).iff (by omega)

theorem links_bounded (h : ∀ l ∈ ls, l.Canonical) (k : Nat) :
    Bounded (linksLevels ls ≤ maxTreeNesting + 1 ∧ linksBlocks ls ≤ k)
      ((ofLinks ls).mapM (linkWith (blockIn k))) ls := by
  induction ls with
  | nil => exact .always _ (by simp)
  | cons l r ih =>
    obtain ⟨hl, hr⟩ := forall_mem_cons.1 h
    cases l with
    | elif c b =>
      refine .iff (.cons (.map₂ Link.elif (expression_bounded hl.1) (blockIn_bounded hl.2 k)) (ih hr)) ?_
      simp
      omega
    | else_ b =>
      refine .iff (.cons (.map Link.else_ (blockIn_bounded hl k)) (ih hr)) ?_
      simp
      omega

end Node

namespace Statement.Canonical

theorem blank : Statement.blank.Canonical :=
  fun _ => .always _ (by simp)

theorem comment (text : String) : (Statement.comment text).Canonical :=
  fun _ => .always _ (by simp)

theorem break_ : Statement.break_.Canonical :=
  fun _ => .always _ (by simp)

theorem continue_ : Statement.continue_.Canonical :=
  fun _ => .always _ (by simp)

theorem expression (h : RowCanonical v) : (Statement.expression v).Canonical :=
  fun _ => .iff (.map Statement.expression (expression_bounded h)) (by simp)

theorem assignment (hs : ts ≠ []) (ht : RowCanonical ts) (hv : RowCanonical v) : (assignment ts v).Canonical := by
  obtain ⟨first, r, rfl⟩ := ne_nil_iff_exists_cons.1 hs
  intro k
  refine .iff (.map₂ Statement.assignment (tokens_bounded ht (maxTreeNesting + 1)) (expression_bounded hv)) ?_
  simp
  omega

theorem conditional (hc : RowCanonical c) (hb : BodyCanonical b) (hl : ∀ l ∈ ls, l.Canonical) :
    (conditional c b ls).Canonical := by
  intro k
  refine .iff (.map₃ Statement.conditional (expression_bounded hc) (blockIn_bounded hb k) (links_bounded hl k)) ?_
  simp
  omega

theorem whileLoop (hc : RowCanonical c) (hb : BodyCanonical b) : (whileLoop c b).Canonical := by
  intro k
  refine .iff (.map₂ Statement.whileLoop (expression_bounded hc) (blockIn_bounded hb k)) ?_
  simp
  omega

theorem forLoop (hs : ts ≠ []) (ht : RowCanonical ts) (hi : RowCanonical e) (hb : BodyCanonical b) :
    (forLoop ts e b).Canonical := by
  obtain ⟨first, r, rfl⟩ := ne_nil_iff_exists_cons.1 hs
  intro k
  refine .iff (.map₃ Statement.forLoop (tokens_bounded ht (maxTreeNesting + 1)) (expression_bounded hi)
    (blockIn_bounded hb k)) ?_
  simp
  omega

theorem function (x : String) (id : Option String) (ps : List String) (hb : BodyCanonical b) :
    (function x id ps b).Canonical := by
  intro k
  have hid : (ofBareStatement (.function x id ps b)).functionId = id := by
    cases id with
    | none | some => rfl
  change Bounded _ (do
    let ps' ← (ps.map ofIdentifier).mapM identifier
    let b' ← blockIn k (ofBlock b)
    return Statement.function x (ofBareStatement (.function x id ps b)).functionId ps' b') _
  rw [mapM_identifier, hid]
  exact .iff (.map (Statement.function x id ps) (blockIn_bounded hb k)) (by simp)

theorem return_ (h : RowCanonical v) : (return_ v).Canonical := by
  intro k
  cases v with
  | nil => exact .always _ (by simp)
  | cons t r => exact .iff (.map Statement.return_ (expression_bounded h)) (by simp)

theorem import_ (modules : List String) : (import_ modules).Canonical := by
  intro k
  change Bounded _ (do
    let modules ← (modules.map fun m => withProperty "PYTHON_MODULE_IDENTIFIER" "identifier" (.string m)).mapM
      (stringProperty · "identifier")
    return Statement.import_ modules) _
  rw [mapM_property]
  exact .always _ (by simp)

theorem fromImport (module : String) (ns : List String) : (fromImport module ns).Canonical := by
  intro k
  change Bounded _ (do
    let ns ← (ns.map fun n => withProperty "PYTHON_MODULE_ATTRIBUTE" "identifier" (.string n)).mapM
      (stringProperty · "identifier")
    return Statement.fromImport module ns) _
  rw [mapM_property]
  exact .always _ (by simp)

end Statement.Canonical

/-- **The tree of a canonical script is read back, unless it is too deep.** -/
theorem Node.script_ofScript {s : Script} (h : BodyCanonical s) :
    Bounded (statementsLevels s ≤ maxTreeNesting + 1 ∧ statementsBlocks s ≤ maxBlockNesting) (ofScript s).script s :=
  (blockIn_bounded h (maxBlockNesting + 1)).iff (by omega)

end Playback
