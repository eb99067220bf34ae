import Playback.Script.Basic

/-!
# What a script is made of

`Script.statements` lists the statements of a script, those inside others included, and `Script.tokens` the tokens of
their rows, those inside others included. What is asked of a script everywhere is asked of the members of these.
-/

namespace Playback

open List

/-- What goes from member to member, and puts together what it finds, is a map whose results are put together. -/
theorem eq_flatMap {α β : Type} {f : α → List β} {g : List α → List β} (hn : g [] = [])
    (hc : ∀ a as, g (a :: as) = f a ++ g as) (as : List α) : g as = as.flatMap f := by
  induction as with
  | nil => exact hn
  | cons a as ih => rw [hc, ih, flatMap_cons]

/-! ## Tokens -/

def Argument.value : Argument → List Token
  | .positional value | .keyword _ value => value

mutual

/-- A token and the tokens inside it. -/
def Token.tokens : Token → List Token
  | t@(.call _ args) => t :: argumentsTokens args
  | t@(.callMember object _ args) => t :: (object.tokens ++ argumentsTokens args)
  | t@(.member object _) => t :: object.tokens
  | t@(.list rows) | t@(.tuple rows) | t@(.set rows) => t :: rowsTokens rows
  | t@(.dict entries) => t :: entriesTokens entries
  | t@(.subscript target key) => t :: (target.tokens ++ rowTokens key)
  | t@(.slice target start stop) => t :: (target.tokens ++ (rowTokens start ++ rowTokens stop))
  | t@(.bracket inner) => t :: rowTokens inner
  | t => [t]

/-- The tokens of a row and those inside them. -/
def rowTokens : List Token → List Token
  | [] => []
  | t :: rest => t.tokens ++ rowTokens rest

def rowsTokens : List (List Token) → List Token
  | [] => []
  | row :: rest => rowTokens row ++ rowsTokens rest

def argumentsTokens : List Argument → List Token
  | [] => []
  | .positional value :: rest => rowTokens value ++ argumentsTokens rest
  | .keyword _ value :: rest => rowTokens value ++ argumentsTokens rest

def entriesTokens : List Entry → List Token
  | [] => []
  | .pair key value :: rest => (rowTokens key ++ rowTokens value) ++ entriesTokens rest

end

theorem rowTokens_eq (row : List Token) : rowTokens row = row.flatMap Token.tokens :=
  eq_flatMap rfl (fun _ _ => rfl) row

theorem rowsTokens_eq (rows : List (List Token)) : rowsTokens rows = rows.flatMap rowTokens :=
  eq_flatMap rfl (fun _ _ => rfl) rows

theorem argumentsTokens_eq (args : List Argument) : argumentsTokens args = args.flatMap (rowTokens ·.value) :=
  eq_flatMap rfl (by rintro ⟨⟩ _ <;> rfl) args

theorem entriesTokens_eq (entries : List Entry) : entriesTokens entries = entries.flatMap (entriesTokens [·]) :=
  eq_flatMap rfl (by rintro ⟨⟩ _; simp [entriesTokens]) entries

/-! ## Statements -/

def Link.body : Link → List Statement
  | .elif _ body | .else_ body => body

def Link.rows : Link → List Expression
  | .elif condition _ => [condition]
  | .else_ _ => []

/-- The rows of a statement itself, those of its links included. -/
def Statement.rows : Statement → List Expression
  | .expression value | .return_ value => [value]
  | .assignment targets value => [targets, value]
  | .conditional condition _ links => condition :: links.flatMap Link.rows
  | .whileLoop condition _ => [condition]
  | .forLoop targets iterable _ => [targets, iterable]
  | _ => []

def Statement.tokens (s : Statement) : List Token :=
  rowsTokens s.rows

mutual

/-- A statement and the statements inside it. -/
def Statement.nested : Statement → List Statement
  | s@(.conditional _ body links) => s :: (statementsNested body ++ linksNested links)
  | s@(.whileLoop _ body) | s@(.forLoop _ _ body) | s@(.function _ _ _ body) => s :: statementsNested body
  | s => [s]

def statementsNested : List Statement → List Statement
  | [] => []
  | s :: rest => s.nested ++ statementsNested rest

def linksNested : List Link → List Statement
  | [] => []
  | .elif _ body :: rest => statementsNested body ++ linksNested rest
  | .else_ body :: rest => statementsNested body ++ linksNested rest

end

theorem Statement.mem_nested (s : Statement) : s ∈ s.nested := by
  cases s <;> exact mem_cons_self

theorem statementsNested_eq (ss : List Statement) : statementsNested ss = ss.flatMap Statement.nested :=
  eq_flatMap rfl (fun _ _ => rfl) ss

theorem linksNested_eq (ls : List Link) : linksNested ls = ls.flatMap (statementsNested ·.body) :=
  eq_flatMap rfl (by rintro ⟨⟩ _ <;> rfl) ls

def Script.statements (sc : Script) : List Statement :=
  statementsNested sc

def Script.tokens (sc : Script) : List Token :=
  sc.statements.flatMap Statement.tokens

end Playback
