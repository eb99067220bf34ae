import Playback.Proofs.Pieces
import Playback.Proofs.Spelling

/-!
# Scripts that a source text holds

Two things are written in a way that is read as something else: a double, and a member of an integer literal,
whose point runs into the digits. A script without them is `faithful`. What reading a text gives is more
special than that: rows alternate operands and markers, names are words, an `else` comes last. These shapes
are the predicates `Fits`, which leave open what doubles and what members are allowed.
-/

namespace Playback

open Source (IsName)

/-! ## Faithful scripts -/

def Token.isInt : Token → Bool
  | .number (.int _) => true
  | _ => false

/-- Whether a token is read back from what is written for it, as far as it goes: it is no double, and no member of an
integer literal. -/
def Token.isSafe : Token → Bool
  | .number (.float _) => false
  | .callMember object _ _ => !object.isInt
  | .member object _ => !object.isInt
  | _ => true

/-- Whether a script holds no double and no member of an integer literal. -/
def Script.faithful (script : Script) : Bool :=
  script.tokens.all Token.isSafe

/-! ## The shape of expressions -/

def prefixSymbols : List String :=
  ["-", "+", "~", "not"]

def infixSymbols : List String :=
  Source.operatorSymbols.erase "~" ++ ["and", "or", "in", "is", "is not", "not in"]

def Argument.isKeyword : Argument → Bool
  | .positional _ => false
  | .keyword _ _ => true

/-- No argument without a keyword stands after one with a keyword. -/
def KeywordsLast (args : List Argument) : Prop :=
  args.Pairwise fun a b => a.isKeyword = true → b.isKeyword = true

def Token.Safe (t : Token) : Prop :=
  t.isSafe = true

section

variable (al : Token → Prop)

mutual

/-- An operand as a source text holds it, where doubles and members are allowed ones. -/
inductive Token.Fits : Token → Prop
  | int (h : 0 ≤ i.toInt) : Token.Fits (.number (.int i))
  | float (h : al (.number (.float x))) : Token.Fits (.number (.float x))
  | string (s : String) : Token.Fits (.string s)
  | bool (b : Bool) : Token.Fits (.bool b)
  | none : Token.Fits .none
  | name (h : IsName s) : Token.Fits (.name s)
  | call (hname : IsName name) (hargs : ∀ a ∈ args, a.Fits) (hlast : KeywordsLast args) : Token.Fits (.call name args)
  | callMember (hobject : object.Fits)
      (hallowed : al (.callMember object member args)) (hmember : IsName member) (hargs : ∀ a ∈ args, a.Fits)
      (hlast : KeywordsLast args) : Token.Fits (.callMember object member args)
  | member (hobject : object.Fits) (hallowed : al (.member object member))
      (hmember : IsName member) : Token.Fits (.member object member)
  | list (hrows : ∀ row ∈ rows, RowFits false row) : Token.Fits (.list rows)
  | tuple (hrows : ∀ row ∈ rows, RowFits false row) : Token.Fits (.tuple rows)
  | set (hrows : ∀ row ∈ rows, RowFits false row) (hsome : rows ≠ []) : Token.Fits (.set rows)
  | dict (hentries : ∀ e ∈ entries, e.Fits) : Token.Fits (.dict entries)
  | subscript (htarget : target.Fits) (hkey : RowFits false key) : Token.Fits (.subscript target key)
  /-- A bound may be left open. -/
  | slice (htarget : target.Fits) (hstart : start ≠ [] → RowFits false start) (hstop : stop ≠ [] → RowFits false stop) :
      Token.Fits (.slice target start stop)
  | bracket {inner : List Token} (hinner : RowFits false inner) : Token.Fits (.bracket inner)

/-- A row as a source text holds it: operands with markers between them and markers in front of them. After
an `is` no `not` stands in front of an operand, because the two are one marker. -/
inductive RowFits : Bool → List Token → Prop
  | marked (hsymbol : symbol ∈ prefixSymbols) (hnot : afterIs = true → symbol ≠ "not") (hrest : RowFits false rest) :
      RowFits afterIs (.operator symbol :: rest)
  | last (ht : t.Fits) : RowFits afterIs [t]
  | joined (ht : t.Fits) (hsymbol : symbol ∈ infixSymbols) (hrest : RowFits (symbol == "is") rest) :
      RowFits afterIs (t :: .operator symbol :: rest)

inductive Argument.Fits : Argument → Prop
  | positional (h : RowFits false value) : Argument.Fits (.positional value)
  | keyword (hname : IsName name) (h : RowFits false value) : Argument.Fits (.keyword name value)

/-- An entry as a source text holds it. -/
inductive Entry.Fits : Entry → Prop
  | pair (hkey : RowFits false key) (hvalue : RowFits false value) : Entry.Fits (.pair key value)

end

/-! ## The shape of statements -/

/-- The text of a comment: on one line and without blanks at its end. -/
def IsComment (text : String) : Prop :=
  '\n' ∉ text.toList ∧ ∀ c ∈ text.toList.getLast?, Text.isBlank c = false

def nameParts (s : String) : List String :=
  (s.toList.splitOn '.').map String.ofList

/-- A name, or names with points between them. -/
def IsDotted (s : String) : Prop :=
  ∀ part ∈ nameParts s, IsName part

def Token.isTarget : Token → Bool
  | .name _ | .subscript _ _ => true
  | _ => false

def TargetsFit (targets : List Token) : Prop :=
  targets ≠ [] ∧ ∀ t ∈ targets, t.Fits al ∧ t.isTarget = true

def Link.isElse : Link → Bool
  | .elif _ _ => false
  | .else_ _ => true

mutual

inductive Statement.Fits : Statement → Prop
  | comment (h : IsComment text) : Statement.Fits (.comment text)
  | expression (h : RowFits al false value) : Statement.Fits (.expression value)
  | assignment (htargets : TargetsFit al targets) (hvalue : RowFits al false value) :
      Statement.Fits (.assignment targets value)
  | conditional (hcondition : RowFits al false condition) (hbody : ∀ s ∈ body, s.Fits) (hlinks : ∀ k ∈ links, k.Fits)
      (helse : links.Pairwise fun k _ => k.isElse = false) : Statement.Fits (.conditional condition body links)
  | whileLoop (hcondition : RowFits al false condition)
      (hbody : ∀ s ∈ body, s.Fits) : Statement.Fits (.whileLoop condition body)
  | forLoop (htargets : TargetsFit al targets) (hiterable : RowFits al false iterable) (hbody : ∀ s ∈ body, s.Fits) :
      Statement.Fits (.forLoop targets iterable body)
  | function (hname : IsName name)
      (hparams : ∀ p ∈ params, IsName p) (hdistinct : params.Nodup) (hbody : ∀ s ∈ body, s.Fits) :
      Statement.Fits (.function name (some name) params body)
  | return_ (h : value ≠ [] → RowFits al false value) : Statement.Fits (.return_ value)
  | break_ : Statement.Fits .break_
  | continue_ : Statement.Fits .continue_
  | import_ (hsome : modules ≠ []) (h : ∀ m ∈ modules, IsDotted m) : Statement.Fits (.import_ modules)
  | fromImport (hmodule : IsDotted module) (hsome : names ≠ [])
      (h : ∀ n ∈ names, IsName n) : Statement.Fits (.fromImport module names)

/-- A link as a source text holds it. -/
inductive Link.Fits : Link → Prop
  | elif (hcondition : RowFits al false condition) (hbody : ∀ s ∈ body, s.Fits) : Link.Fits (.elif condition body)
  | else_ (hbody : ∀ s ∈ body, s.Fits) : Link.Fits (.else_ body)

end

end

end Playback
