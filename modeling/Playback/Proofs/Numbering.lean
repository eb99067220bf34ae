import Playback.Proofs.Layout
import Playback.Proofs.Plan

/-!
# Numbers of printed lines

The counter that numbers the instructions of a script and the printer that writes its lines go over the statements
apart from each other. They agree: the instructions of a statement, or of the header of a block, are on the line of the
text that it is printed on, and in a function the lines are counted from its header.
-/

namespace Playback

open List

/-! ## Texts on one line -/

def OneLine (s : String) : Prop :=
  '\n' ∉ s.toList

instance (s : String) : Decidable (OneLine s) :=
  inferInstanceAs (Decidable ('\n' ∉ s.toList))

namespace OneLine

theorem append_iff : OneLine (s ++ t) ↔ OneLine s ∧ OneLine t := by
  rw [OneLine, String.toList_append, mem_append, not_or]
  rfl

theorem append (hs : OneLine s) (ht : OneLine t) : OneLine (s ++ t) :=
  append_iff.2 ⟨hs, ht⟩

theorem ofList (h : '\n' ∉ cs) : OneLine (String.ofList cs) := by
  rwa [OneLine, String.toList_ofList]

theorem join (h : ∀ s ∈ l, OneLine s) : OneLine (String.join l) := by
  rw [OneLine, String.toList_join, mem_flatMap]
  rintro ⟨s, hs, hc⟩
  exact h s hs hc

theorem commas : ∀ {l : List String}, (∀ s ∈ l, OneLine s) → OneLine (commas l)
  | [], _ => by decide
  | [s], h => by simpa [Playback.commas] using h s mem_cons_self
  | s :: t :: l, h => by
    obtain ⟨hs, hl⟩ := forall_mem_cons.1 h
    have ht : Playback.commas (s :: t :: l) = s ++ ", " ++ Playback.commas (t :: l) := by
      simp [Playback.commas]
    rw [ht]
    exact (hs.append (by decide)).append (commas hl)

theorem nat (n : Nat) : OneLine (toString n) := by
  refine ofList fun hc => ?_
  exact absurd (Nat.isDigit_of_mem_toDigits (by decide) (by decide) hc) (by decide)

theorem int (i : Int) : OneLine (toString i) := by
  cases i with
  | ofNat n => exact nat n
  | negSucc n => exact append (s := "-") (by decide) (nat (n + 1))

theorem zeros (n : Nat) : OneLine (Decimal.zeros n) :=
  ofList fun hc => absurd (eq_of_mem_replicate hc) (by decide)

theorem positional (hw : OneLine whole) (d : Decimal.Digits) : OneLine (Decimal.positional whole d) := by
  have hd := nat d.digits
  unfold Decimal.positional
  extract_lets text size
  split
  · exact (append (by decide) (zeros _)).append hd
  · split
    · exact (hd.append (zeros _)).append hw
    · refine ((ofList ?_).append (by decide)).append (ofList ?_)
      · exact fun hc => hd (mem_of_mem_take hc)
      · exact fun hc => hd (mem_of_mem_drop hc)

theorem scientific (hp : OneLine plus) (w : Nat) (d : Decimal.Digits) : OneLine (Decimal.scientific plus w d) := by
  have hd := nat d.digits
  have hm : OneLine (Decimal.mantissaText d) := by
    rw [OneLine] at hd
    unfold Decimal.mantissaText
    split
    · rename_i first second r heq
      rw [heq] at hd
      refine ofList fun hc => hd ?_
      simpa using hc
    · exact ofList hd
  have hs : OneLine (if d.point - 1 < 0 then "-" else plus) := by
    split
    · decide
    · exact hp
  exact (((hm.append (by decide)).append hs).append (zeros _)).append (nat _)

theorem write {layout : Decimal.Layout} (hw : OneLine layout.whole) (hpl : OneLine layout.plus) (x : Float) :
    OneLine (layout.write x) := by
  unfold Decimal.Layout.write
  split
  · split
    · decide
    · split <;> decide
  · rename_i p hp
    have hs : OneLine (if p.negative then "-" else "") := by split <;> decide
    extract_lets sign d
    split
    · exact (hs.append (by decide)).append hw
    · refine hs.append ?_
      split
      · exact positional hw d
      · exact scientific hpl _ d

theorem quoted (s : String) : OneLine (Text.quoted s) := by
  have hq (cs : List Char) : '\n' ≠ Text.quoteOf cs := by
    unfold Text.quoteOf
    split <;> decide
  have hh (n : Nat) : '\n' ∉ Text.hexPair n := by
    have hd : ∀ k < 16, '\n' ≠ Nat.digitChar k := by decide
    have hlt (k : Nat) : k % 16 < 16 := Nat.mod_lt k (by decide)
    simp [Text.hexPair, Text.hexDigit]
  have hch (quote c : Char) : '\n' ∉ Text.quotedChar quote c := by
    by_cases hb : c = '\n'
    · subst hb
      exact show '\n' ∉ ['\\', 'n'] by decide
    have hc : '\n' ≠ c := fun h => hb h.symm
    unfold Text.quotedChar
    iterate 4
      split
      · decide
    split
    · simp [hc]
    split
    · simp [hh]
    · simp [hc]
  refine ofList ?_
  simp [Text.quotedChars, hch, hq]

theorem indented (hs : OneLine s) : OneLine (indentedLine d s) := by
  unfold indentedLine
  split
  · decide
  · refine (join fun t ht => ?_).append hs
    rw [eq_of_mem_replicate ht]
    decide

end OneLine

/-! ## Printed lines -/

def Argument.name? : Argument → Option String
  | .positional _ => none
  | .keyword name _ => some name

/-- The texts of a token itself that are printed as they are: names, operators and texts of numbers. -/
def Token.spelled : Token → List String
  | .operator text | .name text | .number (.text text) => [text]
  | .call x args => x :: args.filterMap Argument.name?
  | .callMember _ x args => x :: args.filterMap Argument.name?
  | .member _ x => [x]
  | _ => []

/-- The texts of a statement itself that are printed as they are, those of its rows apart: names and comments. -/
def Statement.spelled : Statement → List String
  | .comment text => [text]
  | .function name _ params _ => name :: params
  | .import_ modules => modules
  | .fromImport module names => module :: names
  | _ => []

/-- The texts of a block that are printed as they are: names, comments, operators and texts of numbers. -/
def statementsSpelled (ss : List Statement) : List String :=
  (statementsNested ss).flatMap fun s => s.spelled ++ s.tokens.flatMap Token.spelled

def Token.Lined (t : Token) : Prop :=
  ∀ text ∈ t.spelled, OneLine text

/-- All texts of a statement itself are on one line. -/
structure Statement.Lined (s : Statement) : Prop where
  spelled : ∀ text ∈ s.spelled, OneLine text
  rows : ∀ row ∈ s.rows, ∀ t ∈ rowTokens row, t.Lined

theorem lined_of_spelled (h : ∀ text ∈ statementsSpelled ss, OneLine text) : ∀ s ∈ statementsNested ss, s.Lined := by
  intro s hs
  obtain ⟨hsp, ht⟩ := forall_mem_append.1 (forall_mem_flatMap.1 h s hs)
  rw [forall_mem_flatMap, Statement.tokens, rowsTokens_eq, forall_mem_flatMap] at ht
  exact ⟨hsp, ht⟩

attribute [local simp] OneLine.append_iff expressionSource

theorem Number.source_oneLine (h : (Token.number n).Lined) : OneLine n.source := by
  cases n with
  | int i => exact .int _
  | float x =>
    have hw : OneLine (Decimal.literal.write x) := .write (by decide) (by decide) x
    rw [Number.source]
    split
    · exact hw
    · simp +decide [hw]
  | text s => exact h s mem_cons_self

theorem prefixText_oneLine (h : OneLine s) : OneLine (prefixText s) := by
  unfold prefixText
  split
  · exact h.append (by decide)
  · exact h

mutual

theorem Token.source_oneLine {t : Token} (h : ∀ u ∈ t.tokens, u.Lined) : OneLine t.source := by
  match t with
  | .operator _ | .name _ => exact h _ mem_cons_self _ mem_cons_self
  | .number n => exact Number.source_oneLine (h _ mem_cons_self)
  | .string s => exact .quoted s
  | .bool true | .bool false | .none => decide
  | .call x as =>
    obtain ⟨ho, ha⟩ := forall_mem_cons.1 h
    obtain ⟨hn, hk⟩ := forall_mem_cons.1 ho
    simp +decide [Token.source, hn, OneLine.commas (argumentSources_oneLine hk ha)]
  | .callMember object m as =>
    obtain ⟨ho, hre⟩ := forall_mem_cons.1 h
    obtain ⟨hm, hk⟩ := forall_mem_cons.1 ho
    obtain ⟨ho, ha⟩ := forall_mem_append.1 hre
    simp +decide [Token.source, Token.source_oneLine ho, hm, OneLine.commas (argumentSources_oneLine hk ha)]
  | .member object m =>
    obtain ⟨hm, ho⟩ := forall_mem_cons.1 h
    simp +decide [Token.source, Token.source_oneLine ho, hm m mem_cons_self]
  | .list rows => simp +decide [Token.source, OneLine.commas (rowSources_oneLine (forall_mem_cons.1 h).2)]
  | .tuple rows =>
    have hr := rowSources_oneLine (forall_mem_cons.1 h).2
    unfold Token.source
    split
    · rename_i single heq
      rw [heq] at hr
      simp +decide [hr single mem_cons_self]
    · simp +decide [OneLine.commas hr]
  | .set rows =>
    unfold Token.source
    split
    · decide
    · simp +decide [OneLine.commas (rowSources_oneLine (forall_mem_cons.1 h).2)]
  | .dict _ => simp +decide [Token.source, OneLine.commas (entrySources_oneLine (forall_mem_cons.1 h).2)]
  | .subscript tg _ =>
    obtain ⟨ht, hk⟩ := forall_mem_append.1 (forall_mem_cons.1 h).2
    simp +decide [Token.source, Token.source_oneLine ht, rowSource_oneLine false hk]
  | .slice tg _ _ =>
    obtain ⟨ht, hb⟩ := forall_mem_append.1 (forall_mem_cons.1 h).2
    obtain ⟨hs, hst⟩ := forall_mem_append.1 hb
    simp +decide [Token.source, Token.source_oneLine ht, rowSource_oneLine false hs, rowSource_oneLine false hst]
  | .bracket i => simp +decide [Token.source, rowSource_oneLine false (forall_mem_cons.1 h).2]

theorem rowSource_oneLine (afterOperand : Bool) (h : ∀ t ∈ rowTokens row, t.Lined) :
    OneLine (rowSource afterOperand row) := by
  match row with
  | [] => exact show OneLine "" by decide
  | t :: r =>
    obtain ⟨ht, hr⟩ := forall_mem_append.1 h
    have hs := Token.source_oneLine ht
    by_cases hm : ∃ sym, t = .operator sym
    · obtain ⟨sym, rfl⟩ := hm
      refine OneLine.append ?_ (rowSource_oneLine false hr)
      split
      · exact (OneLine.append (by decide) hs).append (by decide)
      · exact prefixText_oneLine hs
    · rw [rowSource]
      · exact hs.append (rowSource_oneLine true hr)
      · exact fun sym heq => hm ⟨sym, heq⟩

theorem rowSources_oneLine (h : ∀ t ∈ rowsTokens rows, t.Lined) : ∀ s ∈ rowSources rows, OneLine s := by
  match rows with
  | [] => nofun
  | row :: r =>
    obtain ⟨hro, hr⟩ := forall_mem_append.1 h
    exact forall_mem_cons.2 ⟨rowSource_oneLine false hro, rowSources_oneLine hr⟩

theorem argumentSources_oneLine (hn : ∀ x ∈ as.filterMap Argument.name?, OneLine x)
    (h : ∀ t ∈ argumentsTokens as, t.Lined) : ∀ s ∈ argumentSources as, OneLine s := by
  match as with
  | [] => nofun
  | .positional v :: r =>
    obtain ⟨hv, hr⟩ := forall_mem_append.1 h
    exact forall_mem_cons.2 ⟨rowSource_oneLine false hv, argumentSources_oneLine hn hr⟩
  | .keyword x v :: r =>
    obtain ⟨hv, hr⟩ := forall_mem_append.1 h
    obtain ⟨hx, hn⟩ := forall_mem_cons.1 hn
    refine forall_mem_cons.2 ⟨?_, argumentSources_oneLine hn hr⟩
    simp +decide [Argument.source, hx, rowSource_oneLine false hv]

theorem entrySources_oneLine (h : ∀ t ∈ entriesTokens es, t.Lined) : ∀ s ∈ entrySources es, OneLine s := by
  match es with
  | [] => nofun
  | .pair key v :: r =>
    obtain ⟨hp, hr⟩ := forall_mem_append.1 h
    obtain ⟨hk, hv⟩ := forall_mem_append.1 hp
    refine forall_mem_cons.2 ⟨?_, entrySources_oneLine hr⟩
    simp +decide [Entry.source, rowSource_oneLine false hk, rowSource_oneLine false hv]

end

theorem targetsSource_oneLine {targets : List Token} (h : ∀ t ∈ rowTokens targets, t.Lined) :
    OneLine (targetsSource targets) := by
  rw [rowTokens_eq, forall_mem_flatMap] at h
  exact .commas (forall_mem_map.2 fun t ht => Token.source_oneLine (h t ht))

mutual

theorem Statement.lines_oneLine (d : Nat) {s : Statement} (h : ∀ s' ∈ s.nested, s'.Lined) :
    ∀ ln ∈ s.lines d, OneLine ln := by
  obtain ⟨hsp, hro⟩ := h s s.mem_nested
  match s with
  | .blank => exact forall_mem_singleton.2 (by decide)
  | .break_ | .continue_ => exact forall_mem_singleton.2 (.indented (by decide))
  | .comment tx =>
    refine forall_mem_singleton.2 (.indented ?_)
    split
    · decide
    · exact .append (by decide) (hsp tx mem_cons_self)
  | .expression v => exact forall_mem_singleton.2 (.indented (rowSource_oneLine false (hro v mem_cons_self)))
  | .return_ v =>
    refine forall_mem_singleton.2 (.indented ?_)
    split
    · decide
    · exact .append (by decide) (rowSource_oneLine false (hro v mem_cons_self))
  | .assignment targets v =>
    obtain ⟨ht, hv⟩ := forall_mem_cons.1 hro
    refine forall_mem_singleton.2 (.indented ?_)
    simp +decide [targetsSource_oneLine ht, rowSource_oneLine false (hv v mem_cons_self)]
  | .conditional c b _ =>
    obtain ⟨hc, hk⟩ := forall_mem_cons.1 hro
    obtain ⟨hb, hl⟩ := forall_mem_append.1 (forall_mem_cons.1 h).2
    refine forall_mem_append.2 ⟨forall_mem_cons.2 ⟨.indented ?_, bodyLines_oneLine (d + 1) hb⟩, linkLines_oneLine d hk hl⟩
    simp +decide [rowSource_oneLine false hc]
  | .whileLoop c b =>
    refine forall_mem_cons.2 ⟨.indented ?_, bodyLines_oneLine (d + 1) (forall_mem_cons.1 h).2⟩
    simp +decide [rowSource_oneLine false (hro c mem_cons_self)]
  | .forLoop targets e b =>
    obtain ⟨ht, hi⟩ := forall_mem_cons.1 hro
    refine forall_mem_cons.2 ⟨.indented ?_, bodyLines_oneLine (d + 1) (forall_mem_cons.1 h).2⟩
    simp +decide [targetsSource_oneLine ht, rowSource_oneLine false (hi e mem_cons_self)]
  | .function x _ _ b =>
    obtain ⟨hna, hp⟩ := forall_mem_cons.1 hsp
    refine forall_mem_cons.2 ⟨.indented ?_, bodyLines_oneLine (d + 1) (forall_mem_cons.1 h).2⟩
    simp +decide [hna, OneLine.commas hp]
  | .import_ _ =>
    exact forall_mem_singleton.2 (.indented (.append (by decide) (.commas hsp)))
  | .fromImport _ _ =>
    obtain ⟨hm, hn⟩ := forall_mem_cons.1 hsp
    refine forall_mem_singleton.2 (.indented ?_)
    simp +decide [hm, OneLine.commas hn]

theorem bodyLines_oneLine (d : Nat) (h : ∀ s ∈ statementsNested b, s.Lined) : ∀ ln ∈ bodyLines d b, OneLine ln := by
  match b with
  | [] => exact forall_mem_singleton.2 (.indented (by decide))
  | s :: r =>
    obtain ⟨hs, hr⟩ := forall_mem_append.1 h
    exact forall_mem_append.2 ⟨Statement.lines_oneLine d hs, statementLines_oneLine d hr⟩

theorem statementLines_oneLine (d : Nat) (h : ∀ s ∈ statementsNested ss, s.Lined) :
    ∀ ln ∈ statementLines d ss, OneLine ln := by
  match ss with
  | [] => nofun
  | s :: r =>
    obtain ⟨hs, hr⟩ := forall_mem_append.1 h
    exact forall_mem_append.2 ⟨Statement.lines_oneLine d hs, statementLines_oneLine d hr⟩

theorem linkLines_oneLine (d : Nat) {ls : List Link} (hc : ∀ row ∈ ls.flatMap Link.rows, ∀ t ∈ rowTokens row, t.Lined)
    (h : ∀ s ∈ linksNested ls, s.Lined) : ∀ ln ∈ linkLines d ls, OneLine ln := by
  match ls with
  | [] => nofun
  | .elif c b :: r =>
    obtain ⟨hc, hcs⟩ := forall_mem_cons.1 hc
    obtain ⟨hb, hr⟩ := forall_mem_append.1 h
    refine forall_mem_append.2
      ⟨forall_mem_cons.2 ⟨.indented ?_, bodyLines_oneLine (d + 1) hb⟩, linkLines_oneLine d hcs hr⟩
    simp +decide [rowSource_oneLine false hc]
  | .else_ b :: r =>
    obtain ⟨hb, hr⟩ := forall_mem_append.1 h
    refine forall_mem_append.2 ⟨forall_mem_cons.2 ⟨.indented (by decide), ?_⟩, linkLines_oneLine d hc hr⟩
    exact bodyLines_oneLine (d + 1) hb

end

def Text.lines (s : String) : List String :=
  (s.toList.splitOn '\n').map String.ofList

/-- **The lines of a printed script are those of its statements**, with nothing after the last line break. -/
theorem lines_toSource {s : Script} (h : ∀ t ∈ statementsSpelled s, OneLine t) :
    Text.lines s.toSource = statementLines 0 s ++ [""] := by
  have hp : ∀ lines : List String,
      Source.linesText lines = ['\n'].intercalate (lines.map String.toList ++ [[]]) := by
    intro lines
    induction lines with
    | nil => rfl
    | cons _ r ih =>
      rw [Source.linesText, flatMap_cons, ← Source.linesText, ih]
      cases r <;> simp [List.intercalate]
  have hs : (Source.linesText (statementLines 0 s)).splitOn '\n'
      = (statementLines 0 s).map String.toList ++ [[]] := by
    rw [hp]
    refine splitOn_intercalate '\n' ?_ (by simp)
    refine forall_mem_append.2 ⟨forall_mem_map.2 (statementLines_oneLine 0 (lined_of_spelled h)), ?_⟩
    exact forall_mem_singleton.2 not_mem_nil
  rw [Text.lines, toList_toSource, hs]
  simp [Function.comp_def]

/-! ## Code on its lines -/

/-- Instructions around blocks of code: each block stands in its place, and every instruction outside of them is on
line `n`. -/
inductive Around (n : Nat) : List (List Instr) → List Instr → Prop
  | nil : Around n [] []
  | block (is : List Instr) : Around n [is] is
  | append (his : Around n bs is) (hjs : Around n cs js) : Around n (bs ++ cs) (is ++ js)
  | simple (h : a.isSimple = true) : Around n [] [.at n a]
  | branch (c : Expr) {bs cs : List (List Instr)} {body orelse : List Instr} (hbody : Around n bs body)
      (horelse : Around n cs orelse) : Around n (bs ++ cs) [.at n (.branch c body orelse)]
  | loop (c : Expr) {bs : List (List Instr)} {body : List Instr} (hbody : Around n bs body) :
      Around n bs [.at n (.loop c body)]
  | iterate (t : Target) (e : Expr) {bs : List (List Instr)} {body : List Instr} (hbody : Around n bs body) :
      Around n bs [.at n (.iterate t e body)]

def Statement.isSimple : Statement → Bool
  | .conditional _ _ _ | .whileLoop _ _ | .forLoop _ _ _ | .function _ _ _ _ => false
  | _ => true

/-- The statement is printed from line `n` of the page on, and `is` is its code. -/
structure Statement.Produces (page : List String) (depth : Nat) (traced : Bool) (n : Nat) (s : Statement)
    (is : List Instr) : Prop where
  printed : s.lines depth <+: page.drop (n - 1)
  produced : ∃ place c c', Lower.statement place traced s c = .ok (is, c')

/-- The links of a conditional are printed from line `n` of the page on, and `is` is their code. -/
structure LinksProduce (page : List String) (depth : Nat) (traced : Bool) (n : Nat) (links : List Link)
    (is : List Instr) : Prop where
  printed : linkLines depth links <+: page.drop (n - 1)
  produced : ∃ place c c',
    (if traced then Lower.tracedLinks place links else Lower.plainLinks place links) c = .ok (is, c')

mutual

/-- The code of a statement is on its lines: its instructions are on the line that it is printed on, around the code
of its blocks, which is on its lines in turn. The lines of a function are counted from its header. -/
inductive Statement.Numbered : List String → Nat → Bool → Nat → Statement → List Instr → Prop
  | simple (hs : s.isSimple = true) (hfrom : s.Produces page depth traced n is) (hcode : Around n [] is) :
      Statement.Numbered page depth traced n s is
  | conditional {inner : List Instr}
      (hfrom : (Statement.conditional condition body links).Produces page depth traced n is)
      (hbody : BlockNumbered page (depth + 1) traced (n + 1) body inner)
      (hlinks : LinksNumbered page depth traced (n + 1 + (bodyLines (depth + 1) body).length) links further)
      (hcode : Around n [inner, further] is) :
      Statement.Numbered page depth traced n (.conditional condition body links) is
  | whileLoop {inner : List Instr} (hfrom : (Statement.whileLoop condition body).Produces page depth traced n is)
      (hbody : BlockNumbered page (depth + 1) traced (n + 1) body inner) (hcode : Around n [inner] is) :
      Statement.Numbered page depth traced n (.whileLoop condition body) is
  | forLoop {inner : List Instr} (hfrom : (Statement.forLoop targets iterable body).Produces page depth traced n is)
      (hbody : BlockNumbered page (depth + 1) traced (n + 1) body inner) (hcode : Around n [inner] is) :
      Statement.Numbered page depth traced n (.forLoop targets iterable body) is
  | function {id : Option String} {inner : List Instr}
      (hfrom : (Statement.function name id params body).Produces page depth traced n [.at n (.define code)])
      (htraced : BlockNumbered (page.drop (n - 1)) (depth + 1) true 2 body inner)
      (hplain : BlockNumbered (page.drop (n - 1)) (depth + 1) false 2 body plain)
      (htracedCode : Around 1 [inner] code.traced) (hplainCode : Around 1 [plain] code.plain) :
      Statement.Numbered page depth traced n (.function name id params body) [.at n (.define code)]

/-- The code of statements that are printed from line `n` on is on its lines. -/
inductive BlockNumbered : List String → Nat → Bool → Nat → List Statement → List Instr → Prop
  | nil (page : List String) (depth : Nat) (traced : Bool) (n : Nat) : BlockNumbered page depth traced n [] []
  | cons (hs : s.Numbered page depth traced n is)
      (hrest : BlockNumbered page depth traced (n + (s.lines depth).length) rest js) :
      BlockNumbered page depth traced n (s :: rest) (is ++ js)

/-- The code of links that are printed from line `n` on is on its lines. -/
inductive LinksNumbered : List String → Nat → Bool → Nat → List Link → List Instr → Prop
  | nil (page : List String) (depth : Nat) (traced : Bool) (n : Nat) : LinksNumbered page depth traced n [] []
  | elif {inner : List Instr} (hfrom : LinksProduce page depth traced n (.elif condition body :: rest) is)
      (hbody : BlockNumbered page (depth + 1) traced (n + 1) body inner)
      (hrest : LinksNumbered page depth traced (n + 1 + (bodyLines (depth + 1) body).length) rest further)
      (hcode : Around n [inner, further] is) : LinksNumbered page depth traced n (.elif condition body :: rest) is
  | else_ {inner : List Instr} (hfrom : LinksProduce page depth traced n [.else_ body] is)
      (hbody : BlockNumbered page (depth + 1) traced (n + 1) body inner) (hcode : Around n [inner] is) :
      LinksNumbered page depth traced n [.else_ body] is

end

/-! ## What lowering counts -/

namespace Around

theorem before (ha : a.isSimple = true) (h : Around n bs is) : Around n bs (.at n a :: is) :=
  .append (.simple ha) h

theorem after (ha : a.isSimple = true) (h : Around n bs is) : Around n bs (is ++ [.at n a]) := by
  simpa using h.append (.simple ha)

theorem iterationBody (h : Around n bs is) : Around n bs (Lower.iterationBody n is) :=
  (h.after rfl).before rfl

theorem framed (t : Bool) (k : Trace.Kind) (ha : a.isSimple = true) : Around n [] (Lower.framed t k n a) := by
  have h := (Around.nil (n := n)).before ha
  cases t with
  | false => exact h
  | true => exact (h.after (a := .endFrame) rfl).before rfl

end Around

namespace Lower

theorem around_conditional (t : Bool) (c : Expr) (b : List Plan) (ls : Links) :
    Around ln [emitAll t b, ls.emit t] ((Plan.conditional ln c b ls).emit t) := by
  cases t with
  | false => exact .branch c (.block _) (.block _)
  | true =>
    have ho : Around ln [ls.emit true]
        (if ls.isDone then [] else .at ln (.childSet "elseblocks") :: ls.emit true) := by
      cases ls with
      | done => exact .block []
      | elif | else_ => exact (Around.block _).before rfl
    exact (Around.branch _ ((Around.block _).before rfl) ho).after rfl

theorem around_whileLoop (t : Bool) (c : Expr) (b : List Plan) :
    Around ln [emitAll t b] ((Plan.whileLoop ln c b).emit t) := by
  cases t with
  | false => exact .loop c (.block _)
  | true => exact (((Around.loop _ (Around.block _).iterationBody).after rfl).after rfl).before rfl

theorem around_forLoop (b : Bool) (t : Target) (e : Expr) (bd : List Plan) :
    Around ln [emitAll b bd] ((Plan.forLoop ln t e bd).emit b) := by
  cases b with
  | false => exact .iterate t e (.block _)
  | true => exact ((Around.iterate t _ (Around.block _).iterationBody).after rfl).before rfl

theorem around_elif (t : Bool) (c : Expr) (b : List Plan) (r : Links) :
    Around ln [emitAll t b, r.emit t] ((Links.elif ln c b r).emit t) := by
  cases t with
  | false => exact .branch c (.block _) (.block _)
  | true => exact .branch _ (Around.block _).iterationBody ((Around.block _).before rfl)

theorem around_else (t : Bool) (b : List Plan) : Around ln [emitAll t b] ((Links.else_ ln b).emit t) := by
  cases t with
  | false => exact .block _
  | true => exact ((Around.block _).after rfl).before rfl

theorem around_leave (t : Bool) (ha : a.isSimple = true) :
    Around ln [] (if t then [.at ln .endLoop, .at ln a] else [.at ln a]) := by
  cases t with
  | false => exact .simple ha
  | true => exact (Around.simple ha).before rfl

theorem statement_of_plan (h : plan q s c = .ok (p, c')) (t : Bool) : statement q t s c = .ok (p.emit t, c') := by
  rw [statement_eq]
  exact congrArg (Except.map fun r => (r.1.emit t, r.2)) h

theorem links_of_plan (h : planLinks p ks c = .ok (ls, c')) (t : Bool) :
    (if t then tracedLinks p ks else plainLinks p ks) c = .ok (ls.emit t, c') := by
  obtain ⟨ht, hp⟩ := links_eq p ks
  cases t with
  | true =>
    rw [ht]
    exact congrArg (Except.map fun r => (r.1.emit true, r.2)) h
  | false =>
    rw [hp]
    exact congrArg (Except.map fun r => (r.1.emit false, r.2)) h

theorem drop_lines {first second page : List String} (hn : 1 ≤ n)
    (h : first ++ second <+: page.drop (n - 1)) : second <+: page.drop (n + first.length - 1) := by
  obtain ⟨a, ha⟩ := h
  refine ⟨a, ?_⟩
  have hd : page.drop (n + first.length - 1) = (page.drop (n - 1)).drop first.length := by
    rw [drop_drop]
    congr 1
    omega
  rw [hd, ← ha, append_assoc, drop_left]

/-- From line `n` of a page on, where lines are printed, so many are counted, and something holds. -/
def Numbers (page : List String) (n n' : Nat) (lines : List String) (q : Prop) : Prop :=
  1 ≤ n → lines <+: page.drop (n - 1) → n' = n + lines.length ∧ q

theorem Numbers.body {lines : List String} (h : Numbers page (n + 1) n' lines q) (hn : 1 ≤ n)
    (hp : header :: lines <+: page.drop (n - 1)) : n' = n + (header :: lines).length ∧ q := by
  obtain ⟨hc, hq⟩ := h (Nat.succ_pos n) (drop_lines hn (show [header] ++ lines <+: _ from hp))
  exact ⟨by rw [length_cons]; omega, hq⟩

theorem Numbers.append (h : Numbers page n k xs q) (h' : Numbers page k n' ys q') :
    Numbers page n n' (xs ++ ys) (q ∧ q' ∧ k = n + xs.length ∧ ys <+: page.drop (k - 1)) := by
  intro hn hp
  obtain ⟨rfl, hq⟩ := h hn ((prefix_append _ _).trans hp)
  have hy := drop_lines hn hp
  obtain ⟨rfl, hq'⟩ := h' (by omega) hy
  exact ⟨by rw [length_append, Nat.add_assoc], hq, hq', rfl, hy⟩

theorem numbering_rules : PlanRules
    (fun _ s c p c' => ∀ page d, Numbers page c.line c'.line (s.lines d) (∀ t,
      s.Produces page d t c.line (p.emit t) → s.Numbered page d t c.line (p.emit t)))
    (fun _ ss c ps c' => ∀ page d, Numbers page c.line c'.line (statementLines d ss) (∀ t,
      BlockNumbered page d t c.line ss (emitAll t ps)))
    (fun _ ss c ps c' => ∀ page d, Numbers page c.line c'.line (bodyLines d ss) (∀ t,
      BlockNumbered page d t c.line ss (emitAll t ps)))
    fun _ ks c ls c' => ∀ page d, Numbers page c.line c'.line (linkLines d ks) (∀ t,
      LinksProduce page d t c.line ks (ls.emit t) → LinksNumbered page d t c.line ks (ls.emit t)) where
  skip h _ _ _ _ := by
    rcases h with rfl | ⟨_, rfl⟩ | ⟨_, rfl⟩ <;> exact ⟨rfl, fun _ h => .simple rfl h .nil⟩
  eval _ _ _ _ _ := ⟨rfl, fun _ h => .simple rfl h (.simple rfl)⟩
  assign _ _ _ _ _ _ := ⟨rfl, fun _ h => .simple rfl h (.simple rfl)⟩
  conditional _ hb hl hls page d hn hp := by
    obtain ⟨hc, hb, hls, hm, hy⟩ := ((hb page (d + 1)).append (hls page d)).body hn hp
    refine ⟨hc, fun t h => .conditional h (hb t) ?_ (around_conditional t _ _ _)⟩
    exact hm ▸ hls t ⟨hy, _, _, _, links_of_plan hl t⟩
  whileLoop _ hb page d hn hp := by
    obtain ⟨hc, hb⟩ := (hb page (d + 1)).body hn hp
    exact ⟨hc, fun t h => .whileLoop h (hb t) (around_whileLoop t _ _)⟩
  forLoop _ _ hb page d hn hp := by
    obtain ⟨hc, hb⟩ := (hb page (d + 1)).body hn hp
    exact ⟨hc, fun t h => .forLoop h (hb t) (around_forLoop t _ _ _)⟩
  function _ _ _ _ ht _ hps page d hn hp := by
    obtain ⟨hc, ht⟩ := (ht _ (d + 1)).body (Nat.le_refl 1) hp
    obtain ⟨-, hps⟩ := (hps _ (d + 1)).body (Nat.le_refl 1) hp
    refine ⟨?_, fun t h => .function h (ht true) (hps false) ((Around.block _).after rfl) (.block _)⟩
    simp only [hc, Statement.lines, length_cons]
    omega
  return_ _ _ _ _ _ _ _ := ⟨rfl, fun _ h => .simple rfl h (.simple rfl)⟩
  break_ _ _ _ _ _ := ⟨rfl, fun t h => .simple rfl h (around_leave t rfl)⟩
  continue_ _ _ _ _ _ := ⟨rfl, fun t h => .simple rfl h (around_leave t rfl)⟩
  import_ _ _ _ _ _ := ⟨rfl, fun t h => .simple rfl h (.framed t _ rfl)⟩
  fromImport _ _ _ _ _ _ := ⟨rfl, fun t h => .simple rfl h (.framed t _ rfl)⟩
  nil _ _ _ _ := ⟨rfl, fun _ => .nil ..⟩
  cons hp hps hr page d hn hpr := by
    obtain ⟨hc, hs, hr, hm, -⟩ := (hps page d).append (hr page d) hn hpr
    refine ⟨hc, fun t => .cons (hs t ⟨(prefix_append _ _).trans hpr, _, _, _, statement_of_plan hp t⟩) (hm ▸ hr t)⟩
  empty _ _ _ _ := ⟨rfl, fun _ => .nil ..⟩
  suite h := h
  done _ _ _ _ := ⟨rfl, fun _ _ => .nil ..⟩
  elif _ hb hl hls page d hn hp := by
    obtain ⟨hc, hb, hls, hm, hy⟩ := ((hb page (d + 1)).append (hls page d)).body hn hp
    refine ⟨hc, fun t h => .elif h (hb t) ?_ (around_elif t _ _ _)⟩
    exact hm ▸ hls t ⟨hy, _, _, _, links_of_plan hl t⟩
  else_ hb page d hn hp := by
    rw [linkLines, linkLines, append_nil] at hp ⊢
    obtain ⟨hc, hb⟩ := (hb page (d + 1)).body hn hp
    exact ⟨hc, fun t h => .else_ h (hb t) (around_else t _)⟩
end Lower

/-- **Instructions carry the numbers of printed lines.** In a script whose names, comments, operators and texts of
numbers have no line break, the code of every statement is on the line of the text that the statement is printed on,
and that of a function is on its lines counted from the function's header. -/
theorem Script.code_on_printed_lines {script : Script} {program : Program} (hcompile : script.compile = .ok program)
    (hspelled : ∀ text ∈ statementsSpelled script, OneLine text) :
    BlockNumbered (Text.lines script.toSource) 0 true 1 script program.body := by
  have hprinted : statementLines 0 script <+: (Text.lines script.toSource).drop (1 - 1) := by
    rw [lines_toSource hspelled]
    exact List.prefix_append _ _
  obtain ⟨r, hplan, hbody⟩ := Script.compile_ok hcompile
  rw [hbody]
  exact (Lower.numbering_rules.of_block _ script _ r hplan _ 0 (Nat.le_refl 1) hprinted).2 true

/-- A function in a function, a chain of conditions and empty blocks. -/
def nestedChain : Script :=
  [.comment "count", .function "f" none ["n"]
      [.function "g" none [] [], .conditional [.name "n"] [] [.elif [.bool true] [.return_ []], .else_ [.blank]]],
    .expression [.call "f" [.positional [.number (.int 1)]]]]

/-- The function of `nestedChain` is on the second line and the call on the eleventh. -/
theorem code_on_printed_lines_nestedChain :
    ∃ program, nestedChain.compile = .ok program ∧ (∀ text ∈ statementsSpelled nestedChain, OneLine text)
      ∧ program.body.map Instr.line = [2, 11]
      ∧ BlockNumbered (Text.lines nestedChain.toSource) 0 true 1 nestedChain program.body := by
  have hlines : (nestedChain.compile.map fun program => program.body.map Instr.line).toOption = some [2, 11] := by
    decide +kernel
  have hspelled : ∀ text ∈ statementsSpelled nestedChain, OneLine text := by decide
  cases hcompile : nestedChain.compile with
  | error e =>
    rw [hcompile] at hlines
    cases hlines
  | ok program =>
    rw [hcompile] at hlines
    exact ⟨program, rfl, hspelled, Option.some.inj hlines, Script.code_on_printed_lines hcompile hspelled⟩

end Playback
