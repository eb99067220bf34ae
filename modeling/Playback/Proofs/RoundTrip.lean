import Playback.Proofs.Acceptance
import Playback.Proofs.Layout
import Playback.Proofs.ReadBack

/-!
# Reading what was written

A script that was read from a text is written and read again. If it is faithful, so that no double and no member of an
integer literal stands in it, the second reading gives the script once more. Only the two bounds on nesting can come in
between, because what is written may be indented and bracketed in another way than the first text was.
-/

namespace Playback

open List

open Source (lexemes)

/-! ## Faithful scripts are safe -/

/-- A shape with nothing asked of doubles and members. -/
def Token.Any : Token → Prop :=
  fun _ => True

mutual

theorem Token.Fits.safe {t : Token} (ht : t.Fits Token.Any) (h : ∀ u ∈ t.tokens, u.Safe) : t.Fits Token.Safe := by
  match ht with
  | .int hi => exact .int hi
  | .float _ => exact .float (h _ (.head _))
  | .string s => exact .string s
  | .bool b => exact .bool b
  | .none => exact .none
  | .name hs => exact .name hs
  | .call hn har hl =>
    rw [Token.tokens, argumentsTokens_eq, forall_mem_cons, forall_mem_flatMap] at h
    exact .call hn (fun a ha => (har a ha).safe (h.2 a ha)) hl
  | .callMember ho _ hm har hl =>
    rw [Token.tokens, argumentsTokens_eq, forall_mem_cons, forall_mem_append, forall_mem_flatMap] at h
    exact .callMember (ho.safe h.2.1) h.1 hm (fun a ha => (har a ha).safe (h.2.2 a ha)) hl
  | .member ho _ hm =>
    obtain ⟨hs, h⟩ := forall_mem_cons.1 h
    exact .member (ho.safe h) hs hm
  | .list hro | .tuple hro =>
    rw [Token.tokens, rowsTokens_eq, forall_mem_cons, forall_mem_flatMap] at h
    constructor
    exact fun row hr => (hro row hr).safe (h.2 row hr)
  | .set hro hso =>
    rw [Token.tokens, rowsTokens_eq, forall_mem_cons, forall_mem_flatMap] at h
    exact .set (fun row hr => (hro row hr).safe (h.2 row hr)) hso
  | .dict hen =>
    rw [Token.tokens, entriesTokens_eq, forall_mem_cons, forall_mem_flatMap] at h
    exact .dict fun e he => (hen e he).safe (h.2 e he)
  | .subscript hta hke =>
    rw [Token.tokens, forall_mem_cons, forall_mem_append] at h
    exact .subscript (hta.safe h.2.1) (hke.safe h.2.2)
  | .slice hta hst hsp =>
    rw [Token.tokens, forall_mem_cons, forall_mem_append, forall_mem_append] at h
    exact .slice (hta.safe h.2.1) (fun hso => (hst hso).safe h.2.2.1) fun hso => (hsp hso).safe h.2.2.2
  | .bracket hin => exact .bracket (hin.safe (forall_mem_cons.1 h).2)

theorem RowFits.safe (hro : RowFits Token.Any afterIs row)
    (h : ∀ u ∈ rowTokens row, u.Safe) : RowFits Token.Safe afterIs row := by
  match hro with
  | .marked hs hn hre => exact .marked hs hn (hre.safe (forall_mem_append.1 h).2)
  | .last ht => exact .last (ht.safe (forall_mem_append.1 h).1)
  | .joined ht hs hre =>
    obtain ⟨hf, hr⟩ := forall_mem_append.1 h
    exact .joined (ht.safe hf) hs (hre.safe (forall_mem_append.1 hr).2)

theorem Argument.Fits.safe {a : Argument} (ha : a.Fits Token.Any) (h : ∀ u ∈ rowTokens a.value, u.Safe) :
    a.Fits Token.Safe := by
  match ha with
  | .positional hv => exact .positional (hv.safe h)
  | .keyword hn hv => exact .keyword hn (hv.safe h)

theorem Entry.Fits.safe (he : e.Fits Token.Any) (h : ∀ u ∈ entriesTokens [e], u.Safe) : e.Fits Token.Safe := by
  match he with
  | .pair hke hva =>
    obtain ⟨hk, hv⟩ := forall_mem_append.1 (forall_mem_append.1 h).1
    exact .pair (hke.safe hk) (hva.safe hv)

end

theorem TargetsFit.safe {targets : List Token} (hta : TargetsFit Token.Any targets)
    (h : ∀ u ∈ rowTokens targets, u.Safe) : TargetsFit Token.Safe targets := by
  rw [rowTokens_eq, forall_mem_flatMap] at h
  exact ⟨hta.1, fun t ht => ⟨(hta.2 t ht).1.safe (h t ht), (hta.2 t ht).2⟩⟩

mutual

theorem Statement.Fits.safe {s : Statement} (hs : s.Fits Token.Any)
    (h : ∀ s' ∈ s.nested, ∀ row ∈ s'.rows, ∀ u ∈ rowTokens row, u.Safe) : s.Fits Token.Safe := by
  have ho := h s s.mem_nested
  match hs with
  | .comment hte => exact .comment hte
  | .expression hva => exact .expression (hva.safe (ho _ (.head _)))
  | .assignment hta hva => exact .assignment (hta.safe (ho _ (.head _))) (hva.safe (ho _ (.tail _ (.head _))))
  | .conditional hco hbo hli he =>
    rw [Statement.nested, forall_mem_cons, forall_mem_append, linksNested_eq, forall_mem_flatMap] at h
    rw [Statement.rows, forall_mem_cons, forall_mem_flatMap] at ho
    exact .conditional (hco.safe ho.1) (body_safe hbo h.2.1) (fun k hk => (hli k hk).safe (ho.2 k hk) (h.2.2 k hk)) he
  | .whileLoop hco hbo => exact .whileLoop (hco.safe (ho _ (.head _))) (body_safe hbo (forall_mem_cons.1 h).2)
  | .forLoop hta hie hbo =>
    exact .forLoop (hta.safe (ho _ (.head _))) (hie.safe (ho _ (.tail _ (.head _))))
      (body_safe hbo (forall_mem_cons.1 h).2)
  | .function hna hp hd hbo => exact .function hna hp hd (body_safe hbo (forall_mem_cons.1 h).2)
  | .return_ hva => exact .return_ fun hso => (hva hso).safe (ho _ (.head _))
  | .break_ => exact .break_
  | .continue_ => exact .continue_
  | .import_ hso hm => exact .import_ hso hm
  | .fromImport hmo hso hn => exact .fromImport hmo hso hn

theorem Link.Fits.safe {k : Link} (hk : k.Fits Token.Any) (ho : ∀ row ∈ k.rows, ∀ u ∈ rowTokens row, u.Safe)
    (h : ∀ s ∈ statementsNested k.body, ∀ row ∈ s.rows, ∀ u ∈ rowTokens row, u.Safe) : k.Fits Token.Safe := by
  match hk with
  | .elif hco hbo => exact .elif (hco.safe (ho _ (.head _))) (body_safe hbo h)
  | .else_ hbo => exact .else_ (body_safe hbo h)

theorem body_safe {body : List Statement} (hb : ∀ s ∈ body, s.Fits Token.Any)
    (h : ∀ s ∈ statementsNested body, ∀ row ∈ s.rows, ∀ u ∈ rowTokens row, u.Safe) : ∀ s ∈ body, s.Fits Token.Safe := by
  rw [statementsNested_eq, forall_mem_flatMap] at h
  exact fun s hs => (hb s hs).safe (h s hs)

end

/-! ## The round trip -/

variable {text : String} {script : Script}

theorem fits_of_ofSource (hr : Script.ofSource text = .ok script) : ∀ s ∈ script, s.Fits Token.Any := by
  cases hl : lexemes text with
  | error e =>
    rw [Script.ofSource, hl] at hr
    cases hr
  | ok _ => exact Source.ofSource_fits (fun _ _ _ => ⟨trivial, trivial⟩) hl (fun _ _ _ _ => trivial) hr

theorem safe_of_ofSource (hr : Script.ofSource text = .ok script) (hf : script.faithful = true) :
    ∀ s ∈ script, s.Fits Token.Safe := by
  refine body_safe (fits_of_ofSource hr) fun s hs row hro u hu => all_eq_true.1 hf u (mem_flatMap.2 ⟨s, hs, ?_⟩)
  rw [Statement.tokens, rowsTokens_eq]
  exact mem_flatMap.2 ⟨row, hro, hu⟩

/-- **Reading, writing and reading again gives the same script**, for every text that is read as a script without
doubles and without members of integer literals. The second reading can fail in two ways only: brackets that are nested
too deep, or blocks that are. -/
theorem ofSource_toSource {text : String} {script : Script} (hread : Script.ofSource text = .ok script)
    (hfaithful : script.faithful = true) : Script.ofSource script.toSource = .ok script
      ∨ ∃ fault place, Script.ofSource script.toSource = .error (.invalid fault place)
        ∧ (fault = .tooDeep ∧ fault.message = "Too many nested parentheses"
          ∨ fault = .lexical .tooManyLevels ∧ fault.message = "Too many levels of indentation") := by
  have hsafe := safe_of_ofSource hread hfaithful
  rw [Script.ofSource]
  rcases lexemes_toSource hsafe with ⟨_, hlexemes, hls⟩ | ⟨place, hlexemes⟩
  · rw [hlexemes]
    rcases fileScript_of_lexemes hsafe hls with hok | ⟨place, herror⟩
    · exact .inl hok
    · exact .inr ⟨_, place, herror, .inl ⟨rfl, rfl⟩⟩
  · rw [hlexemes]
    exact .inr ⟨_, place, rfl, .inr ⟨rfl, rfl⟩⟩

/-- A function, an import and an assignment, with a comment that ends a line and a block on a line of its header. -/
def boxText : List Char :=
  "def box(w, h):  # sides\n  if w > -h and not w: return [w, h][1:]\n  else:\n      pass\n".toList
    ++ "from os.path import join\nx, y[0] = box(1, h=2), \x7b'k': (3,)\x7d.get('k')\n".toList

/-- The text of a box comes back through writing, and no bound on nesting is met. -/
theorem ofSource_toSource_box : ∃ script, Script.ofSource (String.ofList boxText) = .ok script ∧ script.faithful = true
      ∧ Script.ofSource script.toSource = .ok script := by
  have hcheck : (plainScript? (String.ofList boxText)).any (fun script =>
      script.faithful && (Script.ofSource script.toSource).isOk) = true := by
    rw [plainScript?, lexemes_ofList]
    decide +kernel
  obtain ⟨_, script, -, -, hread, hboth⟩ := exists_of_plainScript? hcheck
  obtain ⟨hfaithful, hok⟩ := Bool.and_eq_true_iff.1 hboth
  refine ⟨script, hread, hfaithful, ?_⟩
  rcases ofSource_toSource hread hfaithful with hback | ⟨_, _, herror, -⟩
  · exact hback
  · rw [herror] at hok
    cases hok

end Playback
