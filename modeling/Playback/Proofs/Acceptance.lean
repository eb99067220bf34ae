import Playback.Proofs.Nesting
import Playback.Proofs.Origin

/-!
# Texts whose trees are read back

The bounds on trees are not above what reading a text can give. Reading goes back to the level of an operand for each
attribute after it, so brackets and attributes are counted side by side; in a tree they are nested in each other. The
tree of a text that is read is read back exactly if it is within its own bounds, `statementsLevels` and
`statementsBlocks`, and is refused as too deep otherwise.
-/

namespace Playback

open List

open Source (Located lexemes)

/-! ## What fits is canonical -/

theorem rowCanonical_of_ne_nil (h : row ≠ [] → RowCanonical row) : RowCanonical row := by
  cases row with
  | nil => exact forall_mem_nil _
  | cons t r => exact h (cons_ne_nil _ _)

mutual

theorem Token.Fits.canonical {t : Token} (ht : t.Fits Token.Finite) : t.Canonical := by
  match ht with
  | .int _ => exact .number trivial
  | .float h => exact .number h
  | .string s => exact .string s
  | .bool b => exact .bool b
  | .none => exact .none
  | .name _ => exact .name _
  | .call _ har _ => exact .call _ fun a ha => (har a ha).canonical
  | .callMember ho _ _ har _ => exact .callMember _ ho.canonical fun a ha => (har a ha).canonical
  | .member ho _ _ => exact .member _ ho.canonical
  | .list hr => exact .list fun row hro => (hr row hro).canonical
  | .tuple hr => exact .tuple fun row hro => (hr row hro).canonical
  | .set hr _ => exact .set fun row hro => (hr row hro).canonical
  | .dict hen => exact .dict fun e he => (hen e he).canonical
  | .subscript hta hk => exact .subscript hta.canonical hk.canonical.2
  | .slice hta hs hst =>
    exact .slice hta.canonical (rowCanonical_of_ne_nil fun h => (hs h).canonical.2)
      (rowCanonical_of_ne_nil fun h => (hst h).canonical.2)
  | .bracket hi => exact .bracket hi.canonical.2

theorem RowFits.canonical (hro : RowFits Token.Finite afterIs row) : row ≠ [] ∧ RowCanonical row := by
  match hro with
  | .marked _ _ hr => exact ⟨nofun, forall_mem_cons.2 ⟨.operator _, hr.canonical.2⟩⟩
  | .last ht => exact ⟨nofun, forall_mem_singleton.2 ht.canonical⟩
  | .joined ht _ hr =>
    exact ⟨nofun, forall_mem_cons.2 ⟨ht.canonical, forall_mem_cons.2 ⟨.operator _, hr.canonical.2⟩⟩⟩

theorem Argument.Fits.canonical {a : Argument} (ha : a.Fits Token.Finite) : a.Canonical := by
  match ha with
  | .positional h => exact h.canonical
  | .keyword _ h => exact h.canonical.2

theorem Entry.Fits.canonical {e : Entry} (he : e.Fits Token.Finite) : e.Canonical := by
  match he with
  | .pair hk hv => exact ⟨hk.canonical.2, hv.canonical.2⟩

end

theorem TargetsFit.canonical {targets : List Token} (h : TargetsFit Token.Finite targets) : RowCanonical targets :=
  fun t ht => (h.2 t ht).1.canonical

mutual

theorem Statement.Fits.canonical {s : Statement} (hs : s.Fits Token.Finite) : s.Canonical := by
  match hs with
  | .comment _ => exact .comment _
  | .expression h => exact .expression h.canonical.2
  | .assignment ht hv => exact .assignment ht.1 ht.canonical hv.canonical.2
  | .conditional hc hb hl _ =>
    exact .conditional hc.canonical.2 (fun s hs => (hb s hs).canonical) fun k hk => (hl k hk).canonical
  | .whileLoop hc hb => exact .whileLoop hc.canonical.2 fun s hs => (hb s hs).canonical
  | .forLoop ht hi hb => exact .forLoop ht.1 ht.canonical hi.canonical.2 fun s hs => (hb s hs).canonical
  | .function _ _ _ hb => exact .function _ _ _ fun s hs => (hb s hs).canonical
  | .return_ h => exact .return_ (rowCanonical_of_ne_nil fun hso => (h hso).canonical.2)
  | .break_ => exact .break_
  | .continue_ => exact .continue_
  | .import_ _ _ => exact .import_ _
  | .fromImport _ _ _ => exact .fromImport _ _

theorem Link.Fits.canonical {k : Link} (hk : k.Fits Token.Finite) : k.Canonical := by
  match hk with
  | .elif hc hb => exact ⟨hc.canonical.2, fun s hs => (hb s hs).canonical⟩
  | .else_ hb => exact fun s hs => (hb s hs).canonical

end

/-! ## Reading the tree of a text -/

section

variable {text : String} {ls : List Located} {script : Script}

theorem tree_bounded (hl : lexemes text = .ok ls) (hf : ∀ l ∈ ls, ∀ x, l.lexeme = .float x → Binary64.isFinite x = true)
    (hr : Script.ofSource text = .ok script) :
    Bounded (statementsLevels script ≤ maxTreeNesting + 1 ∧ statementsBlocks script ≤ maxBlockNesting)
      (Node.ofScript script).script script := by
  have hfi : ∀ s ∈ script, s.Fits Token.Finite :=
    Source.ofSource_fits (fun _ _ _ => ⟨trivial, trivial⟩) hl hf hr
  exact Node.script_ofScript fun s hs => (hfi s hs).canonical

/-- **The tree of a text that is read is read back exactly if it is not too deep for a tree**, and is refused for that
alone. Doubles of the text must be finite, because a tree has no others. -/
theorem tree_of_text_reads_back (hlexemes : lexemes text = .ok ls)
    (hfloats : ∀ l ∈ ls, ∀ x, l.lexeme = .float x → Binary64.isFinite x = true)
    (hread : Script.ofSource text = .ok script) : ((Node.ofScript script).script = .ok script
        ↔ statementsLevels script ≤ maxTreeNesting + 1 ∧ statementsBlocks script ≤ maxBlockNesting)
      ∧ ((Node.ofScript script).script ≠ .ok script
        → ∃ e, (Node.ofScript script).script = .error e ∧ e.IsTooDeep) := by
  have hbounded := tree_bounded hlexemes hfloats hread
  refine ⟨⟨fun hok => ?_, hbounded.ok⟩, fun hnot => hbounded.deep fun hfits => hnot (hbounded.ok hfits)⟩
  refine Decidable.of_not_not fun hdeep => ?_
  obtain ⟨e, he, -⟩ := hbounded.deep hdeep
  rw [hok] at he
  cases he

end

def plainScript? (text : String) : Option Script :=
  match lexemes text with
  | .ok ls => if ls.any fun l => l.lexeme matches .float _ then none else (Source.fileScript ls).toOption
  | .error _ => none

theorem exists_of_plainScript? (h : (plainScript? text).any q = true) :
    ∃ ls script, lexemes text = .ok ls ∧ (∀ l ∈ ls, ∀ x, l.lexeme ≠ .float x) ∧ Script.ofSource text = .ok script
      ∧ q script = true := by
  unfold plainScript? at h
  split at h
  · rename_i ls hle
    split at h
    · cases h
    · rename_i hf
      cases hs : Source.fileScript ls with
      | error e =>
        rw [hs] at h
        cases h
      | ok script =>
        rw [hs] at h
        refine ⟨ls, script, hle, fun l hl x hx => hf (any_eq_true.2 ⟨l, hl, ?_⟩), ?_, h⟩
        · rw [hx]
        · rw [Script.ofSource, hle]
          exact hs
  · cases h

theorem lexemes_ofList (cs : List Char) : lexemes (String.ofList cs)
      = (Source.Scanner.run (cs.length + 1) { Source.Scanner.start "" with cursor := Source.Cursor.start cs }
          >>= Source.Scanner.close) := by
  rw [lexemes, Source.Scanner.start, String.toList_ofList]
  rfl

/-- A number in brackets with members after them. -/
def bracketedMembers (brackets members : Nat) : List Char :=
  List.replicate brackets '(' ++ '1' :: List.replicate brackets ')' ++ (List.replicate members ['.', 'a']).flatten

theorem tree_of_text_reads_back_bracketed : ∃ ls script, lexemes (String.ofList (bracketedMembers 2 3)) = .ok ls
      ∧ (∀ l ∈ ls, ∀ x, l.lexeme = .float x → Binary64.isFinite x = true)
      ∧ Script.ofSource (String.ofList (bracketedMembers 2 3)) = .ok script
      ∧ (Node.ofScript script).script = .ok script := by
  have hcheck : (plainScript? (String.ofList (bracketedMembers 2 3))).any (fun script =>
      statementsLevels script ≤ maxTreeNesting + 1 ∧ statementsBlocks script ≤ maxBlockNesting) = true := by
    rw [plainScript?, lexemes_ofList]
    decide +kernel
  obtain ⟨ls, script, hlexemes, hfloats, hread, hfits⟩ := exists_of_plainScript? hcheck
  have hfinite : ∀ l ∈ ls, ∀ x, l.lexeme = .float x → Binary64.isFinite x = true :=
    fun l hl x hx => absurd hx (hfloats l hl x)
  exact ⟨ls, script, hlexemes, hfinite, hread,
    (tree_of_text_reads_back hlexemes hfinite hread).1.2 (of_decide_eq_true hfits)⟩

/-- **A text without doubles that is read, whose tree is refused as too deep**: two hundred brackets and fifty members
after them. -/
theorem tree_of_bracketed_members_too_deep :
    ∃ ls script, lexemes (String.ofList (bracketedMembers 200 50)) = .ok ls ∧ (∀ l ∈ ls, ∀ x, l.lexeme ≠ .float x)
      ∧ Script.ofSource (String.ofList (bracketedMembers 200 50)) = .ok script
      ∧ ∃ e, (Node.ofScript script).script = .error e ∧ e.IsTooDeep := by
  have hcheck : (plainScript? (String.ofList (bracketedMembers 200 50))).any (fun script =>
      maxTreeNesting + 1 < statementsLevels script) = true := by
    rw [plainScript?, lexemes_ofList]
    decide +kernel
  obtain ⟨ls, script, hlexemes, hfloats, hread, hdeep⟩ := exists_of_plainScript? hcheck
  have hbounded := tree_bounded hlexemes (fun l hl x hx => absurd hx (hfloats l hl x)) hread
  refine ⟨ls, script, hlexemes, hfloats, hread, hbounded.deep fun h => ?_⟩
  exact absurd h.1 (Nat.not_le.2 (of_decide_eq_true hdeep))

end Playback
