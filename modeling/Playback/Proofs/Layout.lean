import Playback.Proofs.Inscription

/-!
# Dividing the lines of a written script

Before a line the scanner opens or closes blocks: a line one level deeper opens a block, and the blocks that end are
closed only before the line after them. `Stands` says where the scanner is, as if that were done already. The lines of
statements are then divided into their lexemes, with the marks that open and close blocks, unless blocks are nested too
deep.
-/

namespace Playback.Source

open List

open Scanner (bracketsAfter indentWidth isIndent closeWider commentText isSpace)

variable {p : Scanner → Prop} {r cs : List Char} {found row : List Lexeme}

variable {parts : List String}

/-! ## Where a line starts -/

/-- The widths of the open blocks at a depth, innermost first. -/
def widthsAt : Nat → List Nat
  | 0 => []
  | d + 1 => 4 * (d + 1) :: widthsAt d

theorem length_widthsAt (n : Nat) : (widthsAt n).length = n := by
  induction n with
  | zero => rfl
  | succ n ih => rw [widthsAt, length_cons, ih]

theorem head_widthsAt (n : Nat) : (widthsAt n).head?.getD 0 = 4 * n := by
  cases n <;> rfl

theorem closeWider_widthsAt (h : d ≤ n) : closeWider (4 * d) (widthsAt n) = (widthsAt d, n - d) := by
  induction n with
  | zero =>
    obtain rfl := Nat.le_zero.1 h
    rfl
  | succ n ih =>
    by_cases hd : d = n + 1
    · subst hd
      rw [widthsAt, closeWider, if_neg (Nat.lt_irrefl _), Nat.sub_self]
    · rw [widthsAt, closeWider, if_pos (by omega), ih (by omega)]
      exact Prod.ext rfl (by dsimp only; omega)

/-- A scanner outside brackets has found a row of lexemes, and the blocks down to a depth are open. -/
structure Scanner.Has (s : Scanner) (d : Nat) (row : List Lexeme) : Prop where
  brackets : s.brackets = 0
  widths : s.widths = widthsAt d
  found : s.found.map (·.lexeme) = row.reverse

def Ended (row : List Lexeme) : Prop :=
  ∀ l ∈ row.getLast?, l = .mark .newline

theorem ended_concat (row : List Lexeme) : Ended (row ++ [.mark .newline]) := by
  intro l hl
  rw [getLast?_concat] at hl
  exact (Option.some.inj hl).symm

/-- Once the blocks deeper than `d` are closed, the row is found. -/
def Scanner.Closes (s : Scanner) (d : Nat) (row : List Lexeme) : Prop :=
  ∃ n found, s.Has n found ∧ Ended found ∧ d ≤ n ∧ row = found ++ List.replicate (n - d) (.mark .dedent)

/-- Once the block after a header is opened, the row is found. -/
def Scanner.Opens (s : Scanner) (d : Nat) (row : List Lexeme) : Prop :=
  ∃ n header, s.Has n (header ++ [.mark .colon, .mark .newline]) ∧ d = n + 1
    ∧ row = header ++ [.mark .colon, .mark .newline, .mark .indent]

/-- A line of a depth may come next, and the row is found before it. -/
def Scanner.Stands (s : Scanner) (d : Nat) (row : List Lexeme) : Prop :=
  s.Closes d row ∨ s.Opens d row

namespace Scanner

variable {s : Scanner} {d : Nat} {row : List Lexeme}

theorem Has.width (h : s.Has d row) : s.width = 4 * d := by
  rw [Scanner.width, h.widths, head_widthsAt]

theorem Has.closes (h : s.Has d row) (hr : Ended row) : s.Closes d row :=
  ⟨d, row, h, hr, Nat.le_refl d, by rw [Nat.sub_self, replicate_zero, append_nil]⟩

theorem Stands.moved (h : s.Stands d row) (cursor : Cursor) (lineStart : Bool) :
    Stands { s with cursor := cursor, lineStart := lineStart } d row := by
  rcases h with ⟨n, found, hh, h⟩ | ⟨n, header, hh, h⟩
  · exact .inl ⟨n, found, ⟨hh.brackets, hh.widths, hh.found⟩, h⟩
  · exact .inr ⟨n, header, ⟨hh.brackets, hh.widths, hh.found⟩, h⟩

theorem Closes.outer (h : s.Closes (d + 1) row) : s.Closes d (row ++ [.mark .dedent]) := by
  obtain ⟨n, found, hh, he, _, rfl⟩ := h
  refine ⟨n, found, hh, he, by omega, ?_⟩
  have hl : n - d = n - (d + 1) + 1 := by omega
  rw [hl, replicate_succ', append_assoc]

/-- **The blocks before a line are opened and closed**, unless they are too many. -/
theorem Stands.indentTo (h : s.Stands d row) (strict : Bool) :
    (∃ p, s.indentTo (4 * d) strict = .error ⟨.tooManyLevels, p⟩)
      ∨ ∃ s', s.indentTo (4 * d) strict = .ok s' ∧ s'.Has d row ∧ s'.cursor = s.cursor
        ∧ s'.lineStart = s.lineStart := by
  rcases h with ⟨n, found, hh, -, hle, rfl⟩ | ⟨n, _, hh, rfl, rfl⟩
  · have hf : (4 * d != (widthsAt d).head?.getD 0) = false := by
      rw [head_widthsAt]
      exact bne_self_eq_false _
    unfold Scanner.indentTo
    dsimp only
    rw [hh.width, if_neg (by omega), hh.widths, closeWider_widthsAt hle]
    rw [Scanner.width]
    rw [hf, Bool.and_false]
    refine .inr ⟨_, rfl, ⟨hh.brackets, rfl, ?_⟩, rfl, rfl⟩
    rw [map_append, map_replicate, hh.found, reverse_append, reverse_replicate]
  · unfold Scanner.indentTo
    rw [hh.width, if_pos (by omega)]
    split
    · exact .inl ⟨_, rfl⟩
    · refine .inr ⟨_, rfl, ⟨hh.brackets, by rw [hh.widths, widthsAt], ?_⟩, rfl, rfl⟩
      rw [Scanner.emit, map_cons, hh.found]
      simp

/-! ## Lines -/

/-- A scanner gets to one with a property, or to blocks that are nested too deep. -/
def Gets (s : Scanner) (p : Scanner → Prop) : Prop :=
  ∃ s', s.Reaches s' ∧ (p s' ∨ ∃ place, s'.step = .error ⟨.tooManyLevels, place⟩)

theorem Gets.done (h : p s) : s.Gets p :=
  ⟨s, .refl s, .inl h⟩

theorem Gets.bind (h : s.Gets p) (hq : ∀ s', p s' → s'.Gets q) : s.Gets q := by
  obtain ⟨s', hr, hp | hd⟩ := h
  · obtain ⟨s'', hr', h'⟩ := hq s' hp
    exact ⟨s'', hr.trans hr', h'⟩
  · exact ⟨s', hr, .inr hd⟩

theorem indentWidth_spaces (n : Nat) : indentWidth (List.replicate n ' ') = n := by
  have hf : ∀ n w, (List.replicate n ' ').foldl
      (fun w c => if c = ' ' then w + 1 else if c = '\t' then (w / 8 + 1) * 8 else w) w
        = w + n := by
    intro n
    induction n with
    | zero => exact fun _ => rfl
    | succ n ih =>
      intro w
      rw [replicate_succ, foldl_cons, if_pos rfl, ih]
      omega
  rw [indentWidth, hf, Nat.zero_add]

variable {cursor : Cursor} {c : Char} {cs : List Char}

theorem takeWhile_of_rest {p : Char → Bool} (hr : cursor.rest = xs ++ c :: cs) (hx : ∀ x ∈ xs, p x = true)
    (hc : p c = false) : ∃ q, cursor.takeWhile p = (xs, ⟨c :: cs, q⟩) := by
  obtain ⟨r, q⟩ := cursor
  obtain rfl : r = _ := hr
  exact ⟨_, Cursor.takeWhile_mk hx (halts_cons hc cs) q⟩

theorem takeIndent (hr : cursor.rest = List.replicate n ' ' ++ c :: cs) (hc : isIndent c = false) :
    ∃ p, cursor.takeWhile isIndent = (List.replicate n ' ', ⟨c :: cs, p⟩) :=
  takeWhile_of_rest hr (fun _ hx => eq_of_mem_replicate hx ▸ rfl) hc

/-- **Before a line of code** the blocks are opened and closed, and then its first lexeme is read. -/
theorem step_code (hl : s.lineStart = true) (hs : s.Stands d row)
    (hre : s.cursor.rest = List.replicate (4 * d) ' ' ++ cs) (hcs : Source.Opens cs) :
    (∃ p, s.step = .error ⟨.tooManyLevels, p⟩)
      ∨ ∃ s' : Scanner, s.step = s'.step ∧ s'.Has d row ∧ s'.cursor.rest = cs ∧ s'.lineStart = false := by
  obtain ⟨c, tail, rfl, hc⟩ := hcs
  have hink := isInk_of_opensText hc
  simp only [isInk, isSpace, Bool.and_eq_true, Bool.not_eq_true', bne_iff_ne, Bool.or_eq_false_iff,
    beq_eq_false_iff_ne] at hink
  obtain ⟨⟨⟨⟨⟨⟨hsp, hta⟩, hr⟩, hf⟩, hn⟩, hh⟩, -⟩ := hink
  have hi : isIndent c = false := by simp [isIndent, hsp, hta, hf]
  obtain ⟨p, ht⟩ := takeIndent hre hi
  have hst : s.step
      = (Scanner.indentTo { s with cursor := ⟨c :: tail, p⟩, lineStart := false } (4 * d) true >>= inLine) := by
    unfold step
    rw [if_pos hl, ht]
    dsimp only
    rw [indentWidth_spaces]
    split
    next h => cases h
    next h => exact absurd (List.cons.inj h).1 hn
    next h => exact absurd (List.cons.inj h).1 hr
    next h => exact absurd (List.cons.inj h).1 hh
    next => rfl
  rcases (hs.moved ⟨c :: tail, p⟩ false).indentTo true with ⟨p, he⟩ | ⟨s', hok, hha, hcu, hl'⟩
  · exact .inl ⟨p, by rw [hst, he]; rfl⟩
  · refine .inr ⟨s', ?_, hha, by rw [hcu], hl'⟩
    rw [hst, hok, step, hl']
    rfl

theorem Reaches.of_step_eq {s' s'' : Scanner} (hs : s.step = s'.step)
    (hl : s'.cursor.rest.length ≤ s.cursor.rest.length) (h : s'.Reaches s'') (hne : s'.found ≠ s''.found) :
    s.Reaches s'' := by
  cases h with
  | refl => exact absurd rfl hne
  | step hn hle hr => exact .step (hs.trans hn) (Nat.lt_of_lt_of_le hle hl) hr

theorem step_newline (hl : s.lineStart = false) (hh : s.Has d row) (hr : s.cursor.rest = '\n' :: r) :
    s.Gets fun s' => s'.lineStart = true ∧ s'.Has d (row ++ [.mark .newline]) ∧ s'.cursor.rest = r := by
  obtain ⟨q, ht⟩ : ∃ q, s.cursor.takeWhile isSpace = ([], ⟨'\n' :: r, q⟩) := takeWhile_of_rest hr nofun rfl
  have hs : s.step = .ok (some
      { s.emit (.mark .newline) q with cursor := ⟨r, q.after '\n'⟩, lineStart := true }) := by
    unfold step inLine
    rw [hl, ht]
    dsimp only
    rw [if_pos hh.brackets]
    rfl
  refine ⟨_, .step hs ?_ (.refl _), .inl ⟨rfl, ⟨hh.brackets, hh.widths, ?_⟩, rfl⟩⟩
  · rw [hr]
    exact Nat.lt_succ_self _
  · rw [emit, map_cons, hh.found, reverse_append]
    rfl

/-- **A line of code is divided into its lexemes**, if it closes the brackets it opens. -/
theorem line_gets (hli : s.lineStart = true) (hs : s.Stands d row)
    (hre : s.cursor.rest = List.replicate (4 * d) ' ' ++ (cs ++ '\n' :: r)) (hcs : Source.Opens cs)
    (hsp : Spells cs found ('\n' :: r)) (hf : found ≠ []) (hb : found.foldl bracketsAfter 0 = 0) :
    s.Gets fun s' => s'.lineStart = true ∧ s'.Has d (row ++ found ++ [.mark .newline]) ∧ s'.cursor.rest = r := by
  rcases step_code hli hs hre (hcs.append _) with hd | ⟨s1, hst, hh, hre1, hli1⟩
  · exact ⟨s, .refl s, .inr hd⟩
  · have hn : ∀ c ∈ ([] : List Char), isSpace c = true := nofun
    obtain ⟨s2, hr, ht⟩ := hsp.scan hn (fun _ => rfl) hli1 hre1
    have hle : s1.cursor.rest.length ≤ s.cursor.rest.length := by
      rw [hre1, hre]
      simp only [length_append]
      omega
    have hne : s1.found ≠ s2.found := by
      intro heq
      have hl := ht.found
      rw [heq, self_eq_append_left, reverse_eq_nil_iff] at hl
      exact hf hl
    have hh2 : s2.Has d (row ++ found) := by
      refine ⟨by rw [ht.brackets, hh.brackets, hb], ht.widths.trans hh.widths, ?_⟩
      rw [ht.found, hh.found, reverse_append]
    obtain ⟨s', hr', h⟩ := step_newline ht.lineStart hh2 ht.rest
    exact ⟨s', (hr.of_step_eq hst hle hne).trans hr', h⟩

theorem Stands.opensComment (h : s.Stands d row) : (decide (4 * d ≤ s.width) || s.afterHeader) = true := by
  rcases h with ⟨n, found, hh, -, _, -⟩ | ⟨n, _, hh, -, -⟩
  · rw [hh.width, decide_eq_true (by omega), Bool.true_or]
  · have hf := hh.found
    rw [reverse_append] at hf
    obtain ⟨⟨l, _⟩, tail, ht, rfl, hr⟩ := map_eq_cons_iff.1 hf
    obtain ⟨⟨l, _⟩, tail, rfl, rfl, -⟩ := map_eq_cons_iff.1 hr
    rw [afterHeader, ht, Bool.or_true]

/-- **A comment is kept with its text.** -/
theorem comment_gets (hl : s.lineStart = true) (hs : s.Stands d row)
    (hr : s.cursor.rest = List.replicate (4 * d) ' ' ++ '#' :: (cs ++ '\n' :: r)) (hcs : '\n' ∉ cs) :
    s.Gets fun s' => s'.lineStart = true ∧ s'.Has d (row ++ [.comment (commentText cs), .mark .newline])
      ∧ s'.cursor.rest = r := by
  obtain ⟨p, ht⟩ := takeIndent hr (by decide)
  have hst : s.step = some <$> Scanner.commentLine
      { s with cursor := ⟨'#' :: (cs ++ '\n' :: r), p⟩, lineStart := false } (4 * d) := by
    unfold step
    rw [if_pos hl, ht]
    dsimp only
    rw [indentWidth_spaces]
    rfl
  have hsa := hs.moved ⟨'#' :: (cs ++ '\n' :: r), p⟩ false
  unfold commentLine at hst
  rw [hsa.opensComment] at hst
  rcases hsa.indentTo false with ⟨p, he⟩ | ⟨s', hok, hh, hcu, -⟩
  · rw [he] at hst
    exact ⟨s, .refl s, .inr ⟨p, hst⟩⟩
  · have hch : ∀ c ∈ cs, (c != '\n') = true := fun c hc => bne_iff_ne.2 fun heq => hcs (heq ▸ hc)
    have ha : s'.cursor.advance.takeWhile (· != '\n')
        = (cs, ⟨'\n' :: r, cs.foldl Place.after (p.after '#')⟩) := by
      rw [hcu]
      exact Cursor.takeWhile_mk hch (halts_cons rfl r) _
    rw [hok] at hst
    dsimp only [bind, Except.bind] at hst
    rw [ha] at hst
    refine ⟨_, .step hst ?_ (.refl _), .inl ⟨rfl, ⟨hh.brackets, hh.widths, ?_⟩, rfl⟩⟩
    · rw [hr]
      simp only [Cursor.advance, length_append, length_cons]
      omega
    · rw [emit, emit, map_cons, map_cons, hh.found, reverse_append]
      rfl

theorem step_nil (hl : s.lineStart = true) (hr : s.cursor.rest = []) : s.step = .ok none := by
  have ht : (s.cursor.takeWhile isIndent).2.rest = [] := by
    rw [Cursor.takeWhile, hr]
    rfl
  unfold step
  rw [if_pos hl]
  dsimp only
  rw [ht]

/-- **At the end of the text all blocks are closed.** -/
theorem Closes.close (h : s.Closes 0 row) : ∃ ls, s.close = .ok ls ∧ ls.map (·.lexeme) = row ++ [.mark .endOfFile] := by
  obtain ⟨n, found, hh, he, -, rfl⟩ := h
  have hla : ∀ l ∈ s.found.head?, l.lexeme = .mark .newline := by
    intro l hl
    refine he l.lexeme ?_
    rw [← head?_reverse, ← hh.found, head?_map, hl]
    rfl
  have hc : s.close = .ok (s.found.reverse ++ List.replicate s.widths.length ⟨.mark .dedent, s.endPlace⟩
      ++ [⟨.mark .endOfFile, s.endPlace⟩]) := by
    unfold Scanner.close
    rw [if_neg (by rw [hh.brackets]; exact Nat.lt_irrefl 0)]
    split
    · rfl
    · rfl
    · rename_i hni hn
      cases hs : s.found with
      | nil => exact absurd hs hni
      | cons l r =>
        obtain ⟨x, p⟩ := l
        obtain rfl : x = .mark .newline := hla ⟨x, p⟩ (by rw [hs]; rfl)
        exact absurd hs (hn p r)
  refine ⟨_, hc, ?_⟩
  rw [map_append, map_append, map_reverse, hh.found, reverse_reverse, map_replicate,
    hh.widths, length_widthsAt]
  rfl

end Scanner

/-! ## Rows of lines -/

def linesText (lines : List String) : List Char :=
  lines.flatMap fun line => line.toList ++ ['\n']

/-- Lines of a depth are divided into a row of lexemes, unless blocks are nested too deep. -/
def Divides (d : Nat) (lines : List String) (row : List Lexeme) : Prop :=
  ∀ (s : Scanner) (before : List Lexeme) (rest : List Char), s.lineStart = true → s.Stands d before →
    s.cursor.rest = linesText lines ++ rest →
      s.Gets fun s' => s'.lineStart = true ∧ s'.Closes d (before ++ row) ∧ s'.cursor.rest = rest

theorem linesText_indented (h : tx.toList ≠ []) (lines : List String) (r : List Char) :
    linesText (indentedLine d tx :: lines) ++ r
      = List.replicate (4 * d) ' ' ++ (tx.toList ++ '\n' :: (linesText lines ++ r)) := by
  have hs : (String.join (List.replicate d "    ")).toList = List.replicate (4 * d) ' ' := by
    rw [String.toList_join]
    induction d with
    | zero => rfl
    | succ d ih =>
      have hf : "    ".toList = List.replicate 4 ' ' := rfl
      rw [replicate_succ, flatMap_cons, ih, hf, replicate_append_replicate, Nat.mul_succ, Nat.add_comm]
  have hso : tx.isEmpty = false := by simpa using h
  rw [indentedLine, hso]
  simp [hs, linesText]

theorem commentText_space (h : IsComment tx) (hs : tx ≠ "") : commentText (' ' :: tx.toList) = tx := by
  have hk : Text.dropTailWhile Text.isBlank (' ' :: tx.toList) = ' ' :: tx.toList := by
    obtain hn | ⟨_, z, ht⟩ := eq_nil_or_concat tx.toList
    · exact absurd (String.toList_eq_nil_iff.1 hn) hs
    · have hl : Text.isBlank z = false :=
        h.2 z (by rw [ht, concat_eq_append, getLast?_concat]; rfl)
      rw [Text.dropTailWhile, ht]
      simp [hl]
  rw [commentText, hk]
  exact String.ofList_toList

namespace Divides

theorem append (h : Divides d lines row) (h' : Divides d lines' row') : Divides d (lines ++ lines') (row ++ row') := by
  intro s b r hl hs hr
  rw [linesText, flatMap_append, append_assoc] at hr
  refine (h s b _ hl hs hr).bind fun s' hs' => ?_
  obtain ⟨hl', hc, hr'⟩ := hs'
  rw [← append_assoc b]
  exact h' s' _ r hl' (.inl hc) hr'

theorem line (h : Inscribed tx row) : Divides d [indentedLine d tx] (row ++ [.mark .newline]) := by
  intro s b r hl hs hr
  obtain ⟨c, _, ht, -⟩ := h.opens
  rw [linesText_indented (by rw [ht]; nofun)] at hr
  refine (Scanner.line_gets hl hs hr h.opens (h.spells (among_cons (by decide) _)) h.some (h.balanced 0)).bind fun _ hs' => .done ?_
  obtain ⟨hl', hh, hr'⟩ := hs'
  rw [← append_assoc]
  exact ⟨hl', hh.closes (ended_concat _), hr'⟩

theorem headed (h : Inscribed tx (row ++ [.mark .colon])) (hb : Divides (d + 1) lines row') :
    Divides d (indentedLine d tx :: lines) (headed row row') := by
  intro s b r hl hs hr
  obtain ⟨c, _, ht, -⟩ := h.opens
  rw [linesText_indented (by rw [ht]; nofun)] at hr
  refine (Scanner.line_gets hl hs hr h.opens (h.spells (among_cons (by decide) _)) h.some (h.balanced 0)).bind fun s' hs' => ?_
  obtain ⟨hl', hh, hr'⟩ := hs'
  have ho : s'.Opens (d + 1) (b ++ row ++ [.mark .colon, .mark .newline, .mark .indent]) :=
    ⟨d, b ++ row, by simpa using hh, rfl, rfl⟩
  refine (hb s' _ r hl' (.inr ho) hr').bind fun _ hs'' => .done ?_
  obtain ⟨hl'', hc, hr''⟩ := hs''
  exact ⟨hl'', by simpa [Playback.headed] using hc.outer, hr''⟩

theorem comment (h : IsComment tx) :
    Divides d [indentedLine d (if tx.isEmpty then "#" else "# " ++ tx)] [.comment tx, .mark .newline] := by
  intro s b r hl hs hr
  obtain ⟨cs, hcs, ht, hn⟩ : ∃ cs, (if tx.isEmpty then "#" else "# " ++ tx).toList = '#' :: cs
      ∧ commentText cs = tx ∧ '\n' ∉ cs := by
    by_cases he : tx = ""
    · subst he
      exact ⟨[], rfl, rfl, nofun⟩
    · refine ⟨' ' :: tx.toList, ?_, commentText_space h he, ?_⟩
      · rw [if_neg (by simpa using he), String.toList_append]
        rfl
      · rintro (_ | ⟨_, hm⟩)
        exact h.1 hm
  rw [linesText_indented (by rw [hcs]; nofun), hcs] at hr
  refine (Scanner.comment_gets hl hs hr hn).bind fun _ hs' => .done ?_
  obtain ⟨hl', hh, hr'⟩ := hs'
  rw [ht, append_cons] at hh
  rw [append_cons]
  exact ⟨hl', hh.closes (ended_concat _), hr'⟩

end Divides

/-! ## Texts of lines -/

theorem Inscribed.keyword (k : Keyword) (w : String) (h : Inscribed tx row)
    (hw : w.toList = k.text.toList ++ [' ']) : Inscribed (w ++ tx) (.keyword k :: row) := by
  have ht : (w ++ tx).toList = k.text.toList ++ ' ' :: tx.toList := by simp [hw]
  refine ⟨cons_ne_nil _ _, ht ▸ (Opens.word (isWord_keyword k)).append _, h.balanced, fun {r} hr => ?_⟩
  rw [ht]
  exact (Spells.keyword k (halts_cons (by decide) _)).append ((h.spells hr).space h.some)

theorem Inscribed.between (m : String) (h : Inscribed tx row)
    (h' : Inscribed tx' row') (hm : m.toList = ' ' :: (cs ++ [' ']))
    (hl : ∀ r, Spells cs [l] (' ' :: r)) (hb : Balanced [l]) : Inscribed (tx ++ m ++ tx') (row ++ l :: row') := by
  have ht : (tx ++ m ++ tx').toList = tx.toList ++ ' ' :: (cs ++ ' ' :: tx'.toList) := by
    simp [hm]
  refine ⟨append_ne_nil_of_left_ne_nil h.some _, ht ▸ h.opens.append _, ?_, fun {r} hre => ?_⟩
  · exact h.balanced.append (hb.append h'.balanced)
  rw [ht]
  have hr : Spells (cs ++ ' ' :: tx'.toList) (l :: row') r :=
    (hl _).append ((h'.spells hre).space h'.some)
  exact (h.spells (among_cons (by decide) _)).append (hr.space (cons_ne_nil _ _))

theorem spells_keyword_space (k : Keyword) (r : List Char) : Spells k.text.toList [.keyword k] (' ' :: r) :=
  .keyword k (halts_cons (by decide) r)

theorem inscribed_keyword (k : Keyword) : Inscribed k.text [.keyword k] :=
  ⟨cons_ne_nil _ _, Opens.word (isWord_keyword k), fun _ => rfl, fun hr => .keyword k hr.operand.word⟩

theorem inscribed_name (h : IsName s) : Inscribed s [.name s] :=
  ⟨cons_ne_nil _ _, Opens.word h.1, fun _ => rfl, fun hr => .name h hr.operand.word⟩

theorem Inscribed.header (h : Inscribed tx row) : Inscribed (tx ++ ":") (row ++ [.mark .colon]) := by
  refine ⟨append_ne_nil_of_left_ne_nil h.some _, ?_, h.balanced.append fun _ => rfl, fun hr => ?_⟩
  · rw [String.toList_append]
    exact h.opens.append _
  · rw [String.toList_append]
    exact (h.spells (among_cons (by decide) _)).append (Spells.mark ':' rfl hr.operand.symbol nofun)

theorem inscribed_texts {row : String → List Lexeme} (hs : xs ≠ [])
    (h : ∀ a ∈ xs, Inscribed a (row a)) : Inscribed (commas xs) (commaRow (xs.map row)) := by
  have ht : Inscribed (commas (xs.map id)) (commaRow (xs.map row)) := .commas hs h
  rwa [map_id] at ht

theorem inscribed_signature (hn : IsName x) (hpa : ∀ p ∈ ps, IsName p) :
    Inscribed (x ++ "(" ++ commas ps ++ ")") (.name x :: enclosed .round (namesLexemes ps)) := by
  have ht : (x ++ "(" ++ commas ps ++ ")").toList
      = x.toList ++ '(' :: ((commas ps).toList ++ [')']) := by
    simp
  have hi : Optional (commas ps) (namesLexemes ps) := by
    have hc : Optional (commas (ps.map id)) (namesLexemes ps) :=
      .commas fun p hp => inscribed_name (hpa p hp)
    rwa [map_id] at hc
  refine ⟨cons_ne_nil _ _, ht ▸ (Opens.word hn.1).append _, (Level.names (k := 0) ps).balanced.enclosed .round,
    fun {r} hr => ?_⟩
  rw [ht]
  exact (Spells.name hn (halts_cons (by decide) _)).append (hi.enclosed .round hr.operand)

theorem spells_dots (h : ∀ part ∈ parts, IsName part) (hr : Among operandEnds r) :
    Spells (parts.flatMap fun part => '.' :: part.toList) (parts.flatMap fun part => [.mark .dot, .name part]) r
      ∧ Among operandEnds ((parts.flatMap fun part => '.' :: part.toList) ++ r) := by
  induction parts with
  | nil => exact ⟨.empty r, hr⟩
  | cons part parts ih =>
    obtain ⟨hpa, hp⟩ := forall_mem_cons.1 h
    obtain ⟨hs, he⟩ := ih hp
    exact ⟨(Spells.dotName hpa he.word).append hs, among_cons (by decide) _⟩

theorem inscribed_dotted (h : IsDotted s) : Inscribed s (dottedLexemes s) := by
  obtain ⟨part, parts, hp, hro⟩ := dottedLexemes_eq s
  have ht : s.toList = part.toList ++ parts.flatMap fun part => '.' :: part.toList := by
    have hsp : s.toList = ['.'].intercalate ((nameParts s).map String.toList) := by
      rw [nameParts]
      simp [Function.comp_def]
    rw [hsp, hp, map_cons, intercalate_cons, flatMap_map]
  rw [IsDotted, hp] at h
  obtain ⟨hpa, hr⟩ := forall_mem_cons.1 h
  have hb := (Level.dotted (k := 0) s).balanced
  rw [hro] at hb ⊢
  refine ⟨cons_ne_nil _ _, ht ▸ (Opens.word hpa.1).append _, hb, fun {r} he => ?_⟩
  obtain ⟨hs, hd⟩ := spells_dots hr he.operand
  rw [ht]
  exact (Spells.name hpa hd.word).append hs

/-! ## Blocks -/

namespace Divides

theorem statements {r : List Statement} (h : Divides d lines row) (hr : ∀ s ∈ r, ∀ d, Divides d (s.lines d) s.lexemes) :
    Divides d (lines ++ statementLines d r) (row ++ statementsLexemes r) := by
  induction r generalizing lines row with
  | nil => simpa [statementLines, statementsLexemes] using h
  | cons s r ih =>
    obtain ⟨hs, hr⟩ := forall_mem_cons.1 hr
    rw [statementLines, statementsLexemes, ← append_assoc, ← append_assoc]
    exact ih (h.append (hs d)) hr

theorem body (h : ∀ s ∈ b, ∀ d, Divides d (s.lines d) s.lexemes) (d : Nat) :
    Divides d (bodyLines d b) (bodyLexemes b) := by
  cases b with
  | nil => exact .line (inscribed_keyword .pass)
  | cons s r =>
    obtain ⟨hs, hr⟩ := forall_mem_cons.1 h
    exact (hs d).statements hr

theorem links (h : Divides d lines row) (hl : ∀ k ∈ ls, ∀ d, Divides d (linkLines d [k]) (linksLexemes [k])) :
    Divides d (lines ++ linkLines d ls) (row ++ linksLexemes ls) := by
  induction ls generalizing lines row with
  | nil => simpa [linkLines, linksLexemes] using h
  | cons k ls ih =>
    obtain ⟨hk, hl⟩ := forall_mem_cons.1 hl
    have hn := ih (h.append (hk d)) hl
    cases k <;> simpa [linkLines, linksLexemes] using hn

end Divides

end Playback.Source

namespace Playback

open Source List

/-! ## Statements -/

theorem Token.Fits.inscribedText {t : Token} (ht : t.Fits Token.Safe) : Source.Inscribed t.source t.lexemes := by
  obtain ⟨x, _, hxs, -⟩ := ht.opens
  exact ⟨by rw [hxs]; nofun, ht.opensText, ht.level.balanced, ht.inscribed.row⟩

theorem TargetsFit.inscribed {targets : List Token} (h : TargetsFit Token.Safe targets) :
    Source.Inscribed (targetsSource targets) (targetsLexemes targets) :=
  .commas h.1 fun t ht => (h.2 t ht).1.inscribedText

theorem RowFits.header (h : RowFits Token.Safe afterIs c)
    (k : Keyword) (w : String) (hw : w.toList = k.text.toList ++ [' ']) :
    Source.Inscribed (w ++ expressionSource c ++ ":") (.keyword k :: rowLexemes c ++ [.mark .colon]) :=
  (h.inscribed.keyword k w hw).header

mutual

/-- **The lines of a statement are divided into its lexemes.** -/
theorem Statement.Fits.divides {s : Statement} (hs : s.Fits Token.Safe) (d : Nat) :
    Divides d (s.lines d) s.lexemes := by
  match hs with
  | .comment h => exact .comment h
  | .expression h => exact .line h.inscribed
  | .assignment ht hv =>
    exact .line (ht.inscribed.between " = " hv.inscribed rfl (fun r => .mark '=' rfl (halts_cons rfl r) nofun)
      fun _ => rfl)
  | .conditional hc hb hl _ =>
    exact (Divides.headed (hc.header .if_ "if " rfl) (.body (fun s hs => (hb s hs).divides) (d + 1))).links
      fun k hk => (hl k hk).divides
  | .whileLoop hc hb =>
    exact .headed (hc.header .while_ "while " rfl) (.body (fun s hs => (hb s hs).divides) (d + 1))
  | .forLoop ht hi hb =>
    have hte := ht.inscribed.between " in " hi.inscribed rfl (spells_keyword_space .in_) fun _ => rfl
    have hh := (hte.keyword .for_ "for " rfl).header
    refine .headed ?_ (.body (fun s hs => (hb s hs).divides) (d + 1))
    simpa [expressionSource, String.append_assoc] using hh
  | .function hnm hp _ hb =>
    refine .headed ?_ (.body (fun s hs => (hb s hs).divides) (d + 1))
    simpa [String.append_assoc] using ((inscribed_signature hnm hp).keyword .def_ "def " rfl).header
  | .return_ h =>
    rename_i v
    cases v with
    | nil => exact .line (inscribed_keyword .return_)
    | cons t r => exact .line ((h nofun).inscribed.keyword .return_ "return " rfl)
  | .break_ => exact .line (inscribed_keyword .break_)
  | .continue_ => exact .line (inscribed_keyword .continue_)
  | .import_ hso h =>
    exact .line ((inscribed_texts hso fun m hm => inscribed_dotted (h m hm)).keyword .import_ "import " rfl)
  | .fromImport hmo hso h =>
    have hna := inscribed_texts hso fun n hn => inscribed_name (h n hn)
    have hte := (inscribed_dotted hmo).between " import " hna rfl (spells_keyword_space .import_) fun _ => rfl
    refine .line ?_
    simpa [String.append_assoc, namesLexemes] using hte.keyword .from_ "from " rfl

theorem Link.Fits.divides {k : Link} (hk : k.Fits Token.Safe) (d : Nat) :
    Divides d (linkLines d [k]) (linksLexemes [k]) := by
  match hk with
  | .elif hc hb =>
    have h := Divides.headed (hc.header .elif "elif " rfl) (.body (fun s hs => (hb s hs).divides) (d + 1))
    simpa [linkLines, linksLexemes] using h
  | .else_ hb =>
    have ht : "else:" = Keyword.else_.text ++ ":" := by decide
    have h := Divides.headed (inscribed_keyword .else_).header
      (.body (fun s hs => (hb s hs).divides) (d + 1))
    simpa [linkLines, linksLexemes, ht] using h

end

/-! ## Whole texts -/

theorem toList_toSource (s : Script) : s.toSource.toList = linesText (statementLines 0 s) := by
  rw [Script.toSource, String.toList_join, flatMap_map, linesText]
  simp [String.toList_append]

/-- **A written script is divided into its lexemes**, unless its blocks are nested too deep. -/
theorem lexemes_toSource {sc : Script} (h : ∀ s ∈ sc, s.Fits Token.Safe) :
    (∃ ls, lexemes sc.toSource = .ok ls ∧ ls.map (·.lexeme) = statementsLexemes sc ++ [.mark .endOfFile])
      ∨ ∃ p, lexemes sc.toSource = .error ⟨.tooManyLevels, p⟩ := by
  have hst : (Scanner.start sc.toSource).Has 0 [] := ⟨rfl, rfl, rfl⟩
  have hg : (Scanner.start sc.toSource).Gets fun s =>
      s.lineStart = true ∧ s.Closes 0 (statementsLexemes sc) ∧ s.cursor.rest = [] := by
    have hr : (Scanner.start sc.toSource).cursor.rest = linesText (statementLines 0 sc) ++ [] := by
      rw [append_nil, ← toList_toSource]
      rfl
    cases sc with
    | nil => exact .done ⟨rfl, hst.closes nofun, hr⟩
    | cons s r =>
      obtain ⟨hs, hf⟩ := forall_mem_cons.1 h
      exact ((hs.divides 0).statements fun s hs => (hf s hs).divides) _ [] [] rfl (.inl (hst.closes nofun)) hr
  obtain ⟨s, hre, hen⟩ := hg
  obtain ⟨n, hfu, hru⟩ := hre.run (Nat.lt_succ_self _)
  cases n with
  | zero => cases hfu
  | succ n =>
    change (∃ ls, (Scanner.run _ _ >>= Scanner.close) = .ok ls ∧ _) ∨ ∃ p, (Scanner.run _ _ >>= Scanner.close) = _
    rw [hru, Scanner.run]
    rcases hen with ⟨hl, hc, hr⟩ | ⟨p, he⟩
    · obtain ⟨ls, hcl, hls⟩ := hc.close
      rw [Scanner.step_nil hl hr]
      exact .inl ⟨ls, hcl, hls⟩
    · exact .inr ⟨p, by rw [he]; rfl⟩

/-- **A quoted text is divided into its one literal.** -/
theorem lexemes_quoted (s : String) : ∃ ls, lexemes (Text.quoted s) = .ok ls
      ∧ ls.map (·.lexeme) = [.string s, .mark .newline, .mark .endOfFile] := by
  obtain ⟨ch, tail, ht, hq, hl⟩ := lexes_string s (r := []) nofun
  let line : Scanner := ⟨⟨ch :: tail, ⟨1, 1⟩⟩, [], 0, [], false⟩
  have hst : (Scanner.start (Text.quoted s)).step = line.inLine := by
    -- a quote is no blank, so no block is opened before it
    rw [Scanner.start, Cursor.start, ht]
    simp only [isQuote, Bool.or_eq_true, beq_iff_eq] at hq
    rcases hq with rfl | rfl <;> rfl
  have hre : line.cursor.rest = [] ++ (ch :: tail ++ []) := by
    rw [List.append_nil, List.nil_append]
  have hi : isInk ch = true := isInk_of_opensText (by simp [opensText, hq])
  obtain ⟨p, p', hin⟩ := inLine_lexeme (s := line) (List.forall_mem_nil _) hi hl hre
  have hlen : (Scanner.start (Text.quoted s)).cursor.rest.length = tail.length + 1 := by
    rw [Scanner.start, Cursor.start, ht, List.length_cons]
  unfold lexemes
  dsimp only
  rw [hlen, Scanner.run, hst, hin]
  exact ⟨_, rfl, rfl⟩

end Playback
