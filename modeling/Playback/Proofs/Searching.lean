import Playback.Method.Text
import Playback.Operation.Compare
import Playback.Proofs.Indexing

/-!
# Searching texts

A text is searched for another that is not empty from the left, and occurrences are passed as a whole (`Text.Found`). So
none is left in the parts between them, joining the parts gives the text back, and the first one is at the first
position there is (`HeapM.searching_agrees`).
-/

namespace Playback

open List

/-! ## Occurrences -/

namespace Text

variable {t cs part : List Char} {steps : List Step}

/-- The steps of a search: where the text occurs it is passed, and every other character is passed alone. -/
inductive Found (t : List Char) : List Char → List Step → Prop
  | nil : Found t [] []
  | occurrence {rest : List Char} {steps : List Step} : Found t rest steps → Found t (t ++ rest) (.occurrence :: steps)
  | char {c : Char} {rest : List Char} {steps : List Step} : ¬ t <+: c :: rest → Found t rest steps →
    Found t (c :: rest) (.char c :: steps)

theorem search_skip (t : List Char) (k : Nat) (cs : List Char) : search t k cs = search t 0 (cs.drop k) := by
  induction cs generalizing k with
  | nil => simp [search]
  | cons c cs ih =>
    cases k with
    | zero => rfl
    | succ k => exact ih k

theorem found_search (ht : t ≠ []) (cs : List Char) : Found t cs (search t 0 cs) := by
  induction hn : cs.length using Nat.strong_induction_on generalizing cs with
  | _ n ih =>
    cases cs with
    | nil => exact .nil
    | cons c cs =>
      rw [search]
      by_cases hp : t <+: c :: cs
      · rw [if_pos <| isPrefixOf_iff_prefix.2 hp, search_skip]
        obtain ⟨rest, hr⟩ := hp
        obtain ⟨_, t, rfl⟩ := exists_cons_of_ne_nil ht
        cases hr
        have hl : rest.length < n := hn ▸ Nat.lt_succ_of_le (by simp)
        simpa using Found.occurrence (ih _ hl rest rfl)
      · rw [if_neg (mt isPrefixOf_iff_prefix.1 hp)]
        exact .char hp (ih _ (hn ▸ Nat.lt_succ_self _) cs rfl)

/-- Replacing occurrences is joining the parts between them. -/
theorem intercalate_parts (u part : List Char) (steps : List Step) :
    u.intercalate (parts part steps) = part.reverse ++ steps.flatMap (Step.replaced u) := by
  have hne (part : List Char) (steps : List Step) : parts part steps ≠ [] := by
    induction steps generalizing part with
    | nil => exact cons_ne_nil _ _
    | cons s steps ih =>
      cases s with
      | occurrence => exact cons_ne_nil _ _
      | char c => exact ih _
  induction steps generalizing part with
  | nil => simp [parts]
  | cons s steps ih =>
    cases s with
    | occurrence => simp [parts, Step.replaced, intercalate_cons_of_ne_nil (hne _ _), ih]
    | char c => simp [parts, Step.replaced, ih]

theorem length_parts (part : List Char) (steps : List Step) :
    (parts part steps).length = steps.countP Step.isOccurrence + 1 := by
  induction steps generalizing part with
  | nil => rfl
  | cons s steps ih => cases s <;> simp [parts, countP_cons, Step.isOccurrence, ih]

/-- Replacing a text by itself changes nothing. -/
theorem Found.flatMap (h : Found t cs steps) : steps.flatMap (Step.replaced t) = cs := by
  induction h with
  | nil => rfl
  | occurrence _ ih | char _ _ ih => simp [Step.replaced, ih]

/-- **No part has the separator in it**: where it occurred it would have been passed. -/
theorem Found.not_mem_parts (h : Found t cs steps) (ht : t ≠ [])
    (hp : ∀ l r, part.reverse ++ cs = l ++ (t ++ r) → part.length ≤ l.length) : ∀ q ∈ parts part steps, ¬ t <:+: q := by
  have hlast {part cs : List Char} (hp : ∀ l r, part.reverse ++ cs = l ++ (t ++ r) → part.length ≤ l.length) :
      ¬ t <:+: part.reverse := by
    rintro ⟨l, r, hq⟩
    have hle := hp l (r ++ cs) (by simp [← hq])
    have hl := congrArg length hq
    have hpos := length_pos_iff.2 ht
    simp only [length_append, length_reverse] at hl
    omega
  induction h generalizing part with
  | nil => exact forall_mem_singleton.2 (hlast hp)
  | occurrence _ ih => exact forall_mem_cons.2 ⟨hlast hp, ih fun _ _ _ => Nat.zero_le _⟩
  | @char c rest _ hc _ ih =>
    refine ih fun l r hq => ?_
    rw [reverse_cons, append_assoc, singleton_append] at hq
    refine Nat.lt_of_le_of_ne (hp l r hq) fun hl => hc ?_
    exact ⟨r, (append_inj_right hq (by rw [length_reverse, hl])).symm⟩

/-- **A search finds the first position** from which on the text goes on with what is looked for. -/
theorem Found.first (h : Found t cs steps) (ht : t ≠ []) : match (bytesBefore? steps).map (charsWithin · cs) with
    | none => ∀ j, ¬ t <+: cs.drop j
    | some i => t <+: cs.drop i ∧ ∀ j < i, ¬ t <+: cs.drop j := by
  induction h with
  | nil => simpa [bytesBefore?] using ht
  | @occurrence rest _ _ _ =>
    have h0 : charsWithin 0 (t ++ rest) = 0 := by cases t ++ rest <;> rfl
    simp [bytesBefore?, h0]
  | @char c rest steps hc _ ih =>
    cases hb : bytesBefore? steps with
    | none =>
      rw [hb] at ih
      simp only [bytesBefore?, hb, Option.map_none] at ih ⊢
      rintro (_ | j)
      · exact hc
      · exact ih j
    | some b =>
      rw [hb] at ih
      have hsize := c.utf8Size_pos
      have hw : charsWithin (c.utf8Size + b) (c :: rest) = charsWithin b rest + 1 := by
        rw [charsWithin, if_neg (by omega), Nat.add_sub_cancel_left]
      simp only [bytesBefore?, hb, Option.map_some, hw] at ih ⊢
      refine ⟨ih.1, ?_⟩
      rintro (_ | j) hj
      · exact hc
      · exact ih.2 j (Nat.lt_of_succ_lt_succ hj)

theorem any_isOccurrence (steps : List Step) : steps.any Step.isOccurrence = (bytesBefore? steps).isSome := by
  induction steps with
  | nil => rfl
  | cons s steps ih => cases s <;> simp [bytesBefore?, Step.isOccurrence, ih]

end Text

/-! ## Methods -/

theorem Elements.foldUpTo_texts {f : Nat × List String → Value → Except Fault (Nat × List String)}
    (hf : ∀ k read s, f (k, read) (.str s) = .ok (k + 1, s :: read)) (parts : List String) (k : Nat)
    (read : List String) :
    ∃ k', foldUpTo f parts.length (k, read) (.items (parts.map .str)) = .ok (k', parts.reverse ++ read) := by
  induction parts generalizing k read with
  | nil => exact ⟨k, rfl⟩
  | cons s parts ih =>
    change ∃ k', (f (k, read) (.str s) >>= fun b => foldUpTo f parts.length b (.items (parts.map .str))) = _
    rw [hf, reverse_cons, append_assoc]
    exact ih (k + 1) (s :: read)

namespace HeapM

variable {h : Heap} {s t : String}

theorem join_list (u name : String) (hr : (h.list ref).toList = parts.map .str) :
    textMethod u .join name [.list ref] h = .ok (.str (u.intercalate parts)) h := by
  obtain ⟨f, hf, hj⟩ : ∃ f, (∀ k read s, f (k, read) (.str s) = .ok (k + 1, s :: read)) ∧ h.joinedTexts (.list ref)
      = (Elements.foldUpTo f (h.list ref).toList.length (0, []) (.items (h.list ref).toList)
        >>= fun r => .ok r.2.reverse) := by
    refine ⟨_, ?_, rfl⟩
    exact fun _ _ _ => rfl
  obtain ⟨k, hk⟩ := Elements.foldUpTo_texts hf parts 0 []
  rw [hr, length_map, hk, append_nil] at hj
  change (lift (h.joinedTexts (.list ref)) >>= fun parts => pure (.str (u.intercalate parts)) : HeapM Value) h = _
  rw [hj]
  exact congrArg (fun parts => EStateM.Result.ok (Value.str (u.intercalate parts)) h) (reverse_reverse parts)

theorem split_text (s name : String) (ht : t.isEmpty = false) (h : Heap) :
    textMethod s .split name [.str t] h
      = .ok (.list h.lists.size) { h with lists := h.lists.push ((Text.splitAt t s).map .str).toArray } := by
  change (lift (if t.isEmpty then throw .emptySeparator else pure (Text.splitAt t s))
    >>= fun parts => listOf (parts.map .str) : HeapM Value) h = _
  rw [ht]
  rfl

theorem find_text (s t name : String) (h : Heap) :
    textMethod s .find name [.str t] h = .ok (.int (((Text.indexOf? t s).map Int64.ofNat).getD (-1))) h := by
  cases hi : Text.indexOf? t s <;> simp [textMethod, textArgument, lift, hi] <;> rfl

/-- The slice of a text that begins at a position and is as long as another. -/
abbrev sliceLike (s t : String) (j : Nat) : HeapM Value :=
  slice (.str s) (some (Int64.ofNat j)) (some (Int64.ofNat (j + t.length)))

theorem sliceLike_iff (hj : (j + t.length : Nat) ≤ Word.greatest) :
    sliceLike s t j h = .ok (.str t) h ↔ t.toList <+: s.toList.drop j := by
  have hw {k : Nat} (hk : k ≤ Word.greatest) (n : Nat) : clampBound (Int64.ofNat k) n = min k n := by
    have hi : (Int64.ofNat k).toInt = k := Int64.toInt_ofNat_of_lt (by unfold Word.greatest at hk; omega)
    unfold clampBound fromStart
    omega
  have hs : between (sliceBounds (some (Int64.ofNat j)) (some (Int64.ofNat (j + t.length))) s.toList.length) s.toList
      = (s.toList.drop j).take t.toList.length := by
    simp only [sliceBounds, hw hj, hw (k := j) (by omega), between, String.length_toList]
    rcases le_total j s.length with hl | hl
    · rw [drop_take, min_eq_left hl, take_eq_take_iff, length_drop, String.length_toList]
      omega
    · simp [hl, drop_eq_nil_of_le, String.length_toList]
  change EStateM.Result.ok (Value.str (String.ofList (between _ _))) h = _ ↔ _
  rw [hs, prefix_iff_eq_take]
  simp [String.ext_iff, eq_comm]

/-- **The methods that search a text agree.** Where a text is split at another that is not empty, the other joins the
parts to the text, replacing it is joining them with what it is replaced by, it is counted once less than there are
parts, and it is in none of them. The other is found at the first position from which on the text goes on with it, and
is in the text if there is one. -/
theorem searching_agrees (h : Heap) (s t u name : String) (ht : t ≠ "")
    (hn : (s.length + t.length : Nat) ≤ Word.greatest) :
    (∃ ref h' n, ∃ parts : List String, textMethod s .split name [.str t] h = .ok (.list ref) h'
      ∧ (h'.list ref).toList = parts.map .str ∧ textMethod t .join name [.list ref] h' = .ok (.str s) h'
      ∧ textMethod s .replace name [.str t, .str u] h' = textMethod u .join name [.list ref] h'
      ∧ h'.length (.list ref) = .ok (Int64.ofNat (n + 1))
      ∧ textMethod s .count name [.str t] h' = .ok (.int (Int64.ofNat n)) h'
      ∧ ∀ part ∈ parts, h'.contains (.str part) (.str t) = .ok false)
    ∧ ((h.contains (.str s) (.str t) = .ok false ∧ textMethod s .find name [.str t] h = .ok (.int (-1)) h
        ∧ ∀ j ≤ s.length, sliceLike s t j h ≠ .ok (.str t) h)
      ∨ ∃ i ≤ s.length, h.contains (.str s) (.str t) = .ok true
        ∧ textMethod s .find name [.str t] h = .ok (.int (Int64.ofNat i)) h
        ∧ sliceLike s t i h = .ok (.str t) h ∧ ∀ j < i, sliceLike s t j h ≠ .ok (.str t) h) := by
  have hempty : t.isEmpty = false := by simpa using ht
  have hne : t.toList ≠ [] := by simpa using ht
  constructor
  · have hfound := Text.found_search hne s.toList
    have hlist : Heap.list { h with lists := h.lists.push ((Text.splitAt t s).map Value.str).toArray } h.lists.size
        = ((Text.splitAt t s).map .str).toArray := by simp [Heap.list]
    have hitems := congrArg Array.toList hlist
    refine ⟨_, _, Text.occurrences t s, _, split_text s name hempty h, hitems, ?_, ?_, ?_, rfl, fun part hpart => ?_⟩
    · rw [join_list t name hitems]
      simp [String.ext_iff, Text.splitAt, Text.intercalate_parts, hfound.flatMap, Function.comp_def]
    · rw [join_list u name hitems]
      change EStateM.Result.ok (Value.str (Text.replaceAll t u s)) _ = _
      simp [String.ext_iff, Text.replaceAll, hempty, Text.splitAt, Text.intercalate_parts, Function.comp_def]
    · rw [Heap.length, hlist]
      simp [Text.splitAt, Text.occurrences, hempty, Text.length_parts]
    · obtain ⟨cs, hcs, rfl⟩ := mem_map.1 hpart
      have hnone := hfound.not_mem_parts hne (fun _ _ _ => Nat.zero_le _) cs hcs
      have hfirst := (Text.found_search hne cs).first hne
      rw [Heap.contains, Text.occursIn, hempty, String.toList_ofList, Text.any_isOccurrence]
      cases hb : Text.bytesBefore? (Text.search t.toList 0 cs) with
      | none => rfl
      | some b =>
        rw [hb] at hfirst
        exact absurd (hfirst.1.isInfix.trans (drop_suffix _ _).isInfix) hnone
  · have hfirst := (Text.found_search hne s.toList).first hne
    rw [find_text, Heap.contains, Text.occursIn, Text.indexOf?, hempty, Text.any_isOccurrence]
    cases hb : Text.bytesBefore? (Text.search t.toList 0 s.toList) with
    | none =>
      rw [hb] at hfirst
      refine .inl ⟨rfl, rfl, fun j hj => ?_⟩
      rw [Ne, sliceLike_iff (by omega)]
      exact hfirst j
    | some b =>
      rw [hb] at hfirst
      obtain ⟨hat, hlt⟩ := hfirst
      dsimp only at hat hlt
      generalize hi : Text.charsWithin b s.toList = i at hat hlt
      have hle : i ≤ s.length := by
        have hl := hat.length_le
        have hpos := length_pos_iff.2 hne
        simp only [length_drop, String.length_toList] at hl hpos
        omega
      refine .inr ⟨i, hle, rfl, by rw [← hi]; rfl, (sliceLike_iff (by omega)).2 hat, fun j hj => ?_⟩
      rw [Ne, sliceLike_iff (by omega)]
      exact hlt j hj

/-- Joining what is left of `aaa` when it is split at `aa` gives it back, though `aa` occurs in it at two positions. -/
theorem searching_agrees_overlapping : ∃ ref h', textMethod "aaa" .split "split" [.str "aa"] Heap.empty
      = .ok (.list ref) h' ∧ textMethod "aa" .join "split" [.list ref] h' = .ok (.str "aaa") h' := by
  obtain ⟨⟨ref, h', _, _, hsplit, -, hjoin, -⟩, -⟩ :=
    searching_agrees Heap.empty "aaa" "aa" "" "split" (by decide) (by decide)
  exact ⟨ref, h', hsplit, hjoin⟩

end HeapM

end Playback
