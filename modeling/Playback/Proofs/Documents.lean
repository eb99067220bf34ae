import Mathlib.Algebra.Group.Int.Defs
import Mathlib.Algebra.Group.Nat.Defs
import Mathlib.Data.List.Forall2
import Playback.Json.Document
import Playback.Json.Write
import Playback.Proofs.Spelling

/-!
# JSON texts read back

The text of a value is read as the document that the value is written as (`Document.parse_text`). Reading takes a text
apart from the left, so what is said of a text is said with anything after it that a number could not go on with
(`Written`). The fuel of reading is the length of the text, which is more than enough for every part.
-/

namespace Playback

open List

open Source (Halts halts_cons)

variable {j : Json} {keys : List String → Prop}

namespace Json

mutual

def document : Json → Document
  | .null => .null
  | .bool b => .bool b
  | .number n => .number (some n)
  | .string s => .string (some s)
  | .array items => .array (itemDocuments items)
  | .object members => .object (memberDocuments members)

def itemDocuments : List Json → List Document
  | [] => []
  | item :: rest => item.document :: itemDocuments rest

def memberDocuments : List (String × Json) → List (Option String × Document)
  | [] => []
  | (key, value) :: rest => (some key, value.document) :: memberDocuments rest

end

/-- Every number of a value is an integer of 64 bits, signed or not, and the keys of every object are as asked for. -/
inductive Legal (keys : List String → Prop) : Json → Prop
  | null : Legal keys .null
  | bool (b : Bool) : Legal keys (.bool b)
  | int (hlow : -2 ^ 63 ≤ i) (hhigh : i < 2 ^ 64) : Legal keys (.number (.int i))
  | string (s : String) : Legal keys (.string s)
  | array (hitems : ∀ item ∈ items, Legal keys item) : Legal keys (.array items)
  | object (hkeys : keys (members.map (·.1))) (hmembers : ∀ m ∈ members, Legal keys m.2) : Legal keys (.object members)

end Json

namespace Document

variable {rest : List Char} {fuel : Nat}

theorem skip_cons (hc : isSpace c = false) (cs : List Char) : skip (c :: cs) = c :: cs :=
  dropWhile_cons_of_neg (by simp [hc])

/-! ## Numbers -/

/-- Whether a number may go on with a character. -/
def extendsNumber (c : Char) : Bool :=
  c.isDigit || c == '.' || c == 'e' || c == 'E'

theorem le_ofDigitChars (cs : List Char) (start : Nat) : start ≤ Nat.ofDigitChars 10 cs start := by
  induction cs generalizing start with
  | nil => exact Nat.le_refl _
  | cons c cs ih =>
    rw [Nat.ofDigitChars_cons]
    exact Nat.le_trans (by omega) (ih _)

theorem significand_eq (h : Nat.ofDigitChars 10 cs start < 2 ^ 64) :
    significand start cs = (Nat.ofDigitChars 10 cs start, 0) := by
  induction cs generalizing start with
  | nil => rfl
  | cons c cs ih =>
    have hn : 10 * start + (c.toNat - 48) < Nat.pow 2 64 := Nat.lt_of_le_of_lt (le_ofDigitChars cs _) h
    exact (if_pos hn).trans (ih h)

theorem toDigits_cons (n : Nat) : ∃ c ds, Nat.toDigits 10 n = c :: ds ∧ c.isDigit = true := by
  obtain ⟨c, ds, hco⟩ := exists_cons_of_ne_nil (Nat.toDigits_ne_nil (b := 10))
  have hc : c ∈ Nat.toDigits 10 n := hco ▸ mem_cons_self
  exact ⟨c, ds, hco, Nat.isDigit_of_mem_toDigits (by decide) (by decide) hc⟩

theorem toDigits_ne_zero_cons (hn : 0 < n) (rest more : List Char) : Nat.toDigits 10 n ++ rest ≠ '0' :: more := by
  induction n using Nat.strongRecOn generalizing rest with
  | ind n ih =>
    rw [Nat.toDigits_eq_if (by decide)]
    split
    · rename_i hlt
      have hd : ∀ k < 10, 0 < k → k.digitChar ≠ '0' := by decide
      exact fun h => hd n hlt hn (cons.inj h).1
    · rw [append_assoc]
      exact ih (n / 10) (by omega) (by omega) _

theorem takeWhole_toDigits (n : Nat) (hr : Halts Char.isDigit rest) :
    takeWhole? (Nat.toDigits 10 n ++ rest) = some (Nat.toDigits 10 n, rest) := by
  have hd : ∀ c ∈ Nat.toDigits 10 n, c.isDigit = true :=
    fun c hc => Nat.isDigit_of_mem_toDigits (by decide) (by decide) hc
  rcases Nat.eq_zero_or_pos n with rfl | hn
  · rfl
  · have he : (Nat.toDigits 10 n).isEmpty = false := isEmpty_eq_false_iff.2 Nat.toDigits_ne_nil
    unfold takeWhole?
    split
    · rename_i more hm
      exact absurd hm (toDigits_ne_zero_cons hn _ _)
    · unfold takeDigits?
      dsimp only
      rw [Source.takeWhile_append hd hr, Source.dropWhile_append hd hr, he]
      rfl

theorem takeFraction_of_halts (hr : Halts extendsNumber rest) : takeFraction? rest = some ([], rest) := by
  unfold takeFraction?
  split
  · exact absurd (hr '.' rfl) (by decide)
  · rfl

theorem takeExponent_of_halts (hr : Halts extendsNumber rest) : takeExponent? rest = some (none, rest) := by
  cases rest with
  | nil => rfl
  | cons c rest =>
    have hc := hr c rfl
    simp only [extendsNumber, Bool.or_eq_false_iff] at hc
    exact if_neg (by simp [hc])

theorem readNumber_toDigits (n : Nat) (hr : Halts extendsNumber rest) :
    readNumber? (Nat.toDigits 10 n ++ rest) = some (.number (numberValue false (Nat.toDigits 10 n) [] none), rest)
      ∧ readNumber? ('-' :: (Nat.toDigits 10 n ++ rest))
        = some (.number (numberValue true (Nat.toDigits 10 n) [] none), rest) := by
  have hd : Halts Char.isDigit rest := by
    intro c hc
    have := hr c hc
    simp only [extendsNumber, Bool.or_eq_false_iff] at this
    exact this.1.1.1
  have hw := takeWhole_toDigits n hd
  refine ⟨?_, by simp [readNumber?, hw, takeFraction_of_halts hr, takeExponent_of_halts hr]⟩
  unfold readNumber?
  split
  rename_i negative cs hs
  split at hs
  · rename_i hm
    obtain ⟨c, _, hco, hc⟩ := toDigits_cons n
    rw [hco] at hm
    cases hm
    exact absurd hc (by decide)
  · cases hs
    simp [hw, takeFraction_of_halts hr, takeExponent_of_halts hr]

theorem numberValue_toDigits (hn : n < 2 ^ 64) : numberValue false (Nat.toDigits 10 n) [] none = some (.int n)
      ∧ (1 ≤ n → n ≤ 2 ^ 63 → numberValue true (Nat.toDigits 10 n) [] none = some (.int (-n))) := by
  have hs : significand 0 (Nat.toDigits 10 n) = (n, 0) := by
    rw [significand_eq] <;> rw [Nat.ofDigitChars_ten_toDigits]
    exact hn
  constructor
  · simp [numberValue, hs]
  · intro hl hh
    unfold numberValue
    rw [hs]
    exact (if_pos rfl).trans ((if_neg (by decide)).trans (if_pos ⟨hl, hh⟩))

/-! ## Strings -/

/-- A character is read back from what it is written as, as a character or as a unit. -/
theorem readPieces_stringChar (c : Char) : ∃ piece,
    (∀ acc rest, readPieces? acc (Json.stringChar c ++ rest) = readPieces? (piece :: acc) rest)
      ∧ ∀ pieces, pieceText? (piece :: pieces) = (pieceText? pieces).map (c :: ·) := by
  have hu : ∀ n < 0x20, hexUnit? '0' '0' (Text.hexDigit (n / 16)) (Text.hexDigit n) = some n := by decide
  by_cases hq : c = '"'
  · subst hq
    exact ⟨.char '"', fun _ _ => rfl, fun _ => rfl⟩
  by_cases hb : c = '\\'
  · subst hb
    exact ⟨.char '\\', fun _ _ => rfl, fun _ => rfl⟩
  unfold Json.stringChar
  rw [if_neg (by simpa using hq), if_neg (by simpa using hb)]
  -- the control characters with an escape of their own
  iterate 5
    split
    · rename_i hc
      obtain rfl := beq_iff_eq.1 hc
      exact ⟨.char _, fun _ _ => rfl, fun _ => rfl⟩
  split
  · rename_i hco
    refine ⟨.unit c.toNat, fun acc rest => ?_, fun pieces => ?_⟩
    · change readPieces? acc ('\\' :: 'u' :: '0' :: '0' :: _ :: _ :: rest) = _
      rw [readPieces?, hu _ hco]
    · conv =>
        lhs
        unfold pieceText?
      rw [if_neg (by omega), if_neg (by omega), Char.ofNat_toNat]
  · rename_i hco
    refine ⟨.char c, fun acc rest => ?_, fun _ => rfl⟩
    rw [singleton_append, readPieces?, if_neg hco]
    · exact hq
    · exact fun _ _ _ _ _ h => absurd h hb
    · exact fun _ _ h => absurd h hb

theorem readString_stringText (s : String) (rest : List Char) :
    readString? (s.toList.flatMap Json.stringChar ++ '"' :: rest) = some (some s, rest) := by
  have hp (cs : List Char) : ∃ pieces, pieceText? pieces = some cs ∧ ∀ acc,
      readPieces? acc (cs.flatMap Json.stringChar ++ '"' :: rest) = some (acc.reverse ++ pieces, rest) := by
    induction cs with
    | nil => exact ⟨[], rfl, fun acc => by simp [readPieces?]⟩
    | cons c cs ih =>
      obtain ⟨pieces, ht, hr⟩ := ih
      obtain ⟨piece, hpi, hc⟩ := readPieces_stringChar c
      refine ⟨piece :: pieces, by rw [hc, ht]; rfl, fun acc => ?_⟩
      rw [flatMap_cons, append_assoc, hpi, hr]
      simp
  obtain ⟨pieces, ht, hr⟩ := hp s.toList
  rw [readString?, hr]
  simp [ht]

/-! ## Values -/

/-- The document is read off the front of every text that starts with these characters. -/
structure Written (cs : List Char) (doc : Document) : Prop where
  starts : ∃ c more, cs = c :: more ∧ isSpace c = false ∧ c ≠ ']'
  reads {fuel : Nat} {rest : List Char} : cs.length < fuel → Halts extendsNumber rest →
    readValue? fuel (cs ++ rest) = some (doc, rest)

theorem ne_of_number (hc : c.isDigit = true ∨ c = '-') (hd : d.isDigit = false) (hm : d ≠ '-') : c ≠ d := by
  rintro rfl
  rcases hc with hc | hc
  · rw [hc] at hd
    cases hd
  · exact hm hc

theorem isSpace_of_number (hc : c.isDigit = true ∨ c = '-') : isSpace c = false ∧ c ≠ ']' := by
  have hne {d : Char} : d.isDigit = false → d ≠ '-' → c ≠ d := ne_of_number hc
  simp only [isSpace, Bool.or_eq_false_iff, beq_eq_false_iff_ne]
  exact ⟨⟨⟨⟨hne rfl (by decide), hne rfl (by decide)⟩, hne rfl (by decide)⟩, hne rfl (by decide)⟩, hne rfl (by decide)⟩

theorem readValue_number (hc : c.isDigit = true ∨ c = '-') (cs : List Char) :
    readValue? (fuel + 1) (c :: cs) = readNumber? (c :: cs) := by
  rw [readValue?, skip_cons (isSpace_of_number hc).1]
  split <;> first | rfl | exact absurd (cons.inj ‹_›).1 (ne_of_number hc rfl (by decide))

theorem Written.of_succ {doc : Document} (hs : ∃ c more, cs = c :: more ∧ isSpace c = false ∧ c ≠ ']')
    (hr : ∀ {fuel : Nat} {rest : List Char}, cs.length ≤ fuel → Halts extendsNumber rest →
      readValue? (fuel + 1) (cs ++ rest) = some (doc, rest)) : Written cs doc where
  starts := hs
  reads {fuel _} hf hre := by
    cases fuel with
    | zero => exact absurd hf (Nat.not_lt_zero _)
    | succ fuel => exact hr (Nat.le_of_lt_succ hf) hre

theorem written_int (hl : -2 ^ 63 ≤ i) (hh : i < 2 ^ 64) :
    Written (Numeral.int i).text.toList (.number (some (.int i))) := by
  cases i with
  | ofNat n =>
    have ht : (Numeral.int (.ofNat n)).text.toList = Nat.toDigits 10 n := by
      change (Nat.repr n).toList = _
      rw [Nat.repr_eq_ofList_toDigits, String.toList_ofList]
    obtain ⟨c, ds, hco, hc⟩ := toDigits_cons n
    have hv := (numberValue_toDigits (n := n) (Int.ofNat_lt.1 hh)).1
    rw [ht]
    refine .of_succ ⟨c, ds, hco, isSpace_of_number (.inl hc)⟩ fun _ hr => ?_
    rw [hco, cons_append, readValue_number (.inl hc), ← cons_append, ← hco, (readNumber_toDigits n hr).1, hv]
    rfl
  | negSucc n =>
    have ht : (Numeral.int (.negSucc n)).text.toList = '-' :: Nat.toDigits 10 (n + 1) := by
      change ("-" ++ Nat.repr (n + 1)).toList = _
      simp
    have hv := (numberValue_toDigits (n := n + 1) (by omega)).2 (by omega) (by omega)
    rw [ht]
    refine .of_succ ⟨'-', _, rfl, isSpace_of_number (.inr rfl)⟩ fun _ hr => ?_
    rw [cons_append, readValue_number (.inr rfl), (readNumber_toDigits (n + 1) hr).2, hv]
    rfl

theorem written_string (s : String) : Written (Json.stringText s).toList (.string (some s)) := by
  rw [Json.stringText, String.toList_ofList]
  refine .of_succ ⟨'"', _, rfl, rfl, by decide⟩ fun _ _ => ?_
  rw [List.cons_append, List.append_assoc]
  change (readString? (s.toList.flatMap Json.stringChar ++ '"' :: _)).map _ = _
  rw [readString_stringText]
  rfl

def joined (parts : List String) : List Char :=
  (",".intercalate parts).toList

theorem joined_one (part : String) : joined [part] = part.toList := by
  simp [joined]

theorem joined_more (part next : String) (parts : List String) :
    joined (part :: next :: parts) = part.toList ++ ',' :: joined (next :: parts) := by
  simp [joined]

/-- A part that stands between commas is taken in by a round of the loop that reads such parts up to `close`. -/
structure IsPart {α : Type} (close : Char) (loop : Nat → List α → List Char → Option (List α × List Char))
    (part : String) (a : α) : Prop where
  starts : ∃ c more, part.toList = c :: more ∧ isSpace c = false ∧ c ≠ close
  last (acc : List α) (rest : List Char) {fuel : Nat} : part.toList.length < fuel →
    loop (fuel + 1) acc (part.toList ++ close :: rest) = some ((a :: acc).reverse, rest)
  more (acc : List α) (rest : List Char) {fuel : Nat} : part.toList.length < fuel →
    loop (fuel + 1) acc (part.toList ++ ',' :: rest) = loop fuel (a :: acc) rest

section

variable {α : Type}

/-- The loop reads the parts in their order and stops after the closing character. -/
theorem read_joined (hp : IsPart close loop part a)
    (hpa : List.Forall₂ (IsPart close loop) parts as) (acc : List α) (rest : List Char)
    (hf : (joined (part :: parts)).length < fuel) :
    loop (fuel + 1) acc (joined (part :: parts) ++ close :: rest) = some (acc.reverse ++ a :: as, rest) := by
  induction hpa generalizing part a fuel acc with
  | nil =>
    rw [joined_one] at hf ⊢
    rw [hp.last acc rest hf, reverse_cons]
  | cons hn _ ih =>
    rw [joined_more] at hf ⊢
    simp only [length_append, length_cons] at hf
    cases fuel with
    | zero => omega
    | succ fuel =>
      rw [append_assoc, cons_append, hp.more acc _ (by omega), ih hn (a :: acc) (by omega),
        reverse_cons, append_assoc]
      rfl

theorem joined_starts (hp : IsPart close loop part a) (parts : List String) :
    ∃ c more, joined (part :: parts) = c :: more ∧ isSpace c = false ∧ c ≠ close := by
  obtain ⟨c, more, hco, hc⟩ := hp.starts
  cases parts with
  | nil => exact ⟨c, more, by rw [joined_one, hco], hc⟩
  | cons _ parts => exact ⟨c, _, by rw [joined_more, hco, cons_append], hc⟩

theorem Written.enclosed {make : List α → Document} (hp : List.Forall₂ (IsPart close loop) parts as)
    (ho : isSpace opening = false ∧ opening ≠ ']')
    (hn : ∀ fuel rest, readValue? (fuel + 1) (opening :: close :: rest) = some (make [], rest))
    (hso : ∀ fuel c cs, isSpace c = false → c ≠ close →
      readValue? (fuel + 1) (opening :: c :: cs) = (loop fuel [] (c :: cs)).map fun r => (make r.1, r.2)) :
    Written (opening :: (joined parts ++ [close])) (make as) := by
  refine .of_succ ⟨opening, _, rfl, ho⟩ fun {fuel rest} hf _ => ?_
  rw [cons_append, append_assoc, singleton_append]
  cases hp with
  | nil => exact hn fuel rest
  | @cons _ a parts as hpa hp =>
    obtain ⟨c, _, hco, hs, hc⟩ := joined_starts hpa parts
    simp only [length_cons, length_append] at hf
    cases fuel with
    | zero => omega
    | succ fuel =>
      have hr := read_joined hpa hp [] rest (show _ < fuel by omega)
      rw [hco, cons_append] at hr ⊢
      rw [hso _ c _ hs hc, hr]
      rfl

end

theorem isPart_item (h : Written j.text.toList j.document) : IsPart ']' readItems? j.text j.document where
  starts := h.starts
  last acc rest _ hf := by
    rw [readItems?, h.reads hf (halts_cons rfl rest)]
    rfl
  more acc rest _ hf := by
    rw [readItems?, h.reads hf (halts_cons rfl rest)]
    rfl

theorem readValue_array (fuel : Nat) (cs : List Char) : readValue? (fuel + 1) ('[' :: cs) = match skip cs with
    | ']' :: rest => some (array [], rest)
    | rest => (readItems? fuel [] rest).map fun (items, rest) => (array items, rest) := rfl

theorem written_array {items : List Json} (hi : ∀ j ∈ items, Written j.text.toList j.document) :
    Written (Json.array items).text.toList (.array (Json.itemDocuments items)) := by
  have ht : (Json.array items).text.toList = '[' :: (joined (Json.itemTexts items) ++ [']']) := by
    rw [Json.text, String.toList_append, String.toList_append]
    rfl
  have hp : List.Forall₂ (IsPart ']' readItems?) (Json.itemTexts items) (Json.itemDocuments items) := by
    clear ht
    induction items with
    | nil => exact .nil
    | cons _ items ih =>
      obtain ⟨hie, hi⟩ := forall_mem_cons.1 hi
      exact .cons (isPart_item hie) (ih hi)
  rw [ht]
  refine .enclosed hp ⟨rfl, by decide⟩ (fun _ _ => rfl) fun fuel c cs hs hc => ?_
  rw [readValue_array, skip_cons hs]
  split
  · exact absurd (cons.inj ‹_›).1 hc
  · rfl

theorem member_text (key : String) (j : Json) : (Json.stringText key ++ ":" ++ j.text).toList
    = '"' :: (key.toList.flatMap Json.stringChar ++ '"' :: ':' :: j.text.toList) := by
  simp [Json.stringText]

/-- What is read after a member: the next one, or the end of the object. -/
def afterMember? (fuel : Nat) (acc : List (Option String × Document)) :
    List Char → Option (List (Option String × Document) × List Char)
  | ',' :: rest => readMembers? fuel acc rest
  | '\x7d' :: rest => some (acc.reverse, rest)
  | _ => none

/-- The key is read, and then the value. -/
theorem readMembers_member (key : String) (h : Written j.text.toList j.document)
    (acc : List (Option String × Document))
    (hf : (Json.stringText key ++ ":" ++ j.text).toList.length < fuel) (hre : Halts extendsNumber rest) :
    readMembers? (fuel + 1) acc ((Json.stringText key ++ ":" ++ j.text).toList ++ rest)
      = afterMember? fuel ((some key, j.document) :: acc) (skip rest) := by
  rw [member_text] at hf ⊢
  rw [cons_append, append_assoc, readMembers?]
  split
  · rename_i hq
    cases hq
    rw [cons_append, readString_stringText, cons_append]
    have hc : skip (':' :: (j.text.toList ++ rest)) = ':' :: (j.text.toList ++ rest) := skip_cons rfl _
    have hl : j.text.toList.length < fuel := by
      simp only [length_cons, length_append] at hf
      omega
    have hv := h.reads hl hre
    simp only [hc, hv]
    rfl
  · rename_i hq
    exact absurd rfl (hq _)

theorem isPart_member (key : String) (h : Written j.text.toList j.document) :
    IsPart '\x7d' readMembers? (Json.stringText key ++ ":" ++ j.text) (some key, j.document) where
  starts := ⟨'"', _, member_text key j, rfl, by decide⟩
  last acc rest _ hf := readMembers_member key h acc hf (halts_cons rfl rest)
  more acc rest _ hf := readMembers_member key h acc hf (halts_cons rfl rest)

theorem readValue_object (fuel : Nat) (cs : List Char) : readValue? (fuel + 1) ('\x7b' :: cs) = match skip cs with
    | '\x7d' :: rest => some (object [], rest)
    | rest => (readMembers? fuel [] rest).map fun (members, rest) => (object members, rest) := rfl

theorem written_object {members : List (String × Json)} (hme : ∀ m ∈ members, Written m.2.text.toList m.2.document) :
    Written (Json.object members).text.toList (.object (Json.memberDocuments members)) := by
  have ht : (Json.object members).text.toList = '\x7b' :: (joined (Json.memberTexts members) ++ ['\x7d']) := by
    rw [Json.text, String.toList_append, String.toList_append]
    rfl
  have hp : List.Forall₂ (IsPart '\x7d' readMembers?) (Json.memberTexts members)
      (Json.memberDocuments members) := by
    clear ht
    induction members with
    | nil => exact .nil
    | cons m members ih =>
      obtain ⟨hm, hme⟩ := forall_mem_cons.1 hme
      exact .cons (isPart_member m.1 hm) (ih hme)
  rw [ht]
  refine .enclosed hp ⟨rfl, by decide⟩ (fun _ _ => rfl) fun fuel c cs hs hc => ?_
  rw [readValue_object, skip_cons hs]
  split
  · exact absurd (cons.inj ‹_›).1 hc
  · rfl

/-- **The text of a value is read as its document.** -/
theorem written (hj : j.Legal keys) : Written j.text.toList j.document := by
  induction hj with
  | null => exact .of_succ ⟨'n', _, rfl, rfl, by decide⟩ fun _ _ => rfl
  | bool b => cases b <;> exact .of_succ ⟨_, _, rfl, rfl, by decide⟩ fun _ _ => rfl
  | int hl hh => exact written_int hl hh
  | string s => exact written_string s
  | array _ ih => exact written_array ih
  | object _ _ ih => exact written_object ih

theorem parse_text (hj : j.Legal keys) : parse? j.text = some j.document := by
  have he : Halts extendsNumber [] := nofun
  have hr := (written hj).reads (Nat.lt_succ_self _) he
  rw [append_nil] at hr
  unfold parse?
  dsimp only
  rw [hr]
  rfl

end Document

end Playback
