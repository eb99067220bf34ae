import Mathlib.Algebra.Group.Nat.Defs
import Playback.Proofs.Nesting
import Playback.Proofs.Plain

/-!
# Canonical trees

A tree can hold a script in many shapes: statements bare or wrapped, arguments bare or wrapped, places left empty.
Reading any of them gives a script that is `canonical` and not deeper than the tree may be, so that the canonical
tree of the script reads back as the same script. Reading a tree and writing its canonical tree therefore lose
nothing, and both trees compile alike.
-/

namespace Playback.Binary64

open Float.Model (Format totalExponent UnpackedFloat)
open Float.Model.UnpackedFloat ExtendedMantissa

/-! ## Doubles of integers -/

theorem mantissa_shiftRight_le (em : ExtendedMantissa) (n : Nat) : (em >>> n).mantissa ≤ em.mantissa := by
  induction n with
  | zero => exact Nat.le_refl _
  | succ n ih => exact Nat.le_trans (Nat.div_le_self _ 2) ih

theorem roundedMantissa_le (em : ExtendedMantissa) : em.roundedMantissa ≤ em.mantissa + 1 := by
  unfold roundedMantissa Accuracy.roundToNearestEven
  split <;> omega

/-- Zero, or finite with an exponent far from the greatest one. -/
def Small : UnpackedFloat → Prop
  | .infinity _ | .notANumber => False
  | .zero _ => True
  | .finite _ _ e _ => e < 900

theorem small_dite [Decidable c] {x : c → UnpackedFloat} {y : ¬c → UnpackedFloat} (hx : ∀ h, Small (x h))
    (hy : ∀ h, Small (y h)) : Small (if h : c then x h else y h) := by
  by_cases h : c
  · rw [dif_pos h]
    exact hx h
  · rw [dif_neg h]
    exact hy h

theorem targetExponent_binary64 (t : Int) : Format.binary64.targetExponent t = max (t - 53) (-1074) :=
  rfl

theorem log2_le (h : n ≤ 2 ^ k) : n.log2 ≤ k := by
  by_cases hn : n = 0
  · subst hn
    exact Nat.zero_le k
  · exact Nat.lt_succ_iff.1 ((Nat.log2_lt hn).2 (Nat.lt_of_le_of_lt h (Nat.pow_lt_pow_succ (by decide))))

theorem small_roundWithAccuracy (sign : Sign) {e : Int} (hm : m < 2 ^ 116) (he : e ≤ 0) :
    Small (roundWithAccuracy .binary64 sign m e .exact) := by
  have hl : m.log2 ≤ 116 := log2_le (Nat.le_of_lt hm)
  refine small_dite (fun _ => trivial) fun _ => ?_
  have hr := roundedMantissa_le (ofMantissaAndAccuracy m .exact >>>
    (Format.binary64.targetExponent (totalExponent m e) - e).toNat)
  have hs := mantissa_shiftRight_le (ofMantissaAndAccuracy m .exact)
    (Format.binary64.targetExponent (totalExponent m e) - e).toNat
  have hex : (ofMantissaAndAccuracy m .exact).mantissa = m := rfl
  have hl' := log2_le (k := 116) (Nat.le_trans hr (by omega))
  change (_ : Int) < 900
  revert hl'
  generalize (ofMantissaAndAccuracy m .exact >>>
    (Format.binary64.targetExponent (totalExponent m e) - e).toNat).roundedMantissa = r
  simp only [targetExponent_binary64, totalExponent]
  omega

theorem small_ofNat (hn : n < 2 ^ 64) : Small (UnpackedFloat.ofNat .binary64 n) := by
  unfold UnpackedFloat.ofNat UnpackedFloat.ofInt UnpackedFloat.normalize
  split
  · rename_i hc
    rw [Std.compare_eq_lt] at hc
    omega
  · trivial
  · have hk : (0 - Format.binary64.targetExponent (totalExponent n 0)).toNat ≤ 52 := by
      simp only [targetExponent_binary64, totalExponent]
      omega
    refine small_roundWithAccuracy _ ?_ (by omega)
    rw [Nat.shiftLeft_eq]
    calc n * 2 ^ _ ≤ n * 2 ^ 52 := Nat.mul_le_mul_left n (Nat.pow_le_pow_right (by decide) hk)
      _ < 2 ^ 64 * 2 ^ 52 := Nat.mul_lt_mul_of_pos_right hn (by decide)

theorem exponent_packComponents (sign : Sign) (e : BitVec 11) (m : BitVec 52) :
    (packComponents .binary64 sign e m).toNat / 2 ^ 52 % 2 ^ 11 = e.toNat := by
  have h : (unpackExponent (packComponents .binary64 sign e m)).toNat = e.toNat := by rw [unpackExponent_packComponents]
  rw [unpackExponent, BitVec.toNat_cast, BitVec.extractLsb_toNat, Nat.shiftRight_eq_div_pow] at h
  exact h

theorem exponent_pack (h : Small f) : (UnpackedFloat.pack .binary64 f).toNat / 2 ^ 52 % 2 ^ 11 ≠ 2047 := by
  cases f with
  | infinity | notANumber => exact h.elim
  | zero s =>
    change (packComponents .binary64 s 0 0).toNat / 2 ^ 52 % 2 ^ 11 ≠ 2047
    rw [exponent_packComponents]
    decide
  | finite s m e _ =>
    unfold UnpackedFloat.pack
    dsimp only
    split
    · rename_i hl
      change e < 900 at h
      simp only [Format.exponentBias] at hl
      omega
    · rename_i hl
      split
      · rw [exponent_packComponents, BitVec.toNat_ofNat]
        omega
      · rw [exponent_packComponents]
        decide

theorem isFinite_toFloat (n : UInt64) : isFinite n.toFloat = true := by
  have he := exponent_pack (small_ofNat n.toNat_lt)
  have hb : n.toFloat.toBits.toNat = (UnpackedFloat.pack .binary64 (UnpackedFloat.ofNat .binary64 n.toNat)).toNat := rfl
  unfold isFinite parts?
  rw [hb, if_neg (show ¬_ / Nat.pow 2 52 % Nat.pow 2 11 = 2047 from he)]
  split <;> rfl

end Playback.Binary64

namespace Playback

/-! ## What reading gives -/

/-- A token that a tree with `room` levels can hold. -/
def Token.Readable (room : Nat) (t : Token) : Prop :=
  t.Canonical ∧ t.levels ≤ room

def RowReadable (room : Nat) (row : List Token) : Prop :=
  RowCanonical row ∧ rowLevels row + 1 ≤ room

def Argument.Readable (room : Nat) (a : Argument) : Prop :=
  a.Canonical ∧ argumentsLevels [a] ≤ room

def Entry.Readable (room : Nat) (e : Entry) : Prop :=
  e.Canonical ∧ entriesLevels [e] ≤ room

/-- A statement that a tree with `room` levels of blocks inside it can hold. -/
def Statement.Readable (room : Nat) (s : Statement) : Prop :=
  s.Canonical ∧ s.levels ≤ maxTreeNesting + 1 ∧ s.blocks ≤ room

def BodyReadable (room : Nat) (body : List Statement) : Prop :=
  BodyCanonical body ∧ statementsLevels body ≤ maxTreeNesting + 1 ∧ statementsBlocks body + 1 ≤ room

def Link.Readable (room : Nat) (k : Link) : Prop :=
  k.Canonical ∧ linksLevels [k] ≤ maxTreeNesting + 1 ∧ linksBlocks [k] ≤ room

attribute [local simp] Token.levels rowLevels rowsLevels entriesLevels argumentsLevels Statement.levels statementsLevels
  linksLevels Statement.blocks statementsBlocks linksBlocks Nat.max_le

theorem Token.levels_pos (t : Token) : 0 < t.levels := by
  cases t <;> simp

variable {room : Nat}

theorem Token.Readable.room_pos {t : Token} (h : t.Readable room) : 0 < room :=
  Nat.lt_of_lt_of_le t.levels_pos h.2

/-- The deepest of a list is within a bound if all are. -/
theorem deepest_le {deepest : List α → Nat} (hnil : deepest [] = 0)
    (hcons : ∀ a as, deepest (a :: as) = max (deepest [a]) (deepest as)) (h : ∀ a ∈ as, deepest [a] ≤ room) :
    deepest as ≤ room := by
  induction as with
  | nil => omega
  | cons a r ih =>
    obtain ⟨ha, hr⟩ := List.forall_mem_cons.1 h
    rw [hcons]
    exact Nat.max_le.2 ⟨ha, ih hr⟩

theorem row_of_readable (h : ∀ t ∈ row, t.Readable room) : RowCanonical row ∧ rowLevels row ≤ room :=
  ⟨fun t ht => (h t ht).1, deepest_le rfl (by simp) (by simpa using fun t ht => (h t ht).2)⟩

namespace Node

theorem numberValue_finite (node : Node) : Yields node.numberValue fun n => (Token.number n).Finite := by
  unfold numberValue
  split
  · split
    · exact .ok trivial
    · exact .ok (Binary64.isFinite_toFloat _)
  · rename_i finite _
    exact .ok finite
  · exact .ok trivial
  · exact .error _
  · exact .error _

section

variable {token : Node → Except CompileError Token} {expression : Node → Except CompileError Expression}
variable {room : Nat} (ht : ∀ node, Yields (token node) (Token.Readable room))
variable (he : ∀ node, Yields (expression node) (RowReadable room))

include he

theorem elementsWith_readable (node : Node) : Yields (elementsWith expression node) fun rows =>
      (∀ row ∈ rows, row ≠ [] ∧ RowCanonical row) ∧ rowsLevels rows ≤ room := by
  refine (Yields.mapM he (node.children "elements")).bind fun rows hr => .ok ⟨fun row hro => ?_, ?_⟩
  · obtain ⟨hm, hs⟩ := List.mem_filter.1 hro
    exact ⟨by simpa using hs, (hr row hm).1⟩
  · exact deepest_le rfl (by simp) fun row hro => by simpa using (hr row (List.mem_filter.1 hro).1).2

theorem entryWith_readable (node : Node) : Yields (entryWith expression node) (Entry.Readable room) := by
  unfold entryWith
  split
  · exact .bind (.any _) fun _ _ => (he _).bind fun _ hk => .bind (.any _) fun _ _ =>
      (he _).bind fun v hv => .ok ⟨⟨hk.1, hv.1⟩, Nat.max_le.2 ⟨Nat.max_le.2 ⟨hk.2, hv.2⟩, Nat.zero_le room⟩⟩
  · exact .error _

theorem argumentWith?_readable (node : Node) :
    Yields (argumentWith? expression node) fun a => ∀ arg ∈ a, arg.Readable room := by
  unfold argumentWith?
  dsimp only
  split
  · exact .ok nofun
  · split
    · refine (he _).bind fun ts ht => .ok ?_
      split
      · exact nofun
      · rename_i hs
        rintro _ ⟨⟩
        exact ⟨⟨fun hn => hs (List.isEmpty_iff.2 hn), ht.1⟩, by simp [ht.2]⟩
    · split
      · refine .bind (.any _) fun x _ => .bind (.any _) fun v _ => (he _).bind fun ts ht => .ok ?_
        rintro _ ⟨⟩
        exact ⟨ht.1, by simp [ht.2]⟩
      · exact .error _

theorem argumentsWith_readable (node : Node) : Yields (argumentsWith expression node) fun as =>
      (∀ a ∈ as, a.Canonical) ∧ argumentsLevels as ≤ room := by
  refine (Yields.mapM (argumentWith?_readable he) (node.children "arguments")).bind fun as har => .ok ?_
  have hr : ∀ arg ∈ as.filterMap id, arg.Readable room := by
    intro arg hag
    obtain ⟨a, hm, ha⟩ := List.mem_filterMap.1 hag
    exact har a hm arg ha
  exact ⟨fun a ha => (hr a ha).1, deepest_le rfl (by rintro ⟨⟩ <;> simp) fun a ha => (hr a ha).2⟩

theorem boundWith_readable (hr : 0 < room) (range : Node) (set : String) :
    Yields (boundWith expression range set) (RowReadable room) := by
  unfold boundWith
  split
  · exact .ok ⟨nofun, hr⟩
  · exact he _

include ht

theorem tokenWith_readable (node : Node) : Yields (tokenWith token expression node) (Token.Readable (room + 1)) := by
  unfold tokenWith
  split
  · exact .bind (.any _) fun _ _ => .ok ⟨.operator _, by simp⟩
  · exact (numberValue_finite node).bind fun n hn => .ok ⟨.number hn, by simp⟩
  · exact .bind (.any _) fun s _ => .ok ⟨.string s, by simp⟩
  · exact .bind (.any _) fun b _ => .ok ⟨.bool b, by simp⟩
  · exact .ok ⟨.none, by simp⟩
  · exact .bind (.any _) fun s _ => .ok ⟨.name s, by simp⟩
  · refine .bind (.any _) fun x _ => (argumentsWith_readable he node).bind fun as ha => .ok ?_
    exact ⟨.call x ha.1, Nat.succ_le_succ ha.2⟩
  · refine .bind (.any _) fun object _ => (ht object).bind fun t hto => .bind (.any _) fun m _ =>
      (argumentsWith_readable he node).bind fun as ha => .ok ?_
    exact ⟨.callMember m hto.1 ha.1, by simp [hto.2, ha.2]⟩
  · refine .bind (.any _) fun object _ => (ht object).bind fun t hto => .bind (.any _) fun m _ => .ok ?_
    exact ⟨.member m hto.1, Nat.succ_le_succ hto.2⟩
  · exact (elementsWith_readable he node).bind fun rows hr => .ok ⟨.list hr.1, Nat.succ_le_succ hr.2⟩
  · exact (elementsWith_readable he node).bind fun rows hr => .ok ⟨.tuple hr.1, Nat.succ_le_succ hr.2⟩
  · exact (elementsWith_readable he node).bind fun rows hr => .ok ⟨.set hr.1, Nat.succ_le_succ hr.2⟩
  · refine (Yields.mapM (entryWith_readable he) (node.children "elements")).bind fun _ hen => .ok ?_
    have hl := deepest_le rfl (by rintro ⟨⟩; simp) fun e he => (hen e he).2
    exact ⟨.dict fun e he => (hen e he).1, Nat.succ_le_succ hl⟩
  · refine .bind (.any _) fun tg _ => (ht tg).bind fun t hto => .bind (.any _) fun key _ =>
      (he key).bind fun row hro => .ok ?_
    exact ⟨.subscript hto.1 hro.1, by simp [hto.2, hro.2]⟩
  · refine .bind (.any _) fun range _ => .bind (.any _) fun tg _ => (ht tg).bind fun t hto =>
      (boundWith_readable he hto.room_pos range "start").bind fun _ hs =>
        (boundWith_readable he hto.room_pos range "end").bind fun _ hst => .ok ?_
    exact ⟨.slice hto.1 hs.1 hst.1, Nat.succ_le_succ (Nat.max_le.2 ⟨hto.2, Nat.max_le.2 ⟨hs.2, hst.2⟩⟩)⟩
  · refine .bind (.any _) fun i _ => (he i).bind fun row hro => .ok ?_
    exact ⟨.bracket hro.1, Nat.succ_le_succ hro.2⟩
  · exact .error _

end

/-- **What is read with `room` levels has no more levels**, and is canonical. -/
theorem tokenIn_readable (room : Nat) : (∀ node, Yields (tokenIn room node) (Token.Readable room))
      ∧ ∀ node, Yields (expressionIn room node) (RowReadable room) := by
  induction room with
  | zero => exact ⟨fun _ => .error _, fun _ => .error _⟩
  | succ room ih =>
    refine ⟨tokenWith_readable ih.1 ih.2, fun node => ?_⟩
    change Yields (expressionWith (tokenIn room) node) _
    unfold expressionWith
    split
    · intro row hr
      obtain ⟨hc, hl⟩ := row_of_readable (Yields.mapM ih.1 (node.children "tokens") row hr)
      exact ⟨hc, Nat.succ_le_succ hl⟩
    · exact .error _

theorem expression_readable (node : Node) : Yields (expression node) (RowReadable (maxTreeNesting + 1)) :=
  (tokenIn_readable (maxTreeNesting + 1)).2 node

theorem targets_readable (nodes : Node × List Node) : Yields (tokensWith token (nodes.1 :: nodes.2)) fun targets =>
      targets ≠ [] ∧ RowCanonical targets ∧ rowLevels targets ≤ maxTreeNesting + 1 := by
  intro targets ht
  refine ⟨?_, row_of_readable (Yields.mapM (tokenIn_readable (maxTreeNesting + 1)).1 _ targets ht)⟩
  rintro rfl
  unfold tokensWith at ht
  rw [List.mapM_cons] at ht
  cases hf : token nodes.1 with
  | error e =>
    rw [hf] at ht
    cases ht
  | ok t =>
    cases hr : nodes.2.mapM token with
    | error | ok =>
      rw [hf, hr] at ht
      cases ht

section

variable {block : List Node → Except CompileError (List Statement)} {room : Nat}
variable (hb : ∀ nodes, Yields (block nodes) (BodyReadable room))

include hb

theorem linkWith_readable (node : Node) : Yields (linkWith block node) (Link.Readable room) := by
  unfold linkWith
  split
  · exact .bind (.any _) fun _ _ => (expression_readable _).bind fun c hc =>
      (hb _).bind fun b hbo => .ok ⟨⟨hc.1, hbo.1⟩, by simp [hc.2, hbo.2]⟩
  · exact (hb _).bind fun b hbo => .ok ⟨hbo.1, by simp [hbo.2]⟩
  · exact .error _

theorem bareStatementWith_readable (node : Node) : Yields (bareStatementWith block node) (Statement.Readable room) := by
  unfold bareStatementWith
  split
  · exact .ok ⟨.comment _, by simp⟩
  · exact (expression_readable node).bind fun v hv => .ok ⟨.expression hv.1, hv.2, Nat.zero_le room⟩
  · refine .bind (.any _) fun nodes _ => (targets_readable nodes).bind fun targets ht =>
      .bind (.any _) fun right _ => (expression_readable right).bind fun v hv => .ok ?_
    exact ⟨.assignment ht.1 ht.2.1 hv.1, by simp [ht.2.2, hv.2]⟩
  · refine .bind (.any _) fun first _ => (expression_readable first).bind fun c hc =>
      (hb _).bind fun b hbo => (Yields.mapM (linkWith_readable hb) _).bind fun _ hli => .ok ?_
    have hl := deepest_le rfl (by rintro ⟨⟩ <;> simp) fun k hk => (hli k hk).2.1
    have hbl := deepest_le rfl (by rintro ⟨⟩ <;> simp) fun k hk => (hli k hk).2.2
    exact ⟨.conditional hc.1 hbo.1 fun k hk => (hli k hk).1, by simp [hc.2, hbo.2, hl, hbl]⟩
  · refine .bind (.any _) fun first _ => (expression_readable first).bind fun c hc =>
      (hb _).bind fun b hbo => .ok ?_
    exact ⟨.whileLoop hc.1 hbo.1, by simp [hc.2, hbo.2]⟩
  · refine .bind (.any _) fun nodes _ => (targets_readable nodes).bind fun targets ht =>
      .bind (.any _) fun source _ => (expression_readable source).bind fun _ hi =>
        (hb _).bind fun b hbo => .ok ?_
    exact ⟨.forLoop ht.1 ht.2.1 hi.1 hbo.1, by simp [ht.2.2, hi.2, hbo.2]⟩
  · exact .bind (.any _) fun _ _ => .bind (.any _) fun x _ => .bind (.any _) fun ps _ =>
      (hb _).bind fun b hbo => .ok ⟨.function x _ ps hbo.1, hbo.2⟩
  · split
    · exact .ok ⟨.return_ nofun, by decide, Nat.zero_le room⟩
    · exact (expression_readable _).bind fun v hv => .ok ⟨.return_ hv.1, hv.2, Nat.zero_le room⟩
  · exact .ok ⟨.break_, by simp⟩
  · exact .ok ⟨.continue_, by simp⟩
  · exact .bind (.any _) fun modules _ => .ok ⟨.import_ modules, by simp⟩
  · exact .bind (.any _) fun _ _ => .bind (.any _) fun module _ => .bind (.any _) fun ns _ =>
      .ok ⟨.fromImport module ns, by simp⟩
  · exact .error _

end

theorem blockIn_readable (room : Nat) (nodes : List Node) : Yields (blockIn room nodes) (BodyReadable room) := by
  induction room generalizing nodes with
  | zero => exact .error _
  | succ room ih =>
    have hs : ∀ node, Yields (statementWith (blockIn room) node) (Statement.Readable room) := by
      intro node
      unfold statementWith
      split
      · exact .ok ⟨.blank, by simp⟩
      · exact bareStatementWith_readable ih _
    intro b hb
    have hr := Yields.mapM hs nodes b hb
    refine ⟨fun s hs => (hr s hs).1, deepest_le rfl (by simp) fun s hs => by simpa using (hr s hs).2.1, ?_⟩
    exact Nat.succ_le_succ (deepest_le rfl (by simp) fun s hs => by simpa using (hr s hs).2.2)

theorem script_readable {node : Node} (h : node.script = .ok s) : BodyReadable (maxBlockNesting + 1) s := by
  unfold Node.script at h
  split at h
  · exact blockIn_readable (maxBlockNesting + 1) _ s h
  · cases h

/-- **What any tree is read as, its canonical tree is read as too**, and both compile to the same program or are
refused with the same error. -/
theorem canonical_tree_reads_alike {node : Node} {script : Script} (h : node.script = .ok script) :
    (ofScript script).script = .ok script
      ∧ ((ofScript script).script >>= Script.compile) = (node.script >>= Script.compile) := by
  obtain ⟨hcanonical, hlevels, hblocks⟩ := script_readable h
  have hread := (script_ofScript hcanonical).ok ⟨hlevels, Nat.le_of_succ_le_succ hblocks⟩
  exact ⟨hread, by rw [hread, h]⟩

/-- A bare call with an open place and a bare argument is read as its canonical tree is. -/
theorem canonical_tree_reads_alike_bare_call : let call : Node :=
      { tag := "PYTHON_CALL_VARIABLE"
        childSets := [("arguments", [ofTokenNodes [], ofTokenNodes [leaf "PYTHON_NONE"]])]
        properties := [("identifier", .string "f")] }
    let node := withChildren "PYTHON_FILE" [("body", [ofTokenNodes [call]])]
    let script : Script := [.expression [.call "f" [.positional [.none]]]]
    node.script = .ok script ∧ (ofScript script).script = .ok script
      ∧ ((ofScript script).script >>= Script.compile) = (node.script >>= Script.compile) :=
  ⟨rfl, canonical_tree_reads_alike rfl⟩

end Node

end Playback
