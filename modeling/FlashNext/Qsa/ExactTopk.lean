import Mathlib.Order.WithBot
import FlashNext.TopK

/-!
# The exact selection of blocks

`_qsa_exact_topk`, which `patch_qsa_exact_topk.py` adds to the QSA indexer: the columns
that the scoring kernel has not written are set to minus infinity, and `torch.topk`
selects a fixed number of columns of each row, in an order that is not specified. The
expansion kernel reads as many slots of a row as it has visible columns, if there are
that many.

`qsaExactTopk_selects_iff`: the slots that are read have the best visible columns,
whatever the order is, if and only if the row has no visible column or at least as many
as are selected. Otherwise a column that is not visible may come first.
-/

namespace FlashNext.Qsa

/-- An entry of the scores, of finite numbers in `F`: `⊥` is minus infinity, and `⊤` is
    what is above all finite numbers (infinity, and NaN, which `torch.topk` puts first). -/
abbrev Logit (F : Type*) := WithBot (WithTop F)

/-- `torch.topk(values[:, :columns], k, dim=1, sorted=False).indices`, by row and slot. -/
abbrev TorchTopk (F : Type*) := (Nat → Nat → Logit F) → (columns k : Nat) → Nat → Nat → Nat

section Select

variable {F : Type*}

/-- `_qsa_mask_invisible_`. -/
def qsaMaskInvisible (logits : Nat → Nat → Logit F) (visibleBlocks : Nat → Nat) (columns : Nat) :
    Nat → Nat → Logit F :=
  fun row col => if col < columns ∧ visibleBlocks row ≤ col then ⊥ else logits row col

/-- `_qsa_exact_topk`: what is in `blocks` afterwards, by row and slot. -/
def qsaExactTopk (topk : TorchTopk F) (logits : Nat → Nat → Logit F) (visibleBlocks : Nat → Nat)
    (blocks : Nat → Nat → Int) (blockTopk columns : Nat) : Nat → Nat → Int :=
  let logits := qsaMaskInvisible logits visibleBlocks columns
  let k := min blockTopk columns
  let idx := topk logits columns k
  if k < blockTopk then
    fun row slot =>
      if slot < k then idx row slot else if slot < blockTopk then -1 else blocks row slot
  else fun row slot => if slot < blockTopk then idx row slot else blocks row slot

/-- The slots that are read have different visible columns, and none of the others has a
    higher score. -/
structure Selects [LE F] (scores : Nat → Logit F) (visible blockTopk : Nat) (slots : Nat → Int) :
    Prop where
  inRange : ∀ s < min visible blockTopk, 0 ≤ slots s ∧ slots s < visible
  distinct : ∀ s < min visible blockTopk, ∀ t < min visible blockTopk, slots s = slots t → s = t
  best : ∀ s < min visible blockTopk, ∀ col < visible,
    (∀ t < min visible blockTopk, slots t ≠ col) → scores col ≤ scores (slots s).toNat

variable [LinearOrder F]

/-- What `torch.topk` promises of an unsorted selection. -/
def TopkSpec (topk : TorchTopk F) : Prop :=
  ∀ values columns k, k ≤ columns →
    ∀ row, IsTopK (values row) columns k (topk values columns k row)

variable {topk : TorchTopk F} {logits : Nat → Nat → Logit F} {visibleBlocks : Nat → Nat}
  {blocks : Nat → Nat → Int} {blockTopk columns : Nat} {row : Nat}

omit [LinearOrder F] in
/-- The selected columns are in the first slots. -/
theorem qsaExactTopk_of_lt {slot : Nat} (h : slot < min blockTopk columns) :
    qsaExactTopk topk logits visibleBlocks blocks blockTopk columns row slot =
      topk (qsaMaskInvisible logits visibleBlocks columns) columns (min blockTopk columns) row
        slot := by
  unfold qsaExactTopk
  split_ifs with hk
  · simp [h]
  · simp [show slot < blockTopk by omega]

omit [LinearOrder F] in
theorem qsaMaskInvisible_of_lt {col : Nat} (h : col < visibleBlocks row) :
    qsaMaskInvisible logits visibleBlocks columns row col = logits row col :=
  if_neg fun hle => by omega

omit [LinearOrder F] in
theorem qsaMaskInvisible_of_le {col : Nat} (hcol : col < columns) (h : visibleBlocks row ≤ col) :
    qsaMaskInvisible logits visibleBlocks columns row col = ⊥ :=
  if_pos ⟨hcol, h⟩

/-- A row with as many visible columns as are selected. -/
theorem selects_of_le (htopk : TopkSpec topk) (hvisible : visibleBlocks row ≤ columns)
    (hfinite : ∀ col < visibleBlocks row, ⊥ < logits row col)
    (hle : min blockTopk columns ≤ visibleBlocks row) :
    Selects (logits row) (visibleBlocks row) blockTopk
      (qsaExactTopk topk logits visibleBlocks blocks blockTopk columns row) := by
  have hread : min (visibleBlocks row) blockTopk = min blockTopk columns := by omega
  have hsel := htopk (qsaMaskInvisible logits visibleBlocks columns) columns
    (min blockTopk columns) (Nat.min_le_right _ _) row
  -- There are enough visible columns, and a masked one is below each of them.
  have hlt : ∀ s < min blockTopk columns,
      topk (qsaMaskInvisible logits visibleBlocks columns) columns (min blockTopk columns) row s <
        visibleBlocks row := by
    intro s hs
    refine hsel.lt_of_le hle hvisible (fun i hi j hj hge => ?_) hs
    rw [qsaMaskInvisible_of_le hj hge, qsaMaskInvisible_of_lt hi]
    exact hfinite i hi
  refine ⟨fun s hs => ?_, fun s hs t ht heq => ?_, fun s hs col hcol hne => ?_⟩
  · rw [hread] at hs
    rw [qsaExactTopk_of_lt hs]
    have := hlt s hs
    omega
  · rw [hread] at hs ht
    rw [qsaExactTopk_of_lt hs, qsaExactTopk_of_lt ht] at heq
    exact hsel.inj s hs t ht (Int.ofNat_inj.1 heq)
  · rw [hread] at hs hne
    rw [qsaExactTopk_of_lt hs, Int.toNat_natCast]
    have hbest := hsel.largest s hs col (hcol.trans_le hvisible) fun t ht heq =>
      hne t ht (by rw [qsaExactTopk_of_lt ht, heq])
    rwa [qsaMaskInvisible_of_lt hcol, qsaMaskInvisible_of_lt (hlt s hs)] at hbest

/-- There is a `torch.topk` that puts a column first that is not visible, if it selects
    one. -/
theorem exists_topk_masked_first (logits : Nat → Nat → Logit F) (visibleBlocks : Nat → Nat)
    (blockTopk columns : Nat) : ∃ topk : TorchTopk F, TopkSpec topk ∧
      ∀ row, visibleBlocks row < min blockTopk columns → visibleBlocks row ≤
        topk (qsaMaskInvisible logits visibleBlocks columns) columns (min blockTopk columns) row
          0 := by
  classical
  -- Among more columns than are visible there is one that is not: it is swapped to the front.
  have hrow : ∀ (v : Nat → Logit F) (n k m : Nat), k ≤ n →
      ∃ idx, IsTopK v n k idx ∧ (m < k → m ≤ idx 0) := by
    intro v n k m hk
    obtain ⟨idx, hidx⟩ := IsTopK.exists_of_le v hk
    by_cases hm : m < k
    · obtain ⟨s, hs, hge⟩ := hidx.exists_le hm
      exact ⟨_, hidx.swap hs, fun _ => by simpa using hge⟩
    · exact ⟨idx, hidx, fun h => absurd h hm⟩
  choose idx hidx hfirst using hrow
  refine ⟨fun values n k row =>
    if hk : k ≤ n then idx (values row) n k (visibleBlocks row) hk else fun _ => 0, ?_, ?_⟩
  · intro values n k hk row
    simp only [dif_pos hk]
    exact hidx _ _ _ _ hk
  · intro row hlt
    simp only [dif_pos (Nat.min_le_right blockTopk columns)]
    exact hfirst _ _ _ _ (Nat.min_le_right _ _) hlt

/-- The slots that are read have the best visible columns, in whatever order they are
    selected, if and only if no row has a visible column and still fewer of them than are
    selected. -/
theorem qsaExactTopk_selects_iff (rows blockTopk columns : Nat) (logits : Nat → Nat → Logit F)
    (visibleBlocks : Nat → Nat) (blocks : Nat → Nat → Int)
    (hvisible : ∀ row < rows, visibleBlocks row ≤ columns)
    (hfinite : ∀ row < rows, ∀ col < visibleBlocks row,
      ∃ x : F, logits row col = ((x : WithTop F) : Logit F)) :
    (∀ topk, TopkSpec topk → ∀ row < rows, Selects (logits row) (visibleBlocks row) blockTopk
      (qsaExactTopk topk logits visibleBlocks blocks blockTopk columns row)) ↔
    ∀ row < rows, visibleBlocks row = 0 ∨ min blockTopk columns ≤ visibleBlocks row := by
  constructor
  · intro h row hrow
    by_contra hno
    obtain ⟨topk, htopk, hfirst⟩ :=
      exists_topk_masked_first logits visibleBlocks blockTopk columns
    -- The first slot is read, and has a masked column.
    have hlt := (h topk htopk row hrow).inRange 0 (by omega)
    rw [qsaExactTopk_of_lt (by omega)] at hlt
    have := hfirst row (by omega)
    omega
  · intro h topk htopk row hrow
    rcases h row hrow with hzero | hle
    · rw [hzero]
      refine ⟨?_, ?_, ?_⟩ <;> intro s hs <;> simp at hs
    · refine selects_of_le htopk (hvisible row hrow) (fun col hcol => ?_) hle
      obtain ⟨x, hx⟩ := hfinite row hrow col hcol
      rw [hx]
      exact WithBot.bot_lt_coe _

end Select

/-- Two columns, with the scores `0` and `1`. -/
def twoColumns : Nat → Nat → Logit Int := fun _ col => ((col : Int) : WithTop Int)

/-- With one slot, the better of two visible columns is selected. -/
theorem qsaExactTopk_selects_iff_oneSlot : ∃ topk, TopkSpec topk ∧ ∀ row < 1,
    Selects (twoColumns row) 2 1
      (qsaExactTopk topk twoColumns (fun _ => 2) (fun _ _ => 0) 1 2 row) := by
  obtain ⟨topk, htopk, -⟩ := exists_topk_masked_first twoColumns (fun _ => 2) 1 2
  have hiff := qsaExactTopk_selects_iff 1 1 2 twoColumns (fun _ => 2) (fun _ _ => 0)
    (fun _ _ => le_rfl) fun _ _ col _ => ⟨col, rfl⟩
  exact ⟨topk, htopk, hiff.2 (by decide) topk htopk⟩

/-- With two slots and one visible column, the other column may be selected first. -/
theorem qsaExactTopk_oneVisible_not : ¬∀ topk, TopkSpec topk → ∀ row < 1,
    Selects (twoColumns row) 1 2
      (qsaExactTopk topk twoColumns (fun _ => 1) (fun _ _ => 0) 2 2 row) := by
  intro h
  obtain ⟨topk, htopk, hfirst⟩ := exists_topk_masked_first twoColumns (fun _ => 1) 2 2
  have hlt := (h topk htopk 0 Nat.one_pos).inRange 0 (by decide)
  rw [qsaExactTopk_of_lt (by decide)] at hlt
  have := hfirst 0 (by decide)
  omega

end FlashNext.Qsa
