import Mathlib.Order.ConditionallyCompleteLattice.Finset
import FlashNext.Softmax

/-!
# Sparse attention with scaled caches

The sparse attention of `ops_qsa.py` for one query, in real numbers: the columns of its
selection are read tile by tile (`Head.tile`), the tiles are split between programs
(`Head.split`), and their normalized outputs are merged (`mergeSplitk`). The caches hold
scaled rows. `patch_qsa_fp8_kv.py` multiplies the scale of the softmax by the scale of
the keys, and the normalized output by that of the values (`Scaling.folded`); the newer
kernel scales the rows as it reads them (`Scaling.inLoop`).

`attention_eq`: both are the softmax over the valid columns of the rows scaled first,
whatever the number of tiles and of splits is.

Rows that are cast to another type, in the caches and in the kernel, keep their values.
-/

namespace FlashNext.Qsa

noncomputable section

variable {D : Nat}

/-! ## Columns -/

/-- The columns of a selection: which of them are valid, and the rows of the caches that
    they point to. -/
structure Columns (D : Nat) where
  valid : Nat → Bool
  keys : Nat → Fin D → ℝ
  values : Nat → Fin D → ℝ

/-- What the columns of a row are read from: the selected tokens, the pages of the
    requests, and the caches of a head, by block and offset. -/
structure Gather (D : Nat) where
  indices : Nat → Int
  topk : Nat
  request : Int
  numRequests : Int
  pageSize : Int
  pageTableWidth : Int
  blockTable : Int → Int → Int
  numCacheBlocks : Int
  kCache : Int → Int → Fin D → ℝ
  vCache : Int → Int → Fin D → ℝ

namespace Gather

variable (g : Gather D) (column : Nat)

/-- `logical_token`. -/
def logicalToken : Int := if column < g.topk then g.indices column else -1

/-- `logical_page`, of `safe_token`. -/
def logicalPage : Int := max (g.logicalToken column) 0 / g.pageSize

/-- `page_offset`, of `safe_token`. -/
def pageOffset : Int := max (g.logicalToken column) 0 % g.pageSize

/-- `valid`, before the page is read. -/
def hasPage : Bool :=
  decide (0 ≤ g.request) && decide (g.request < g.numRequests) &&
    decide (0 ≤ g.logicalToken column) && decide (g.logicalPage column < g.pageTableWidth)

/-- `physical_page`. -/
def physicalPage : Int :=
  if g.hasPage column then
    g.blockTable (min (max g.request 0) (g.numRequests - 1))
      (min (g.logicalPage column) (g.pageTableWidth - 1))
  else -1

/-- The columns that are gathered. -/
def columns : Columns D where
  valid column := g.hasPage column && decide (0 ≤ g.physicalPage column) &&
    decide (g.physicalPage column < g.numCacheBlocks)
  keys column := g.kCache (max (g.physicalPage column) 0) (g.pageOffset column)
  values column := g.vCache (max (g.physicalPage column) 0) (g.pageOffset column)

end Gather

/-! ## One query -/

/-- Where the scales of the caches are applied. -/
inductive Scaling
  /-- To the scale of the softmax and to the normalized output. -/
  | folded
  /-- To the rows, as they are read. -/
  | inLoop

/-- The attention of one query. -/
structure Head (D : Nat) where
  query : Fin D → ℝ
  columns : Columns D
  kScale : ℝ
  vScale : ℝ
  blockN : Nat
  numTiles : Nat

/-- `max_value`, `normalizer` and `accumulator`. -/
structure SplitState (D : Nat) where
  maxValue : ℝ
  normalizer : ℝ
  accumulator : Fin D → ℝ

namespace Head

variable (h : Head D) (f : Scaling)

/-- `(HEAD_DIM**-0.5) * 1.4426950408889634`, times the scale of the keys if that is
    folded. -/
def softmaxScaleLog2 : ℝ :=
  match f with
  | .folded => (D : ℝ) ^ (-0.5 : ℝ) * 1.4426950408889634 * h.kScale
  | .inLoop => (D : ℝ) ^ (-0.5 : ℝ) * 1.4426950408889634

/-- A row of `keys`. -/
def key (column : Nat) : Fin D → ℝ :=
  if h.columns.valid column then
    match f with
    | .folded => h.columns.keys column
    | .inLoop => fun d => h.columns.keys column d * h.kScale
  else 0

/-- A row of `values`. -/
def value (column : Nat) : Fin D → ℝ :=
  if h.columns.valid column then
    match f with
    | .folded => h.columns.values column
    | .inLoop => fun d => h.columns.values column d * h.vScale
  else 0

/-- `scores`, with the sentinel for columns that are not valid. -/
def score (column : Nat) : ℝ :=
  if h.columns.valid column then
    (∑ d, h.query d * h.key f column d) * h.softmaxScaleLog2 f
  else -1.0e20

/-- One tile of the loop. -/
def tile (st : SplitState D) (tile : Nat) : SplitState D :=
  let column (i : Nat) := tile * h.blockN + i
  let nextMax := max st.maxValue (⨆ i : Fin h.blockN, h.score f (column i))
  let alpha := exp2 (st.maxValue - nextMax : ℝ)
  let probability (i : Nat) : ℝ :=
    if h.columns.valid (column i) then exp2 (h.score f (column i) - nextMax : ℝ) else 0
  { maxValue := nextMax
    normalizer := st.normalizer * alpha + ∑ i ∈ Finset.range h.blockN, probability i
    accumulator := fun d => st.accumulator d * alpha +
      ∑ i ∈ Finset.range h.blockN, probability i * h.value f (column i) d }

/-- The loop of a split over its tiles. -/
def split (splitId numSplits : Nat) : SplitState D :=
  let start := splitId * h.numTiles / numSplits
  let stop := (splitId + 1) * h.numTiles / numSplits
  (List.range' start (stop - start)).foldl (h.tile f) ⟨-1.0e20, 0, 0⟩

/-- `normalized_output`. -/
def normalizedOutput (st : SplitState D) : Fin D → ℝ :=
  let output (d : Fin D) : ℝ :=
    if 0 < st.normalizer then st.accumulator d / max st.normalizer 1.0e-20 else 0
  match f with
  | .folded => fun d => output d * h.vScale
  | .inLoop => output

/-- `partial_lse`. -/
def partialLse (st : SplitState D) : WithBot ℝ :=
  if 0 < st.normalizer then
    ((st.maxValue + log2 (max st.normalizer 1.0e-20) : ℝ) : WithBot ℝ)
  else ⊥

end Head

/-- `_qsa_merge_splitk_kernel`. -/
def mergeSplitk (partialOutput : Nat → Fin D → ℝ) (partialLse : Nat → WithBot ℝ)
    (numSplits blockSplits : Nat) : Fin D → ℝ :=
  let lse (i : Nat) := if i < numSplits then partialLse i else ⊥
  let lseMax := (Finset.range blockSplits).sup lse
  let weight (i : Nat) :=
    exp2 (if i < numSplits ∧ lseMax ≠ ⊥ then (lse i).map (· - lseMax.unbotD 0) else ⊥)
  let denominator := ∑ i ∈ Finset.range blockSplits, weight i
  fun d =>
    let merged := ∑ i ∈ Finset.range blockSplits,
      (if i < numSplits then partialOutput i d else 0) * weight i
    if 0 < denominator then merged / denominator else 0

namespace Head

variable (h : Head D) (f : Scaling)

/-- The output for the query. A single split is stored at once. -/
def attention (numSplits blockSplits : Nat) : Fin D → ℝ :=
  if numSplits = 1 then h.normalizedOutput f (h.split f 0 1)
  else mergeSplitk (fun i => h.normalizedOutput f (h.split f i numSplits))
    (fun i => partialLse (h.split f i numSplits)) numSplits blockSplits

/-! ## The rows scaled first -/

/-- The score of a column, with its key scaled first. -/
def scaledScore (column : Nat) : ℝ :=
  (∑ d, h.query d * (h.columns.keys column d * h.kScale)) *
    ((D : ℝ) ^ (-0.5 : ℝ) * 1.4426950408889634)

/-- The value of a column, scaled first. -/
def scaledValue (column : Nat) : Fin D → ℝ := fun d => h.columns.values column d * h.vScale

/-- The valid ones of some columns. -/
def validIn (a b : Nat) : Finset Nat := (Finset.Ico a b).filter fun c => h.columns.valid c

/-- A single softmax over the valid columns, of the rows scaled first. -/
def reference : Fin D → ℝ :=
  softmaxMean (h.validIn 0 (h.numTiles * h.blockN)) h.scaledScore h.scaledValue

variable {h f}

/-! ## The splits -/

theorem mem_validIn {a b c : Nat} :
    c ∈ h.validIn a b ↔ (a ≤ c ∧ c < b) ∧ h.columns.valid c = true := by
  simp [validIn]

/-- The lanes of a tile. -/
theorem sum_lanes {A : Type*} [AddCommMonoid A] (tile : Nat) (g : Nat → A) :
    (∑ i ∈ Finset.range h.blockN,
      if h.columns.valid (tile * h.blockN + i) then g (tile * h.blockN + i) else 0) =
      ∑ c ∈ h.validIn (tile * h.blockN) ((tile + 1) * h.blockN), g c := by
  rw [validIn, Finset.sum_filter, Finset.sum_Ico_eq_sum_range, Nat.succ_mul,
    Nat.add_sub_cancel_left]

/-- One tile more. -/
theorem validIn_union (h : Head D) {a tile : Nat} (hle : a ≤ tile * h.blockN) :
    h.validIn a (tile * h.blockN) ∪ h.validIn (tile * h.blockN) ((tile + 1) * h.blockN) =
      h.validIn a ((tile + 1) * h.blockN) := by
  have : tile * h.blockN ≤ (tile + 1) * h.blockN := Nat.mul_le_mul_right _ (Nat.le_succ _)
  rw [validIn, validIn, ← Finset.filter_union, Finset.Ico_union_Ico_eq_Ico hle this, validIn]

theorem disjoint_validIn (h : Head D) (a b c : Nat) : Disjoint (h.validIn a b) (h.validIn b c) := by
  rw [Finset.disjoint_left]
  intro x hx hx'
  have := (mem_validIn.1 hx).1
  have := (mem_validIn.1 hx').1
  omega

/-- What a state has seen. -/
def Seen (h : Head D) (f : Scaling) (a b : Nat) (st : SplitState D) : Prop :=
  OnlineSoftmax (h.validIn a b) (h.score f) (h.value f) (-1.0e20) st.maxValue st.normalizer
    st.accumulator

theorem tile_maxValue (st : SplitState D) (tile : Nat) : (h.tile f st tile).maxValue =
    max st.maxValue (⨆ i : Fin h.blockN, h.score f (tile * h.blockN + i)) := rfl

theorem tile_normalizer (st : SplitState D) (tile : Nat) :
    (h.tile f st tile).normalizer =
      st.normalizer * 2 ^ (st.maxValue - (h.tile f st tile).maxValue) +
        ∑ c ∈ h.validIn (tile * h.blockN) ((tile + 1) * h.blockN),
          2 ^ (h.score f c - (h.tile f st tile).maxValue) := by
  rw [← sum_lanes]
  rfl

theorem tile_accumulator (st : SplitState D) (tile : Nat) :
    (h.tile f st tile).accumulator =
      (2 : ℝ) ^ (st.maxValue - (h.tile f st tile).maxValue) • st.accumulator +
        ∑ c ∈ h.validIn (tile * h.blockN) ((tile + 1) * h.blockN),
          (2 : ℝ) ^ (h.score f c - (h.tile f st tile).maxValue) • h.value f c := by
  rw [← sum_lanes]
  funext d
  simp only [Pi.add_apply, Pi.smul_apply, Finset.sum_apply, smul_eq_mul, ite_apply, Pi.zero_apply]
  rw [mul_comm]
  simp only [Head.tile, exp2_coe, ite_mul, zero_mul]

/-- The scores of a tile are not above its maximum. -/
theorem score_le_tile_maxValue (st : SplitState D) {tile c : Nat}
    (hc : c ∈ h.validIn (tile * h.blockN) ((tile + 1) * h.blockN)) :
    h.score f c ≤ (h.tile f st tile).maxValue := by
  obtain ⟨⟨hge, hlt⟩, -⟩ := mem_validIn.1 hc
  rw [Nat.succ_mul] at hlt
  have hle := le_ciSup (f := fun i : Fin h.blockN => h.score f (tile * h.blockN + i))
    (Set.finite_range _).bddAbove ⟨c - tile * h.blockN, by omega⟩
  rw [Nat.add_sub_cancel' hge] at hle
  rw [tile_maxValue]
  exact hle.trans (le_max_right _ _)

/-- The maximum is the one before, the sentinel, or the score of a valid column. -/
theorem tile_maxValue_cases (hblock : 0 < h.blockN) (st : SplitState D) (tile : Nat) :
    (h.tile f st tile).maxValue = st.maxValue ∨ (h.tile f st tile).maxValue = -1.0e20 ∨
      ∃ c ∈ h.validIn (tile * h.blockN) ((tile + 1) * h.blockN),
        h.score f c = (h.tile f st tile).maxValue := by
  have : Nonempty (Fin h.blockN) := ⟨⟨0, hblock⟩⟩
  obtain ⟨i, hi⟩ := exists_eq_ciSup_of_finite
    (f := fun i : Fin h.blockN => h.score f (tile * h.blockN + i))
  rw [tile_maxValue, ← hi]
  rcases max_choice st.maxValue (h.score f (tile * h.blockN + i)) with hmax | hmax
  · exact .inl hmax
  · rw [hmax]
    by_cases hvalid : h.columns.valid (tile * h.blockN + i)
    · refine .inr (.inr ⟨_, mem_validIn.2 ⟨⟨Nat.le_add_right _ _, ?_⟩, hvalid⟩, rfl⟩)
      rw [Nat.succ_mul]
      omega
    · exact .inr (.inl (if_neg hvalid))

/-- A tile adds its valid columns to what has been seen. -/
theorem Seen.tile (hblock : 0 < h.blockN) {a tile : Nat} (hle : a ≤ tile * h.blockN)
    {st : SplitState D} (hst : h.Seen f a (tile * h.blockN) st) :
    h.Seen f a ((tile + 1) * h.blockN) (h.tile f st tile) := by
  have hmax : st.maxValue ≤ (h.tile f st tile).maxValue := le_max_left _ _
  have hunion := OnlineSoftmax.union hst (h.disjoint_validIn a _ ((tile + 1) * h.blockN)) hmax
    (fun c hc => score_le_tile_maxValue st hc) (tile_maxValue_cases hblock st tile)
  rwa [h.validIn_union hle, ← tile_normalizer, ← tile_accumulator] at hunion

/-- So do the tiles of a loop. -/
theorem Seen.foldl (hblock : 0 < h.blockN) {a start : Nat} (hle : a ≤ start * h.blockN)
    {st : SplitState D} (hst : h.Seen f a (start * h.blockN) st) (n : Nat) :
    h.Seen f a ((start + n) * h.blockN) ((List.range' start n).foldl (h.tile f) st) := by
  induction n with
  | zero => exact hst
  | succ n ih =>
    rw [List.range'_concat, List.foldl_append, List.foldl_cons, List.foldl_nil, Nat.one_mul]
    exact ih.tile hblock (hle.trans (Nat.mul_le_mul_right _ (Nat.le_add_right _ _)))

/-- What a split has seen. -/
theorem seen_split (hblock : 0 < h.blockN) (splitId numSplits : Nat) :
    h.Seen f (splitId * h.numTiles / numSplits * h.blockN)
      ((splitId + 1) * h.numTiles / numSplits * h.blockN) (h.split f splitId numSplits) := by
  have hle : splitId * h.numTiles / numSplits ≤ (splitId + 1) * h.numTiles / numSplits :=
    Nat.div_le_div_right (Nat.mul_le_mul_right _ (Nat.le_succ _))
  have hempty : h.Seen f (splitId * h.numTiles / numSplits * h.blockN)
      (splitId * h.numTiles / numSplits * h.blockN) ⟨-1.0e20, 0, 0⟩ := by
    rw [Seen, validIn, Finset.Ico_self, Finset.filter_empty]
    exact .empty _ _ _
  have hseen := hempty.foldl hblock le_rfl
    ((splitId + 1) * h.numTiles / numSplits - splitId * h.numTiles / numSplits)
  rwa [Nat.add_sub_cancel' hle] at hseen

/-! ## The outputs -/

/-- The score of a valid column is that of its scaled key. -/
theorem score_eq {c : Nat} (hc : h.columns.valid c = true) : h.score f c = h.scaledScore c := by
  cases f with
  | folded =>
    simp only [score, key, hc, if_true, softmaxScaleLog2, scaledScore, ← mul_assoc,
      ← Finset.sum_mul]
    ring
  | inLoop => simp only [score, key, hc, if_true, softmaxScaleLog2, scaledScore]

/-- The division by a normalizer that is not small. -/
theorem div_max_eq {n : ℝ} (hn : n = 0 ∨ 1 ≤ n) (x : ℝ) :
    (if 0 < n then x / max n 1.0e-20 else 0) = n⁻¹ * x := by
  rcases hn with rfl | hn
  · simp
  · rw [if_pos (by linarith), max_eq_left (by norm_num at hn ⊢; linarith), div_eq_inv_mul]

namespace Seen

variable {a b : Nat} {st : SplitState D}

/-- The normalizer is `0` if there are no valid columns, and else at least `1`. -/
theorem normalizer_cases (hst : h.Seen f a b st)
    (hscore : ∀ c ∈ h.validIn a b, -1.0e20 < h.scaledScore c) :
    (h.validIn a b = ∅ ∧ st.normalizer = 0) ∨ (h.validIn a b).Nonempty ∧ 1 ≤ st.normalizer := by
  rcases (h.validIn a b).eq_empty_or_nonempty with hempty | hne
  · rw [Seen, hempty] at hst
    exact .inl ⟨hempty, hst.normalizer_eq_zero⟩
  · refine .inr ⟨hne, OnlineSoftmax.one_le_normalizer hst (fun c hc => ?_) hne⟩
    rw [score_eq (mem_validIn.1 hc).2]
    exact hscore c hc

/-- The normalized output is the mean of the scaled rows. -/
theorem normalizedOutput_eq (hst : h.Seen f a b st) (hn : st.normalizer = 0 ∨ 1 ≤ st.normalizer) :
    h.normalizedOutput f st = softmaxMean (h.validIn a b) h.scaledScore h.scaledValue := by
  have hmean := OnlineSoftmax.inv_smul_eq hst
  have hscore : ∀ c ∈ h.validIn a b, h.score f c = h.scaledScore c := fun c hc =>
    score_eq (mem_validIn.1 hc).2
  cases f with
  | folded =>
    have hout : h.normalizedOutput .folded st =
        h.vScale • (st.normalizer⁻¹ • st.accumulator) := by
      funext d
      simp only [normalizedOutput, div_max_eq hn, Pi.smul_apply, smul_eq_mul, mul_comm]
    rw [hout, hmean, ← softmaxMean_smul]
    refine softmaxMean_congr hscore fun c hc => ?_
    funext d
    simp [value, (mem_validIn.1 hc).2, scaledValue, mul_comm]
  | inLoop =>
    have hout : h.normalizedOutput .inLoop st = st.normalizer⁻¹ • st.accumulator := by
      funext d
      simp only [normalizedOutput, div_max_eq hn, Pi.smul_apply, smul_eq_mul]
    rw [hout, hmean]
    refine softmaxMean_congr hscore fun c hc => ?_
    funext d
    simp [value, (mem_validIn.1 hc).2, scaledValue]

/-- The outputs of a split are those of a part. -/
theorem softmaxPart (hst : h.Seen f a b st)
    (hscore : ∀ c ∈ h.validIn a b, -1.0e20 < h.scaledScore c) :
    SoftmaxPart (h.validIn a b) h.scaledScore h.scaledValue (partialLse st)
      (h.normalizedOutput f st) := by
  rcases hst.normalizer_cases hscore with ⟨hempty, hn⟩ | ⟨hne, hn⟩
  · refine ⟨?_, hst.normalizedOutput_eq (.inl hn)⟩
    simp [partialLse, hn, hempty]
  · refine ⟨?_, hst.normalizedOutput_eq (.inr hn)⟩
    have hlog := OnlineSoftmax.add_logb_eq hst hne
    rw [expTotal_congr fun c hc => score_eq (mem_validIn.1 hc).2] at hlog
    rw [if_pos hne, partialLse, if_pos (by linarith),
      max_eq_left (by norm_num at hn ⊢; linarith), log2, hlog]

end Seen

end Head

/-! ## The merge -/

/-- The splits among the lanes. -/
theorem sum_masked {A : Type*} [AddCommMonoid A] {n m : Nat} (hle : n ≤ m) (g : Nat → A) :
    (∑ i ∈ Finset.range m, if i < n then g i else 0) = ∑ i ∈ Finset.range n, g i := by
  rw [← Finset.sum_filter]
  congr 1
  ext i
  simp only [Finset.mem_filter, Finset.mem_range]
  omega

/-- Without a split that has seen a column, the merge is `0`. -/
theorem mergeSplitk_of_bot {out : Nat → Fin D → ℝ} {lse : Nat → WithBot ℝ}
    {numSplits blockSplits : Nat} (hbot : ∀ i < numSplits, lse i = ⊥) :
    mergeSplitk out lse numSplits blockSplits = 0 := by
  have hmax : ((Finset.range blockSplits).sup fun i => if i < numSplits then lse i else ⊥) = ⊥ := by
    rw [Finset.sup_eq_bot_iff]
    intro i _
    split_ifs with hi
    · exact hbot i hi
    · rfl
  simp only [mergeSplitk, hmax, ne_eq, not_true_eq_false, and_false, if_false, exp2_bot,
    Finset.sum_const_zero, lt_irrefl]
  rfl

/-- Otherwise it is the mean of the outputs with the weights of the splits. -/
theorem mergeSplitk_of_ne_bot (out : Nat → Fin D → ℝ) {lse : Nat → WithBot ℝ}
    {numSplits blockSplits : Nat} (hle : numSplits ≤ blockSplits) {i : Nat} (hi : i < numSplits)
    (hne : lse i ≠ ⊥) : ∃ M : ℝ, mergeSplitk out lse numSplits blockSplits =
      (∑ i ∈ Finset.range numSplits, exp2 ((lse i).map (· - M)))⁻¹ •
        ∑ i ∈ Finset.range numSplits, exp2 ((lse i).map (· - M)) • out i := by
  obtain ⟨lseMax, hmax⟩ : ∃ x, x = (Finset.range blockSplits).sup fun i =>
    if i < numSplits then lse i else ⊥ := ⟨_, rfl⟩
  -- A split with a valid column keeps the maximum from being `-inf`.
  have hnot : lseMax ≠ ⊥ := by
    rintro rfl
    have hbot := (Finset.sup_eq_bot_iff _ _).1 hmax.symm i (Finset.mem_range.2 (hi.trans_le hle))
    rw [if_pos hi] at hbot
    exact hne hbot
  refine ⟨lseMax.unbotD 0, ?_⟩
  have hweight : ∀ i, exp2 (if i < numSplits ∧ lseMax ≠ ⊥ then
      (if i < numSplits then lse i else ⊥).map (· - lseMax.unbotD 0) else ⊥) =
      if i < numSplits then exp2 ((lse i).map (· - lseMax.unbotD 0)) else 0 := by
    intro i
    by_cases hi : i < numSplits <;> simp [hi, hnot]
  have hpos : 0 ≤ ∑ i ∈ Finset.range numSplits, exp2 ((lse i).map (· - lseMax.unbotD 0)) :=
    Finset.sum_nonneg fun _ _ => exp2_nonneg _
  funext d
  simp only [mergeSplitk, ← hmax, hweight, sum_masked hle, ite_mul, mul_ite, zero_mul, mul_zero,
    Pi.smul_apply, Finset.sum_apply, smul_eq_mul]
  rw [Finset.sum_congr rfl fun i hi => (if_pos (Finset.mem_range.1 hi)).trans (mul_comm _ _)]
  -- The kernel leaves zeros where there is no weight.
  rcases hpos.eq_or_lt with hzero | hlt
  · simp [← hzero]
  · rw [if_pos hlt, div_eq_inv_mul]

/-- The merge of the parts of `U`. -/
theorem mergeSplitk_eq {S : Nat → Finset Nat} {U : Finset Nat} {s : Nat → ℝ} {v : Nat → Fin D → ℝ}
    {out : Nat → Fin D → ℝ} {lse : Nat → WithBot ℝ} {numSplits blockSplits : Nat}
    (hle : numSplits ≤ blockSplits)
    (htotal : ∑ i ∈ Finset.range numSplits, expTotal (S i) s = expTotal U s)
    (hsum : ∑ i ∈ Finset.range numSplits, expSum (S i) s v = expSum U s v)
    (hpart : ∀ i < numSplits, SoftmaxPart (S i) s v (lse i) (out i)) :
    mergeSplitk out lse numSplits blockSplits = softmaxMean U s v := by
  by_cases hbot : ∀ i < numSplits, lse i = ⊥
  · have hzero : expSum U s v = 0 := by
      rw [← hsum]
      refine Finset.sum_eq_zero fun i hi => ?_
      have hlse := (hpart i (Finset.mem_range.1 hi)).lse_eq
      rw [hbot i (Finset.mem_range.1 hi)] at hlse
      have hempty : ¬(S i).Nonempty := fun h => by simp [h] at hlse
      rw [Finset.not_nonempty_iff_eq_empty.1 hempty]
      rfl
    rw [mergeSplitk_of_bot hbot, softmaxMean, hzero, smul_zero]
  · push Not at hbot
    obtain ⟨i, hi, hne⟩ := hbot
    obtain ⟨M, hM⟩ := mergeSplitk_of_ne_bot out hle hi hne
    rw [hM]
    exact merge_eq htotal hsum (fun i hi => hpart i (Finset.mem_range.1 hi)) M

namespace Head

variable {h : Head D} {f : Scaling}

/-- The splits cover the tiles. -/
theorem sum_validIn_splits {A : Type*} [AddCommMonoid A] (h : Head D) {numSplits : Nat}
    (hsplits : 0 < numSplits) (g : Nat → A) :
    ∑ i ∈ Finset.range numSplits, ∑ c ∈ h.validIn (i * h.numTiles / numSplits * h.blockN)
      ((i + 1) * h.numTiles / numSplits * h.blockN), g c =
    ∑ c ∈ h.validIn 0 (h.numTiles * h.blockN), g c := by
  have hupTo : ∀ n, ∑ i ∈ Finset.range n, ∑ c ∈ h.validIn (i * h.numTiles / numSplits * h.blockN)
      ((i + 1) * h.numTiles / numSplits * h.blockN), g c =
      ∑ c ∈ h.validIn 0 (n * h.numTiles / numSplits * h.blockN), g c := by
    intro n
    induction n with
    | zero => simp [validIn]
    | succ n ih =>
      have hle : n * h.numTiles / numSplits * h.blockN ≤
          (n + 1) * h.numTiles / numSplits * h.blockN :=
        Nat.mul_le_mul_right _ (Nat.div_le_div_right (Nat.mul_le_mul_right _ (Nat.le_succ n)))
      rw [Finset.sum_range_succ, ih, validIn, validIn, validIn, Finset.sum_filter,
        Finset.sum_filter, Finset.sum_filter, Finset.sum_Ico_consecutive _ (Nat.zero_le _) hle]
  rw [hupTo, Nat.mul_div_cancel_left _ hsplits]

/-- The output is a single softmax over the valid columns, of the rows scaled first. -/
theorem attention_eq_reference (hblock : 0 < h.blockN)
    (hscore : ∀ c ∈ h.validIn 0 (h.numTiles * h.blockN), -1.0e20 < h.scaledScore c)
    {numSplits blockSplits : Nat} (hsplits : 0 < numSplits) (hle : numSplits ≤ blockSplits) :
    h.attention f numSplits blockSplits = h.reference := by
  unfold attention
  split_ifs with hone
  · have hseen : h.Seen f 0 (h.numTiles * h.blockN) (h.split f 0 1) := by
      simpa using seen_split hblock 0 1
    exact (hseen.softmaxPart hscore).out_eq
  · refine mergeSplitk_eq hle (h.sum_validIn_splits hsplits _) (h.sum_validIn_splits hsplits _)
      fun i hi => (seen_split hblock i numSplits).softmaxPart fun c hc => hscore c ?_
    obtain ⟨⟨-, hlt⟩, hvalid⟩ := mem_validIn.1 hc
    refine mem_validIn.2 ⟨⟨Nat.zero_le _, hlt.trans_le (Nat.mul_le_mul_right _ ?_)⟩, hvalid⟩
    refine Nat.div_le_of_le_mul ?_
    exact Nat.mul_le_mul_right _ hi

/-- Folding the scales is exact: the folded output is that of the kernel that scales the
    rows as it reads them, and that of a single softmax over the valid columns, of the rows
    scaled first; without a valid column it is `0`. -/
theorem attention_folded_eq (h : Head D) (hblock : 0 < h.blockN)
    (hscore : ∀ c ∈ h.validIn 0 (h.numTiles * h.blockN), -1.0e20 < h.scaledScore c)
    {numSplits blockSplits : Nat} (hsplits : 0 < numSplits) (hle : numSplits ≤ blockSplits) :
    h.attention .folded numSplits blockSplits = h.attention .inLoop numSplits blockSplits ∧
    h.attention .folded numSplits blockSplits = h.reference ∧
    (h.validIn 0 (h.numTiles * h.blockN) = ∅ → h.attention .folded numSplits blockSplits = 0) := by
  have hfolded := attention_eq_reference (f := .folded) hblock hscore hsplits hle
  have hinLoop := attention_eq_reference (f := .inLoop) hblock hscore hsplits hle
  refine ⟨hfolded.trans hinLoop.symm, hfolded, fun hempty => ?_⟩
  rw [hfolded, reference, hempty, softmaxMean_empty]

/-- A selection of one token and an empty slot, in a cache of one block. -/
def oneToken : Gather 1 where
  indices column := if column = 0 then 0 else -1
  topk := 2
  request := 0
  numRequests := 1
  pageSize := 1
  pageTableWidth := 1
  blockTable _ _ := 0
  numCacheBlocks := 1
  kCache _ _ _ := 1
  vCache _ _ _ := 1

/-- A query of that selection, with a tile for each column. -/
def oneTokenHead : Head 1 where
  query _ := 1
  columns := oneToken.columns
  kScale := -1
  vScale := -1
  blockN := 1
  numTiles := 2

/-- Two splits, of which the second has no valid column. -/
theorem attention_folded_eq_oneToken :
    oneTokenHead.attention .folded 2 2 = oneTokenHead.attention .inLoop 2 2 ∧
      oneTokenHead.attention .folded 2 2 = oneTokenHead.reference := by
  have hscore : ∀ c ∈ oneTokenHead.validIn 0 (2 * 1), -1.0e20 < oneTokenHead.scaledScore c := by
    intro c _
    simp only [scaledScore, oneTokenHead, oneToken, Gather.columns, Finset.univ_unique,
      Finset.sum_singleton, Nat.cast_one, Real.one_rpow]
    norm_num
  obtain ⟨hinLoop, hreference, -⟩ := attention_folded_eq oneTokenHead (by decide) hscore
    (show 0 < 2 by decide) (show 2 ≤ 2 by decide)
  exact ⟨hinLoop, hreference⟩

end Head

end

end FlashNext.Qsa
