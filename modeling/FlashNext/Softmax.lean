import Mathlib.Analysis.SpecialFunctions.Log.Base

/-!
# Softmax by parts

The softmax mean of the vectors `v c` with the weights `2 ^ s c`, over a finite set of
indices (`softmaxMean`), and two ways to compute it without the weights themselves:

* *online*: with the greatest score so far, and sums that are scaled to it
  (`OnlineSoftmax`), which are scaled again when a greater one comes
  (`OnlineSoftmax.union`);
* *split*: each part gives its own mean, and the binary logarithm of its total weight,
  and the means are merged with the weights of the parts (`merge_eq`).

Scaling the vectors scales the mean (`softmaxMean_smul`).
-/

namespace FlashNext

variable {ι κ E : Type*} [AddCommGroup E] [Module ℝ E]

/-! ## The mean -/

/-- The total of the weights. -/
noncomputable def expTotal (S : Finset ι) (s : ι → ℝ) : ℝ := ∑ c ∈ S, 2 ^ s c

/-- The sum of the weighted vectors. -/
noncomputable def expSum (S : Finset ι) (s : ι → ℝ) (v : ι → E) : E := ∑ c ∈ S, (2 : ℝ) ^ s c • v c

/-- The softmax mean of the vectors; `0` if there is none. -/
noncomputable def softmaxMean (S : Finset ι) (s : ι → ℝ) (v : ι → E) : E :=
  (expTotal S s)⁻¹ • expSum S s v

@[simp] theorem softmaxMean_empty (s : ι → ℝ) (v : ι → E) : softmaxMean ∅ s v = 0 := by
  simp [softmaxMean, expSum]

/-- Scaled vectors have the scaled mean. -/
theorem softmaxMean_smul (S : Finset ι) (s : ι → ℝ) (a : ℝ) (v : ι → E) :
    softmaxMean S s (fun c => a • v c) = a • softmaxMean S s v := by
  simp only [softmaxMean, expSum, smul_comm _ a, ← Finset.smul_sum]

/-- Only the scores and the vectors of the indices matter. -/
theorem expTotal_congr {S : Finset ι} {s s' : ι → ℝ} (hs : ∀ c ∈ S, s c = s' c) :
    expTotal S s = expTotal S s' :=
  Finset.sum_congr rfl fun c hc => by rw [hs c hc]

theorem softmaxMean_congr {S : Finset ι} {s s' : ι → ℝ} {v v' : ι → E}
    (hs : ∀ c ∈ S, s c = s' c) (hv : ∀ c ∈ S, v c = v' c) :
    softmaxMean S s v = softmaxMean S s' v' := by
  have hsum : expSum S s v = expSum S s' v' :=
    Finset.sum_congr rfl fun c hc => by rw [hs c hc, hv c hc]
  rw [softmaxMean, softmaxMean, expTotal_congr hs, hsum]

theorem expTotal_pos {S : Finset ι} (hS : S.Nonempty) (s : ι → ℝ) : 0 < expTotal S s :=
  Finset.sum_pos (fun _ _ => Real.rpow_pos_of_pos two_pos _) hS

/-- Weights relative to another score. -/
theorem two_rpow_sub (x m : ℝ) : (2 : ℝ) ^ (x - m) = 2 ^ (-m) * 2 ^ x := by
  rw [← Real.rpow_add two_pos, neg_add_eq_sub]

theorem sum_rpow_sub (S : Finset ι) (s : ι → ℝ) (m : ℝ) :
    ∑ c ∈ S, (2 : ℝ) ^ (s c - m) = 2 ^ (-m) * expTotal S s := by
  simp only [two_rpow_sub, expTotal, Finset.mul_sum]

theorem sum_rpow_sub_smul (S : Finset ι) (s : ι → ℝ) (v : ι → E) (m : ℝ) :
    ∑ c ∈ S, (2 : ℝ) ^ (s c - m) • v c = (2 : ℝ) ^ (-m) • expSum S s v := by
  simp only [two_rpow_sub, expSum, Finset.smul_sum, smul_smul]

/-! ## Online -/

/-- The sums over `S`, relative to `m`: the greatest of the scores and of `bot`, or `bot`
    itself. -/
structure OnlineSoftmax (S : Finset ι) (s : ι → ℝ) (v : ι → E) (bot m n : ℝ) (acc : E) : Prop where
  le : ∀ c ∈ S, s c ≤ m
  attained : m = bot ∨ ∃ c ∈ S, s c = m
  normalizer : n = 2 ^ (-m) * expTotal S s
  accumulator : acc = (2 : ℝ) ^ (-m) • expSum S s v

namespace OnlineSoftmax

variable {S T : Finset ι} {s : ι → ℝ} {v : ι → E} {bot m n : ℝ} {acc : E}

theorem empty (s : ι → ℝ) (v : ι → E) (bot : ℝ) :
    OnlineSoftmax ∅ s v bot bot 0 (0 : E) where
  le _ h := absurd h (Finset.notMem_empty _)
  attained := .inl rfl
  normalizer := by simp [expTotal]
  accumulator := by simp [expSum]

/-- More indices, and a greatest score that takes theirs into account. -/
theorem union [DecidableEq ι] (h : OnlineSoftmax S s v bot m n acc) (hdisj : Disjoint S T) {m' : ℝ}
    (hm : m ≤ m') (hle : ∀ c ∈ T, s c ≤ m')
    (hatt : m' = m ∨ m' = bot ∨ ∃ c ∈ T, s c = m') :
    OnlineSoftmax (S ∪ T) s v bot m' (n * 2 ^ (m - m') + ∑ c ∈ T, 2 ^ (s c - m'))
      ((2 : ℝ) ^ (m - m') • acc + ∑ c ∈ T, (2 : ℝ) ^ (s c - m') • v c) := by
  have hscale : (2 : ℝ) ^ (-m) * 2 ^ (m - m') = 2 ^ (-m') := by
    rw [← Real.rpow_add two_pos]
    congr 1
    ring
  refine ⟨fun c hc => ?_, ?_, ?_, ?_⟩
  · rcases Finset.mem_union.1 hc with hc | hc
    · exact (h.le c hc).trans hm
    · exact hle c hc
  · rcases hatt with rfl | hbot | ⟨c, hc, hcm⟩
    · rcases h.attained with hbot | ⟨c, hc, hcm⟩
      · exact .inl hbot
      · exact .inr ⟨c, Finset.mem_union_left T hc, hcm⟩
    · exact .inl hbot
    · exact .inr ⟨c, Finset.mem_union_right S hc, hcm⟩
  · rw [h.normalizer, sum_rpow_sub, mul_right_comm, hscale, ← mul_add, expTotal, expTotal, expTotal,
      Finset.sum_union hdisj]
  · rw [h.accumulator, sum_rpow_sub_smul, smul_smul, mul_comm, hscale, ← smul_add, expSum, expSum,
      expSum, Finset.sum_union hdisj]

/-- With a score above `bot`, the normalizer has the weight of the greatest one. -/
theorem one_le_normalizer (h : OnlineSoftmax S s v bot m n acc) (hbot : ∀ c ∈ S, bot < s c)
    (hS : S.Nonempty) : 1 ≤ n := by
  obtain ⟨c, hc, hcm⟩ : ∃ c ∈ S, s c = m := by
    refine h.attained.resolve_left fun hm => ?_
    obtain ⟨c, hc⟩ := hS
    have := h.le c hc
    have := hbot c hc
    linarith
  rw [h.normalizer, ← sum_rpow_sub]
  have hone : (2 : ℝ) ^ (s c - m) = 1 := by rw [hcm, sub_self, Real.rpow_zero]
  have hterm : (2 : ℝ) ^ (s c - m) ≤ ∑ c ∈ S, 2 ^ (s c - m) :=
    Finset.single_le_sum (f := fun c => (2 : ℝ) ^ (s c - m))
      (fun _ _ => Real.rpow_nonneg zero_le_two _) hc
  rwa [hone] at hterm

theorem normalizer_eq_zero (h : OnlineSoftmax ∅ s v bot m n acc) : n = 0 := by
  rw [h.normalizer]
  simp [expTotal]

/-- The normalized sum is the mean. -/
theorem inv_smul_eq (h : OnlineSoftmax S s v bot m n acc) : n⁻¹ • acc = softmaxMean S s v := by
  have hpos : (2 : ℝ) ^ (-m) ≠ 0 := (Real.rpow_pos_of_pos two_pos _).ne'
  rw [h.normalizer, h.accumulator, smul_smul, mul_inv, mul_right_comm, inv_mul_cancel₀ hpos,
    one_mul, softmaxMean]

/-- The logarithm of the total weight. -/
theorem add_logb_eq (h : OnlineSoftmax S s v bot m n acc) (hS : S.Nonempty) :
    m + Real.logb 2 n = Real.logb 2 (expTotal S s) := by
  rw [h.normalizer, Real.logb_mul (Real.rpow_pos_of_pos two_pos _).ne' (expTotal_pos hS s).ne',
    Real.logb_rpow two_pos (by norm_num)]
  ring

end OnlineSoftmax

/-! ## Split -/

/-- The binary logarithm. -/
noncomputable def log2 (x : ℝ) : ℝ := Real.logb 2 x

/-- `2 ^ x`, and `0` for minus infinity. -/
noncomputable def exp2 (x : WithBot ℝ) : ℝ := (x.map fun y => (2 : ℝ) ^ y).unbotD 0

@[simp] theorem exp2_bot : exp2 ⊥ = 0 := rfl

@[simp] theorem exp2_coe (x : ℝ) : exp2 x = 2 ^ x := rfl

theorem exp2_nonneg (x : WithBot ℝ) : 0 ≤ exp2 x := by
  cases x with
  | bot => exact le_rfl
  | coe x => exact Real.rpow_nonneg zero_le_two _

/-- The logarithm of the total weight of the indices, and their mean. -/
structure SoftmaxPart (S : Finset ι) (s : ι → ℝ) (v : ι → E) (lse : WithBot ℝ) (out : E) :
    Prop where
  lse_eq : lse = if S.Nonempty then (Real.logb 2 (expTotal S s) : WithBot ℝ) else ⊥
  out_eq : out = softmaxMean S s v

namespace SoftmaxPart

variable {S : Finset ι} {s : ι → ℝ} {v : ι → E} {lse : WithBot ℝ} {out : E}

/-- The weight of a part, relative to `M`. -/
theorem exp2_eq (h : SoftmaxPart S s v lse out) (M : ℝ) :
    exp2 (lse.map (· - M)) = 2 ^ (-M) * expTotal S s := by
  rw [h.lse_eq]
  split_ifs with hS
  · rw [WithBot.map_coe, exp2_coe, two_rpow_sub,
      Real.rpow_logb two_pos (by norm_num) (expTotal_pos hS s)]
  · rw [Finset.not_nonempty_iff_eq_empty.1 hS]
    simp [expTotal]

/-- The weighted mean of a part. -/
theorem exp2_smul_eq (h : SoftmaxPart S s v lse out) (M : ℝ) :
    exp2 (lse.map (· - M)) • out = (2 : ℝ) ^ (-M) • expSum S s v := by
  rw [h.exp2_eq, h.out_eq, mul_smul, softmaxMean]
  rcases S.eq_empty_or_nonempty with rfl | hS
  · simp [expSum]
  · rw [smul_inv_smul₀ (expTotal_pos hS s).ne']

end SoftmaxPart

/-- The means of the parts of `U`, merged. -/
theorem merge_eq {I : Finset κ} {S : κ → Finset ι} {U : Finset ι} {s : ι → ℝ} {v : ι → E}
    (htotal : ∑ i ∈ I, expTotal (S i) s = expTotal U s)
    (hsum : ∑ i ∈ I, expSum (S i) s v = expSum U s v) {lse : κ → WithBot ℝ} {out : κ → E}
    (hpart : ∀ i ∈ I, SoftmaxPart (S i) s v (lse i) (out i)) (M : ℝ) :
    (∑ i ∈ I, exp2 ((lse i).map (· - M)))⁻¹ • ∑ i ∈ I, exp2 ((lse i).map (· - M)) • out i =
      softmaxMean U s v := by
  have hpos : (2 : ℝ) ^ (-M) ≠ 0 := (Real.rpow_pos_of_pos two_pos _).ne'
  rw [Finset.sum_congr rfl fun i hi => (hpart i hi).exp2_eq M,
    Finset.sum_congr rfl fun i hi => (hpart i hi).exp2_smul_eq M, ← Finset.mul_sum,
    ← Finset.smul_sum, htotal, hsum, smul_smul, mul_inv, mul_right_comm, inv_mul_cancel₀ hpos,
    one_mul, softmaxMean]

end FlashNext
