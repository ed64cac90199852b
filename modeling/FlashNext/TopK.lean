import Mathlib.Data.Fin.Tuple.Sort
import Mathlib.Data.Finset.Card

/-!
# The largest values of a row

`IsTopK v n k idx` says that the slots `0, …, k - 1` of `idx` hold the columns of the
`k` largest of the values `v 0, …, v (n - 1)`, in no particular order.

* `IsTopK.exists`: there is such a selection, and `IsTopK.comp`: its slots may be
  permuted;
* `IsTopK.lt_of_le` and `IsTopK.exists_le`: if the values of the first `m` columns are
  above the others, only these are selected if `k ≤ m`, and some other one is if `m < k`.
-/

namespace FlashNext

variable {α : Type*} [LinearOrder α]

/-- The slots hold the columns of the `k` largest of the first `n` values. -/
structure IsTopK (v : Nat → α) (n k : Nat) (idx : Nat → Nat) : Prop where
  lt : ∀ s < k, idx s < n
  inj : ∀ s < k, ∀ t < k, idx s = idx t → s = t
  largest : ∀ s < k, ∀ j < n, (∀ t < k, idx t ≠ j) → v j ≤ v (idx s)

namespace IsTopK

variable {v : Nat → α} {n k m : Nat} {idx : Nat → Nat}

/-- The first columns of the row, in descending order of the values. -/
theorem exists_of_le (v : Nat → α) (h : k ≤ n) : ∃ idx, IsTopK v n k idx := by
  let f : Fin n → αᵒᵈ := fun i => OrderDual.toDual (v i)
  let σ := Tuple.sort f
  refine ⟨fun s => if hs : s < n then σ ⟨s, hs⟩ else 0, ?_, ?_, ?_⟩
  · intro s hs
    simp [show s < n by omega]
  · intro s hs t ht heq
    simp only [show s < n by omega, show t < n by omega, dif_pos] at heq
    exact Fin.mk.inj (σ.injective (Fin.ext heq))
  · intro s hs j hj hne
    obtain ⟨t, ht⟩ := σ.surjective ⟨j, hj⟩
    have htk : k ≤ t := by
      by_contra hlt
      refine hne t (not_le.1 hlt) ?_
      simp [ht]
    have hle : v (σ t) ≤ v (σ ⟨s, by omega⟩) := OrderDual.toDual_le_toDual.1
      (Tuple.monotone_sort f (Fin.mk_le_of_le_val (by omega)))
    simpa [show s < n by omega, ht] using hle

/-- The slots may be permuted. -/
theorem comp (h : IsTopK v n k idx) (σ : Equiv.Perm Nat) (hσ : ∀ s, σ s < k ↔ s < k) :
    IsTopK v n k (idx ∘ σ) := by
  refine ⟨fun s hs => h.lt _ ((hσ s).2 hs), fun s hs t ht heq => ?_, fun s hs j hj hne => ?_⟩
  · exact σ.injective (h.inj _ ((hσ s).2 hs) _ ((hσ t).2 ht) heq)
  · refine h.largest _ ((hσ s).2 hs) j hj fun t ht heq => ?_
    refine hne (σ.symm t) ((hσ _).1 ?_) ?_ <;> simpa

/-- A selected column can be put into the first slot. -/
theorem swap (h : IsTopK v n k idx) {s : Nat} (hs : s < k) :
    IsTopK v n k (idx ∘ Equiv.swap 0 s) := by
  refine h.comp _ fun t => ?_
  rw [Equiv.swap_apply_def]
  split_ifs <;> omega

/-- Fewer columns than slots cannot be all that is selected. -/
theorem exists_le (h : IsTopK v n k idx) (hm : m < k) : ∃ s < k, m ≤ idx s := by
  by_contra hno
  push Not at hno
  have hcard := Finset.card_le_card_of_injOn (s := Finset.range k) (t := Finset.range m) idx
    (fun s hs => Finset.mem_coe.2 (Finset.mem_range.2 (hno s (Finset.mem_range.1 hs))))
    (fun s hs t ht heq => h.inj s (Finset.mem_range.1 hs) t (Finset.mem_range.1 ht) heq)
  rw [Finset.card_range, Finset.card_range] at hcard
  omega

/-- If one of the columns that are selected is not one of the first `m`, then one of
    these is left. -/
theorem exists_not_selected (idx : Nat → Nat) (hm : k ≤ m) {s : Nat} (hs : s < k)
    (hge : m ≤ idx s) : ∃ i < m, ∀ t < k, idx t ≠ i := by
  have hcard : (((Finset.range k).erase s).image idx).card < (Finset.range m).card := by
    refine Finset.card_image_le.trans_lt ?_
    rw [Finset.card_erase_of_mem (Finset.mem_range.2 hs), Finset.card_range, Finset.card_range]
    omega
  obtain ⟨i, hi, hnot⟩ := Finset.exists_mem_notMem_of_card_lt_card hcard
  rw [Finset.mem_range] at hi
  refine ⟨i, hi, fun t ht heq => hnot (Finset.mem_image.2 ⟨t, ?_, heq⟩)⟩
  refine Finset.mem_erase.2 ⟨?_, Finset.mem_range.2 ht⟩
  rintro rfl
  omega

/-- If there are enough columns whose values are above the others, only these are
    selected. -/
theorem lt_of_le (h : IsTopK v n k idx) (hk : k ≤ m) (hm : m ≤ n)
    (habove : ∀ i < m, ∀ j < n, m ≤ j → v j < v i) {s : Nat} (hs : s < k) : idx s < m := by
  by_contra hge
  obtain ⟨i, hi, hnot⟩ := exists_not_selected idx hk hs (not_lt.1 hge)
  exact (h.largest s hs i (hi.trans_le hm) hnot).not_gt
    (habove i hi (idx s) (h.lt s hs) (not_lt.1 hge))

end IsTopK

end FlashNext
