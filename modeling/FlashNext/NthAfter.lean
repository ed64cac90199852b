import Mathlib.Data.Nat.Nth
import Mathlib.Data.Int.Order.Basic

/-!
# The numbers after a start

The numbers with a property `P` that come after an integer `x`, in order:
`nthAfter P x n` is the `n`-th of them, and `nthAfter P x 0` is `x`.

* `eq_nthAfter`: a sequence that starts at `x`, and goes from each of its numbers to
  the next one with the property, is that of the `nthAfter`;
* `nthAfter_lt_nthAfter`: it increases;
* `nthAfter_congr`: up to a bound, it depends on the property up to the bound only.
-/

namespace FlashNext

variable {P Q : ℕ → Prop} {x : ℤ} {m n : ℕ}

/-- The `n`-th number after `x` with the property `P`. -/
noncomputable def nthAfter (P : ℕ → Prop) (x : ℤ) : ℕ → ℤ
  | 0 => x
  | n + 1 => Nat.nth (fun k => P k ∧ x < k) n

/-- There are as many numbers after `x` as there are numbers. -/
theorem infinite_after (h : (Set.ofPred P).Infinite) (x : ℤ) :
    (Set.ofPred fun k : ℕ => P k ∧ x < k).Infinite := by
  refine Set.infinite_of_forall_exists_gt fun a => ?_
  obtain ⟨k, hk, hlt⟩ := h.exists_gt (max a x.toNat)
  exact ⟨k, ⟨hk, by omega⟩, by omega⟩

/-- A number after `x` has the property, and comes after `x`. -/
theorem nthAfter_succ_spec (h : (Set.ofPred P).Infinite) (x : ℤ) (n : ℕ) :
    ∃ k : ℕ, nthAfter P x (n + 1) = k ∧ P k ∧ x < k :=
  ⟨_, rfl, Nat.nth_mem_of_infinite (infinite_after h x) n⟩

/-- The numbers are in increasing order. -/
theorem nthAfter_lt_nthAfter (h : (Set.ofPred P).Infinite) (hmn : m < n) :
    nthAfter P x m < nthAfter P x n := by
  obtain ⟨n, rfl⟩ : ∃ k, n = k + 1 := ⟨n - 1, by omega⟩
  cases m with
  | zero =>
    obtain ⟨k, hk, -, hlt⟩ := nthAfter_succ_spec h x n
    rw [hk, nthAfter]
    exact hlt
  | succ m =>
    exact Int.ofNat_lt.2 ((Nat.nth_lt_nth (infinite_after h x)).2 (Nat.lt_of_succ_lt_succ hmn))

/-- What comes after a number is the next one. -/
theorem isLeast_nthAfter (h : (Set.ofPred P).Infinite) (x : ℤ) (n : ℕ) :
    ∃ k : ℕ, nthAfter P x (n + 1) = k ∧ IsLeast {j : ℕ | P j ∧ nthAfter P x n < j} k := by
  obtain ⟨k, hk, hP, -⟩ := nthAfter_succ_spec h x n
  refine ⟨k, hk, ⟨hP, hk ▸ nthAfter_lt_nthAfter h n.lt_succ_self⟩, fun j ⟨hj, hlt⟩ => ?_⟩
  have hleast := Nat.isLeast_nth_of_infinite (infinite_after h x) n
  obtain rfl : Nat.nth (fun k => P k ∧ x < k) n = k := Int.ofNat_inj.1 hk
  have hge : ∀ m ≤ n, nthAfter P x m ≤ nthAfter P x n := fun m hm =>
    hm.eq_or_lt.elim (fun he => he ▸ le_rfl) fun hlt => (nthAfter_lt_nthAfter h hlt).le
  refine hleast.2 ⟨⟨hj, (hge 0 n.zero_le).trans_lt hlt⟩, fun m hm => ?_⟩
  exact Int.ofNat_lt.1 ((hge (m + 1) hm).trans_lt hlt)

/-- A sequence that goes from each of its numbers to the next one. -/
theorem eq_nthAfter (h : (Set.ofPred P).Infinite) {f : ℕ → ℤ} (hzero : f 0 = x)
    (hsucc : ∀ n, ∃ k : ℕ, f (n + 1) = k ∧ IsLeast {j : ℕ | P j ∧ f n < j} k) (n : ℕ) :
    f n = nthAfter P x n := by
  induction n with
  | zero => exact hzero
  | succ n ih =>
    obtain ⟨k, hk, hleast⟩ := hsucc n
    obtain ⟨k', hk', hleast'⟩ := isLeast_nthAfter h x n
    rw [ih] at hleast
    rw [hk, hk', hleast.unique hleast']

/-- Two properties that agree below a bound have the same numbers below it. -/
theorem nthAfter_congr {b : ℤ} (hPQ : ∀ k : ℕ, k < b → (P k ↔ Q k))
    (hP : (Set.ofPred P).Infinite) (hlt : nthAfter P x n < b) :
    nthAfter Q x n = nthAfter P x n := by
  cases n with
  | zero => rfl
  | succ n =>
    classical
    obtain ⟨k, hk, hspec⟩ := nthAfter_succ_spec hP x n
    obtain rfl : Nat.nth (fun k => P k ∧ x < k) n = k := Int.ofNat_inj.1 hk
    rw [hk] at hlt ⊢
    -- There are as many numbers before it with the one property as with the other.
    have hcount : Nat.count (fun k => Q k ∧ x < k) (Nat.nth (fun k => P k ∧ x < k) n) = n := by
      refine Eq.trans ?_ (Nat.count_nth_of_infinite (infinite_after hP x) n)
      rw [Nat.count_eq_card_filter_range, Nat.count_eq_card_filter_range]
      refine congrArg Finset.card (Finset.filter_congr fun k hk => ?_)
      have hk' := Finset.mem_range.1 hk
      rw [hPQ k (by omega)]
    have hQ : Q (Nat.nth (fun k => P k ∧ x < k) n) := (hPQ _ hlt).1 hspec.1
    have hnth := Nat.nth_count (p := fun k : ℕ => Q k ∧ x < k) ⟨hQ, hspec.2⟩
    rw [hcount] at hnth
    rw [nthAfter, hnth]

end FlashNext
