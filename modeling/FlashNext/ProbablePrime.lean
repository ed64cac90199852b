import Mathlib.FieldTheory.Finite.Basic

/-!
# Strong probable primes

A number `n` with `n - 1 = 2 ^ s * d` is a strong probable prime to a base `a` if
`a ^ d` is `1` modulo `n`, or `-1` after at most `s - 1` squares.

* `eq_one_or_exists_eq_neg_one`: where there are no zero divisors, `1` has no other
  square roots than `1` and `-1`;
* `strong_of_prime`: a prime is a strong probable prime to every base that it does
  not divide;
* `prime_of_trial`: a number that no prime below `b` divides is a prime if it is
  below `b ^ 2`.
-/

namespace FlashNext

/-- What `s` squares take to `1` is `1`, or one of the first squares is `-1`. -/
theorem eq_one_or_exists_eq_neg_one {R : Type*} [Ring R] [NoZeroDivisors R] {x : R} {s : ℕ}
    (h : x ^ 2 ^ s = 1) : x = 1 ∨ ∃ i < s, x ^ 2 ^ i = -1 := by
  induction s with
  | zero => exact .inl (by simpa using h)
  | succ s ih =>
    -- The last square but one is a square root of `1`.
    have hsq : x ^ 2 ^ s * x ^ 2 ^ s = 1 := by rw [← pow_add, ← two_mul, ← pow_succ', h]
    rcases mul_self_eq_one_iff.1 hsq with hone | hneg
    · rcases ih hone with hx | ⟨i, hi, hx⟩
      · exact .inl hx
      · exact .inr ⟨i, Nat.lt_succ_of_lt hi, hx⟩
    · exact .inr ⟨s, Nat.lt_succ_self s, hneg⟩

/-- A prime is a strong probable prime to every base that it does not divide. -/
theorem strong_of_prime {p a d s : ℕ} (hp : p.Prime) (ha : ¬p ∣ a) (hd : d * 2 ^ s = p - 1) :
    (a : ZMod p) ^ d = 1 ∨ ∃ i < s, ((a : ZMod p) ^ d) ^ 2 ^ i = -1 := by
  have : Fact p.Prime := ⟨hp⟩
  refine eq_one_or_exists_eq_neg_one ?_
  rw [← pow_mul, hd]
  exact ZMod.pow_card_sub_one_eq_one (mt (ZMod.natCast_eq_zero_iff a p).1 ha)

/-- A residue is that of `-1` if it is `n - 1`. -/
theorem eq_sub_one_of_natCast {n w : ℕ} (hn : 0 < n) (hw : w < n) (h : (w : ZMod n) = -1) :
    w = n - 1 := by
  have hzero : ((w + 1 : ℕ) : ZMod n) = 0 := by rw [Nat.cast_succ, h, neg_add_cancel]
  have hdvd : n ∣ w + 1 := (ZMod.natCast_eq_zero_iff _ _).1 hzero
  have := Nat.le_of_dvd (Nat.succ_pos w) hdvd
  omega

/-- Trial division by the primes below `b` is enough for the numbers below `b ^ 2`. -/
theorem prime_of_trial {n b : ℕ} (hn : 2 ≤ n) (hb : n < b ^ 2)
    (h : ∀ q, q.Prime → q < b → ¬q ∣ n) : n.Prime := by
  by_contra hnot
  have hmin := Nat.minFac_sq_le_self (by omega) hnot
  refine h n.minFac (Nat.minFac_prime (by omega)) ?_ n.minFac_dvd
  exact lt_of_pow_lt_pow_left₀ 2 (Nat.zero_le b) (hmin.trans_lt hb)

end FlashNext
