import Mathlib.Algebra.Order.Group.Unbundled.Int
import Mathlib.Algebra.Order.Ring.Int

/-!
# Rings

A ring of `n` places has the value of a stream at a position `q` in the place `q % n`, until
the position `q + n` is written (`InRing`).

* `InRing.write`: what a ring has behind a chunk of the stream, of which the last positions
  are written.
-/

namespace FlashNext

variable {V : Type*} {n : Int}

/-- The ring has the values of `x` at the positions from `a` up to `b`. -/
def InRing (n : Int) (buf x : Int → V) (a b : Int) : Prop :=
  ∀ q, a ≤ q → q < b → buf (q % n) = x q

/-- The next position in the same place is `n` positions further on. -/
theorem add_le_of_emod_eq {q q' : Int} (h : q % n = q' % n) (hlt : q < q') : q + n ≤ q' := by
  have hdvd : n ∣ q' - q := Int.dvd_of_emod_eq_zero (Int.emod_eq_emod_iff_emod_sub_eq_zero.1 h.symm)
  have := Int.le_of_dvd (by omega) hdvd
  omega

namespace InRing

variable {buf buf' x x' : Int → V} {a a' b p : Int}

theorem congr (h : InRing n buf x a b) (hbuf : ∀ i, buf' i = buf i)
    (hx : ∀ q, q < b → x' q = x q) : InRing n buf' x' a b := by
  intro q hq hlt
  rw [hbuf, hx q hlt, h q hq hlt]

/-- A ring keeps what it has at the positions from `a'` on, and gets what is written, if all
    positions up to `b` are written and none is that would be in the place of another one. -/
theorem write (h : InRing n buf x a p) {written : Int → Prop} {top : Int}
    (hwritten : ∀ q, written q → p ≤ q ∧ q < top) (hroom : top ≤ a' + n) (ha : a ≤ a')
    (hall : ∀ q, p ≤ q → a' ≤ q → q < b → written q)
    (hnew : ∀ q, written q → buf' (q % n) = x q)
    (hold : ∀ i, (∀ q, written q → q % n ≠ i) → buf' i = buf i) : InRing n buf' x a' b := by
  intro q hq hlt
  rcases lt_or_ge q p with hp | hp
  · rw [hold _ fun q' hq' heq => ?_, h q (ha.trans hq) hp]
    -- A position in the same place is too far away to be written.
    obtain ⟨hge, htop⟩ := hwritten q' hq'
    have := add_le_of_emod_eq heq.symm (hp.trans_le hge)
    omega
  · exact hnew q (hall q hp hq hlt)

end InRing

end FlashNext
