import Mathlib.Data.List.Basic
import Mathlib.Data.List.Range
import Mathlib.Tactic.Ring

/-!
# Causal filters

A stream gives every position a value; a position before its start may have any value,
such as a zero. A *causal filter* combines, at every position, the values `dilation`
apart that end there, the oldest first, by a step that need not be associative: it may
round.

* `CausalFilter.taps_eq_apply`: from a buffer that holds the memory of a position
  (`Holds`) and the values from there on, it is computed without the stream;
* `Holds.advance`: a buffer whose values are moved up, with new ones behind them, holds
  the memory of each of the next positions, at its own offset.
-/

namespace FlashNext

variable {V W A : Type*}

/-- A causal filter. -/
structure CausalFilter (V W A : Type*) where
  kernelSize : Nat
  dilation : Nat
  weights : Nat → W
  start : A
  mac : A → W → V → A

namespace CausalFilter

variable (f : CausalFilter V W A)

/-- How many positions before its own a filter looks at. -/
def memory : Nat := (f.kernelSize - 1) * f.dilation

/-- The taps, the oldest first, combined with the weights. -/
def combine (tap : Nat → V) : A :=
  (List.range f.kernelSize).foldl (fun acc k => f.mac acc (f.weights k) (tap k)) f.start

/-- What the filter gives at a position of a stream. -/
def apply (x : Int → V) (p : Int) : A :=
  f.combine fun k => x (p - f.memory + (f.dilation * k : Nat))

variable {f}

/-- A tap is in the memory, or at the position itself. -/
theorem tap_le {k : Nat} (hk : k < f.kernelSize) : f.dilation * k ≤ f.memory := by
  rw [memory, Nat.mul_comm]
  exact Nat.mul_le_mul_right _ (by omega)

theorem combine_congr {tap tap' : Nat → V} (h : ∀ k < f.kernelSize, tap k = tap' k) :
    f.combine tap = f.combine tap' :=
  List.foldl_ext _ _ _ fun acc k hk => by rw [h k (List.mem_range.1 hk)]

end CausalFilter

/-- From the offset on, the buffer holds the `n` values of the stream before the position. -/
def Holds (n : Nat) (buf : Nat → V) (off : Nat) (x : Int → V) (p : Int) : Prop :=
  ∀ i < n, buf (off + i) = x (p - n + i)

variable {n : Nat} {buf buf' : Nat → V} {off : Nat} {x y : Int → V} {p : Int}

/-- What a buffer holds depends on the values before the position only. -/
theorem Holds.congr (h : Holds n buf off x p) (hxy : ∀ q < p, x q = y q) : Holds n buf off y p :=
  fun i hi => (h i hi).trans (hxy _ (by omega))

/-- The value some places after the first one that a buffer holds is in the buffer, or
    among the new ones. -/
theorem Holds.value (h : Holds n buf off x p) {new : Nat → V} {t : Nat}
    (hnew : n ≤ t → new (t - n) = x (p + (t - n : Nat))) :
    (if t < n then buf (off + t) else new (t - n)) = x (p - n + t) := by
  split_ifs with ht
  · exact h t ht
  · rw [hnew (not_lt.1 ht)]
    congr 1
    omega

/-- A filter at one of the next positions, from the buffer and the new values. -/
theorem CausalFilter.taps_eq_apply {f : CausalFilter V W A} (h : Holds f.memory buf off x p)
    {new : Nat → V} {j : Nat} (hnew : ∀ i ≤ j, new i = x (p + i)) :
    (f.combine fun k => if j + f.dilation * k < f.memory then buf (off + (j + f.dilation * k))
      else new (j + f.dilation * k - f.memory)) = f.apply x (p + j) := by
  refine CausalFilter.combine_congr fun k hk => ?_
  have hle := tap_le hk
  rw [h.value fun _ => hnew _ (by omega)]
  congr 1
  push_cast
  ring

/-- A buffer whose values are moved up by `s` places, with the new values behind them,
    holds what is before each of the next positions that it has room for. -/
theorem Holds.advance (h : Holds n buf off x p) {new : Nat → V} {s len width : Nat}
    (hnew : ∀ j < len, new j = x (p + j))
    (hbuf : ∀ i < width, buf' i = if s + i < n then buf (off + (s + i)) else new (s + i - n))
    {o : Nat} (ho : o + n ≤ width) (hlen : s + o ≤ len) :
    Holds n buf' o x (p + (s + o : Nat)) := by
  intro i hi
  rw [hbuf _ (by omega), h.value fun _ => hnew _ (by omega)]
  congr 1
  push_cast
  ring

/-- A buffer that has the same values at another offset. -/
theorem Holds.move (h : Holds n buf off x p) {off' : Nat}
    (hbuf : ∀ i < n, buf' (off' + i) = buf (off + i)) : Holds n buf' off' x p :=
  fun i hi => (hbuf i hi).trans (h i hi)

end FlashNext
