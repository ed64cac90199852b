import Mathlib.Algebra.Group.Nat.Defs
import Mathlib.Data.List.GetD
import Mathlib.Data.List.TakeWhile
import Mathlib.Data.Nat.Size

/-!
# Segments of a packed list

The elements of several segments stand one after the other in one list; `locs`
has the start of every segment, in order, and then the end of the last one. A
position is found in its segment in two ways:

* `searchsorted` counts the starts up to it (`inSegment_searchsorted`);
* `bisect` halves the range of the segments that may have it, a fixed number of
  times (`inSegment_bisect`).

Both give the one segment that has it (`InSegment.unique`). A position past the
end is given to the last segment, and one at which empty segments start to the
segment after them.
-/

namespace FlashNext

/-- The segment `r` has the position `p`. -/
structure InSegment (locs : List Nat) (r p : Nat) : Prop where
  lt : r + 1 < locs.length
  le : locs.getD r 0 ≤ p
  next : r + 2 < locs.length → p < locs.getD (r + 1) 0

/-- The starts of segments, from `0` on, and the end: at least one segment. -/
structure Segments (locs : List Nat) : Prop where
  two_le : 2 ≤ locs.length
  start : locs.getD 0 0 = 0
  sorted : locs.Pairwise (· ≤ ·)

variable {locs : List Nat} {r r' p q : Nat}

/-- Starts are in order. -/
theorem Segments.getD_le (h : Segments locs) {i j : Nat} (hij : i ≤ j) (hj : j < locs.length) :
    locs.getD i 0 ≤ locs.getD j 0 := by
  rw [List.getD_eq_getElem _ _ hj, List.getD_eq_getElem _ _ (hij.trans_lt hj)]
  rcases hij.eq_or_lt with rfl | hlt
  · exact le_rfl
  · exact List.pairwise_iff_getElem.1 h.sorted i j _ hj hlt

/-- A position is in one segment. -/
theorem InSegment.unique (h : Segments locs) (hr : InSegment locs r p) (hr' : InSegment locs r' p) :
    r = r' := by
  have key : ∀ {a b}, InSegment locs a p → InSegment locs b p → ¬a < b := fun ha hb hab => by
    have hlen := hb.lt
    exact absurd ((ha.next (by omega)).trans_le (h.getD_le hab (by omega))) (not_lt.2 hb.le)
  exact le_antisymm (not_lt.1 (key hr' hr)) (not_lt.1 (key hr hr'))

/-- The positions from the start of a segment up to one that it has are in it. -/
theorem InSegment.of_le (hr : InSegment locs r p) (hq : locs.getD r 0 ≤ q) (hqp : q ≤ p) :
    InSegment locs r q :=
  ⟨hr.lt, hq, fun h => hqp.trans_lt (hr.next h)⟩

/-- The first elements of a list are its own. -/
theorem getD_take_of_lt {α : Type*} {xs : List α} {n i : Nat} (h : i < n) (default : α) :
    (xs.take n).getD i default = xs.getD i default := by
  rw [List.getD_eq_getElem?_getD, List.getElem?_take_of_lt h, List.getD_eq_getElem?_getD]

/-- The first segments. -/
theorem Segments.take (h : Segments locs) {n : Nat} (hn : 0 < n) :
    Segments (locs.take (n + 1)) where
  two_le := by
    have := h.two_le
    rw [List.length_take]
    omega
  start := by rw [getD_take_of_lt (Nat.succ_pos n), h.start]
  sorted := h.sorted.sublist (List.take_sublist _ _)

/-- The segments that are there among the first ones. -/
theorem InSegment.take (hr : InSegment locs r p) {n : Nat} (hn : r < n) :
    InSegment (locs.take (n + 1)) r p := by
  have hlen := List.length_take (i := n + 1) (l := locs)
  have hlt := hr.lt
  refine ⟨by omega, by rw [getD_take_of_lt (by omega)]; exact hr.le, fun h => ?_⟩
  rw [getD_take_of_lt (by omega)]
  exact hr.next (by omega)

/-! ## By counting -/

/-- `torch.searchsorted(locs, p, right=True)`: the number of the starts up to `p`. -/
def searchsorted (locs : List Nat) (p : Nat) : Nat := (locs.takeWhile (· ≤ p)).length

theorem getD_le_of_lt_searchsorted {i : Nat} (h : i < searchsorted locs p) : locs.getD i 0 ≤ p := by
  have hmem := List.mem_takeWhile_imp (List.getElem_mem (l := locs.takeWhile (· ≤ p)) h)
  have hpre := List.takeWhile_prefix (l := locs) fun l => decide (l ≤ p)
  rw [hpre.getElem h] at hmem
  rw [List.getD_eq_getElem _ _ (h.trans_le hpre.length_le)]
  simpa using hmem

theorem lt_getD_searchsorted (h : searchsorted locs p < locs.length) :
    p < locs.getD (searchsorted locs p) 0 := by
  induction locs with
  | nil => simp at h
  | cons l locs ih =>
    by_cases hl : l ≤ p
    · have hs : searchsorted (l :: locs) p = searchsorted locs p + 1 := by
        simp [searchsorted, hl]
      rw [hs, List.length_cons] at h
      rw [hs, List.getD_cons_succ]
      exact ih (Nat.lt_of_succ_lt_succ h)
    · have hs : searchsorted (l :: locs) p = 0 := by simp [searchsorted, hl]
      rw [hs, List.getD_cons_zero]
      omega

/-- The last segment that starts up to `p`, if it is one, has it. -/
theorem inSegment_searchsorted (h : Segments locs) (p : Nat) :
    InSegment locs (min (searchsorted locs p - 1) (locs.length - 2)) p := by
  have hlen := h.two_le
  have hle : searchsorted locs p ≤ locs.length := (List.takeWhile_prefix _).length_le
  have hpos : 0 < searchsorted locs p := by
    by_contra hz
    have hlt : p < locs.getD (searchsorted locs p) 0 := lt_getD_searchsorted (by omega)
    rw [show searchsorted locs p = 0 by omega, h.start] at hlt
    omega
  refine ⟨by omega, getD_le_of_lt_searchsorted (by omega), fun hr => ?_⟩
  have hr' : min (searchsorted locs p - 1) (locs.length - 2) + 1 = searchsorted locs p := by omega
  rw [hr']
  exact lt_getD_searchsorted (by omega)

/-! ## By halving -/

/-- `iters` rounds of a binary search for the first start after `p`, between `lo`
    and `hi`. Past the end of the list, `0` is read. -/
def bisect (locs : List Nat) (p : Nat) : Nat → Nat × Nat → Nat × Nat
  | 0, range => range
  | iters + 1, (lo, hi) =>
    let mid := (lo + hi) / 2
    bisect locs p iters (if locs.getD mid 0 ≤ p then (mid + 1, hi) else (lo, mid))

/-- What the search knows: the starts before `lo` are up to `p`, and that at `hi`
    is after it. When there is none, `lo` may pass the end. -/
structure Bisecting (locs : List Nat) (p lo hi : Nat) : Prop where
  pos : 0 < lo
  before : ∀ i < lo, locs.getD i 0 ≤ p
  after : hi < locs.length → p < locs.getD hi 0
  le_length : hi ≤ locs.length
  le : lo ≤ hi ∨ hi = locs.length

/-- Past the end of the list, `0` is read. -/
theorem getD_eq_zero {i : Nat} (h : locs.length ≤ i) : locs.getD i 0 = 0 :=
  List.getD_eq_default _ _ h

/-- A round that finds a start up to `p` goes on after it. -/
theorem Bisecting.right (h : Segments locs) {lo hi : Nat} (hb : Bisecting locs p lo hi)
    (hmid : locs.getD ((lo + hi) / 2) 0 ≤ p) : Bisecting locs p ((lo + hi) / 2 + 1) hi := by
  refine ⟨Nat.succ_pos _, fun i hi' => ?_, hb.after, hb.le_length, ?_⟩
  · by_cases hlt : (lo + hi) / 2 < locs.length
    · exact (h.getD_le (by omega) hlt).trans hmid
    · by_cases hi : i < locs.length
      · exact hb.before i (by have := hb.le_length; omega)
      · exact (getD_eq_zero (by omega)).trans_le (Nat.zero_le p)
  · by_contra hne
    obtain ⟨hlt, hend⟩ := not_or.1 hne
    have hmid' : (lo + hi) / 2 = hi := by have := hb.le.resolve_right hend; omega
    have := hb.after (by have := hb.le_length; omega)
    rw [hmid'] at hmid
    omega

/-- A round that finds a start after `p` goes on before it. -/
theorem Bisecting.left {lo hi : Nat} (hb : Bisecting locs p lo hi)
    (hmid : ¬locs.getD ((lo + hi) / 2) 0 ≤ p) : Bisecting locs p lo ((lo + hi) / 2) := by
  have hlt : (lo + hi) / 2 < locs.length := by
    by_contra hge
    rw [getD_eq_zero (not_lt.1 hge)] at hmid
    omega
  refine ⟨hb.pos, hb.before, fun _ => not_le.1 hmid, hlt.le, .inl ?_⟩
  rcases hb.le with hle | rfl <;> omega

/-- Every round halves the range. -/
theorem Bisecting.bisect (h : Segments locs) {lo hi iters : Nat} (hb : Bisecting locs p lo hi)
    (hlt : hi - lo < 2 ^ iters) :
    ∃ lo' hi', bisect locs p iters (lo, hi) = (lo', hi') ∧ Bisecting locs p lo' hi' ∧
      hi' ≤ lo' := by
  induction iters generalizing lo hi with
  | zero => exact ⟨lo, hi, rfl, hb, by rw [Nat.pow_zero] at hlt; omega⟩
  | succ iters ih =>
    rw [Nat.pow_succ] at hlt
    rw [FlashNext.bisect]
    split_ifs with hmid
    · exact ih (hb.right h hmid) (by omega)
    · exact ih (hb.left hmid) (by omega)

/-- As many rounds as the number of the segments has bits find the segment. -/
theorem inSegment_bisect (h : Segments locs) (p : Nat) :
    InSegment locs (min ((bisect locs p (locs.length - 1).size (1, locs.length)).1 - 1)
      (locs.length - 2)) p := by
  have hlen := h.two_le
  have hb : Bisecting locs p 1 locs.length := by
    refine ⟨Nat.one_pos, fun i hi => ?_, fun h => absurd h (lt_irrefl _), le_rfl, .inr rfl⟩
    rw [Nat.lt_one_iff.1 hi, h.start]
    exact Nat.zero_le p
  obtain ⟨lo, hi, heq, hb, hle⟩ := hb.bisect h (Nat.lt_size_self (locs.length - 1))
  rw [heq]
  have hpos := hb.pos
  refine ⟨by omega, hb.before _ (by omega), fun hr => ?_⟩
  have hr' : min (lo - 1) (locs.length - 2) + 1 = hi := by
    have := hb.le.resolve_right (by omega)
    omega
  rw [hr']
  exact hb.after (by have := hb.le_length; omega)

end FlashNext
