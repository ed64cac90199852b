import Mathlib.Algebra.BigOperators.Group.List.Basic
import Mathlib.Algebra.GroupWithZero.Nat
import Mathlib.Algebra.Order.BigOperators.Group.List
import Mathlib.Algebra.Order.Group.Nat
import Mathlib.Data.List.Induction

/-!
# Dot segments

The removal of dot segments from a path, on lists of segments over any type
with two distinguished elements: `here`, which stands for the segment `.`, and
`up`, which stands for `..`. A segment that is neither is a *name*.

`resolve` keeps a stack of names, from which `up` removes the last one, if any.
`level` only counts them. A path *collapses* when it resolves to nothing, and is
*grounded* when no `up` in it removes a name that was there before it.
`resolve_eq_cons_iff` says where the first name of a resolved path comes from:
the path is a collapsing one, then that name, then a grounded one.
-/

namespace FlashNext.DotSegments

variable {α : Type*} [DecidableEq α] (here up : α)

/-- One segment, on the stack of names before it. -/
def push (stack : List α) (s : α) : List α :=
  if s = up then stack.dropLast else if s = here then stack else stack ++ [s]

/-- The names left after resolving a list of segments. -/
def resolve (segs : List α) : List α := segs.foldl (push here up) []

/-- A resolved path, with the empty name `empty` for the trailing slash that a
    dot segment at the end leaves. -/
def normalize (empty : α) (segs : List α) : List α :=
  if segs.getLast? = some here ∨ segs.getLast? = some up then resolve here up segs ++ [empty]
  else resolve here up segs

/-- How many names are left. -/
def level (segs : List α) : Nat :=
  segs.foldl (fun n s => if s = up then n - 1 else if s = here then n else n + 1) 0

/-- Nothing is left. -/
def Collapses (segs : List α) : Prop := level here up segs = 0

/-- Every `up` removes a name of the path itself. -/
def Grounded (segs : List α) : Prop :=
  ∀ before after, segs = before ++ up :: after → level here up before ≠ 0

variable {here up}

@[simp] theorem resolve_nil : resolve here up ([] : List α) = [] := rfl

@[simp] theorem resolve_append_singleton (segs : List α) (s : α) :
    resolve here up (segs ++ [s]) = push here up (resolve here up segs) s := by
  simp [resolve]

@[simp] theorem level_append_singleton (segs : List α) (s : α) :
    level here up (segs ++ [s]) = if s = up then level here up segs - 1
      else if s = here then level here up segs else level here up segs + 1 := by
  simp [level]

/-- The level is the number of names left. -/
theorem level_eq_length (segs : List α) : level here up segs = (resolve here up segs).length := by
  induction segs using List.reverseRecOn with
  | nil => rfl
  | append_singleton segs s ih =>
    rw [level_append_singleton, resolve_append_singleton, push, ih]
    split_ifs <;> simp

theorem collapses_iff (segs : List α) : Collapses here up segs ↔ resolve here up segs = [] := by
  rw [Collapses, level_eq_length, List.length_eq_zero_iff]

/-- A path without an `up` is grounded. -/
theorem grounded_of_not_mem {segs : List α} (h : up ∉ segs) : Grounded here up segs :=
  fun before after hs => absurd (by simp [hs]) h

/-- A path is grounded when it is so without its last segment, and this segment
    is no `up` or removes a name. -/
theorem grounded_append_singleton (segs : List α) (s : α) :
    Grounded here up (segs ++ [s]) ↔
      Grounded here up segs ∧ (s = up → level here up segs ≠ 0) := by
  constructor
  · intro h
    refine ⟨fun before after hs => h before (after ++ [s]) (by simp [hs]), ?_⟩
    rintro rfl
    exact h segs [] rfl
  · rintro ⟨h, hs⟩ before after heq
    rcases List.eq_nil_or_concat after with rfl | ⟨after', t, rfl⟩
    · obtain ⟨rfl, hs'⟩ := List.append_inj' heq rfl
      exact hs (by simpa using hs')
    · rw [List.concat_eq_append, ← List.cons_append, ← List.append_assoc] at heq
      exact h before after' (List.append_inj' heq rfl).1

/-- A grounded path leaves what was there before it. -/
theorem foldl_push_of_grounded {segs : List α} (h : Grounded here up segs) (stack : List α) :
    segs.foldl (push here up) stack = stack ++ resolve here up segs := by
  induction segs using List.reverseRecOn with
  | nil => simp
  | append_singleton segs s ih =>
    obtain ⟨hg, hs⟩ := (grounded_append_singleton segs s).1 h
    rw [List.foldl_append, ih hg, resolve_append_singleton]
    simp only [List.foldl_cons, List.foldl_nil, push]
    split_ifs with hup hhere
    · have hne : resolve here up segs ≠ [] := by
        rw [← List.length_pos_iff, ← level_eq_length]
        exact Nat.pos_of_ne_zero (hs hup)
      exact List.dropLast_append_of_ne_nil hne
    · rfl
    · simp

/-- The first name of a resolved path: what comes before it collapses, and what
    comes after it is grounded. -/
theorem resolve_eq_cons_iff {segs : List α} {a : α} {r : List α} :
    resolve here up segs = a :: r ↔ ∃ c rest, segs = c ++ a :: rest ∧ a ≠ here ∧ a ≠ up ∧
      Collapses here up c ∧ Grounded here up rest ∧ resolve here up rest = r := by
  constructor
  · intro h
    -- By the last segment, and what it does to the names before it.
    induction segs using List.reverseRecOn generalizing r with
    | nil => simp at h
    | append_singleton segs s ih =>
      rw [resolve_append_singleton, push] at h
      split_ifs at h with hup hhere
      · -- `up` removed a name after `a`: the rest so far is not at its ground.
        obtain ⟨b, r', hr⟩ : ∃ b r', resolve here up segs = a :: b :: r' ∧
            r = (b :: r').dropLast := by
          cases hres : resolve here up segs with
          | nil => simp [hres] at h
          | cons x xs =>
            cases xs with
            | nil => simp [hres] at h
            | cons b r' =>
              rw [hres, List.dropLast_cons_cons, List.cons.injEq] at h
              exact ⟨b, r', by rw [h.1], h.2.symm⟩
        obtain ⟨c, rest, hseg, h1, h2, hc, hg, hrest⟩ := ih hr.1
        refine ⟨c, rest ++ [s], by simp [hseg], h1, h2, hc,
          (grounded_append_singleton _ _).2 ⟨hg, fun _ => ?_⟩, ?_⟩
        · rw [level_eq_length, hrest]; simp
        · rw [resolve_append_singleton, push, if_pos hup, hrest, hr.2]
      · obtain ⟨c, rest, hseg, h1, h2, hc, hg, hrest⟩ := ih h
        refine ⟨c, rest ++ [s], by simp [hseg], h1, h2, hc,
          (grounded_append_singleton _ _).2 ⟨hg, fun h => absurd h hup⟩, ?_⟩
        rw [resolve_append_singleton, push, if_neg hup, if_pos hhere, hrest]
      · cases hres : resolve here up segs with
        | nil =>
          rw [hres, List.nil_append, List.cons.injEq] at h
          obtain ⟨rfl, rfl⟩ := h
          exact ⟨segs, [], rfl, hhere, hup, (collapses_iff _).2 hres,
            grounded_of_not_mem (by simp), rfl⟩
        | cons x xs =>
          rw [hres, List.cons_append, List.cons.injEq] at h
          obtain ⟨rfl, rfl⟩ := h
          obtain ⟨c, rest, hseg, h1, h2, hc, hg, hrest⟩ := ih hres
          refine ⟨c, rest ++ [s], by simp [hseg], h1, h2, hc,
            (grounded_append_singleton _ _).2 ⟨hg, fun h => absurd h hup⟩, ?_⟩
          rw [resolve_append_singleton, push, if_neg hup, if_neg hhere, hrest]
  · rintro ⟨c, rest, rfl, h1, h2, hc, hg, rfl⟩
    have hc := (collapses_iff c).1 hc
    rw [resolve, List.foldl_append, List.foldl_cons]
    change rest.foldl (push here up) (push here up (resolve here up c) a) = _
    rw [hc, push, if_neg h2, if_neg h1, foldl_push_of_grounded hg]
    rfl

/-- The names left are segments of the path. -/
theorem mem_of_mem_resolve {segs : List α} : ∀ s ∈ resolve here up segs, s ∈ segs := by
  induction segs using List.reverseRecOn with
  | nil => simp
  | append_singleton segs t ih =>
    intro s hs
    rw [resolve_append_singleton, push] at hs
    split_ifs at hs
    · exact List.mem_append_left _ (ih s ((List.dropLast_sublist _).subset hs))
    · exact List.mem_append_left _ (ih s hs)
    · rcases List.mem_append.1 hs with hs | hs
      · exact List.mem_append_left _ (ih s hs)
      · exact List.mem_append_right _ hs

theorem mem_normalize {segs : List α} {empty s : α} (h : s ∈ normalize here up empty segs) :
    s ∈ segs ∨ s = empty := by
  rw [normalize] at h
  split_ifs at h
  · rcases List.mem_append.1 h with h | h
    · exact .inl (mem_of_mem_resolve _ h)
    · exact .inr (List.mem_singleton.1 h)
  · exact .inl (mem_of_mem_resolve _ h)

omit [DecidableEq α] in
/-- The last segment of a path that has one after `a`. -/
theorem getLast?_append_cons_concat (c rest : List α) (a s : α) :
    (c ++ a :: (rest ++ [s])).getLast? = some s := by
  rw [← List.cons_append, ← List.append_assoc, List.getLast?_concat]

/-- A path of names is left alone. -/
theorem resolve_of_names {segs : List α} (h : ∀ s ∈ segs, s ≠ here ∧ s ≠ up) :
    resolve here up segs = segs := by
  induction segs using List.reverseRecOn with
  | nil => rfl
  | append_singleton segs s ih =>
    rw [List.forall_mem_append] at h
    have hs := h.2 s List.mem_cons_self
    rw [resolve_append_singleton, ih h.1, push, if_neg hs.2, if_neg hs.1]

theorem normalize_of_names {segs : List α} (empty : α) (h : ∀ s ∈ segs, s ≠ here ∧ s ≠ up) :
    normalize here up empty segs = segs := by
  rw [normalize, if_neg, resolve_of_names h]
  rintro (hl | hl)
  · exact (h _ (List.mem_of_getLast? hl)).1 rfl
  · exact (h _ (List.mem_of_getLast? hl)).2 rfl

/-- A path that is not empty does not become so. -/
theorem normalize_ne_nil {segs : List α} (empty : α) (h : segs ≠ []) :
    normalize here up empty segs ≠ [] := by
  rw [normalize]
  split_ifs with hlast
  · simp
  · obtain ⟨rest, s, rfl⟩ := (List.eq_nil_or_concat segs).resolve_left h
    simp only [List.getLast?_concat, Option.some.injEq, not_or, List.concat_eq_append] at hlast
    rw [List.concat_eq_append, resolve_append_singleton, push, if_neg hlast.2, if_neg hlast.1]
    simp

section Weight

variable {w : α → Nat}

/-- A dot segment does not make the stack heavier. -/
theorem sum_push_dot_le (w : α → Nat) {s : α} (h : s = here ∨ s = up) (stack : List α) :
    ((push here up stack s).map w).sum ≤ (stack.map w).sum := by
  rw [push]
  split_ifs with hup hhere
  · exact ((List.dropLast_sublist stack).map w).sum_le_sum (by simp)
  · exact le_rfl
  · exact absurd h (by simp [hup, hhere])

/-- Resolving a path does not make it heavier. -/
theorem sum_resolve_le (w : α → Nat) (segs : List α) :
    ((resolve here up segs).map w).sum ≤ (segs.map w).sum := by
  induction segs using List.reverseRecOn with
  | nil => exact le_rfl
  | append_singleton segs s ih =>
    rw [resolve_append_singleton, List.map_append, List.sum_append]
    by_cases hs : s = here ∨ s = up
    · exact ((sum_push_dot_le w hs _).trans ih).trans (Nat.le_add_right _ _)
    · obtain ⟨hhere, hup⟩ := not_or.1 hs
      rw [push, if_neg hup, if_neg hhere, List.map_append, List.sum_append]
      exact Nat.add_le_add_right ih _

/-- A path with a dot segment becomes lighter. -/
theorem sum_resolve_lt (hw : ∀ s, 0 < w s) {segs : List α} (h : ∃ s ∈ segs, s = here ∨ s = up) :
    ((resolve here up segs).map w).sum < (segs.map w).sum := by
  induction segs using List.reverseRecOn with
  | nil =>
    obtain ⟨s, hs, -⟩ := h
    cases hs
  | append_singleton segs s ih =>
    rw [resolve_append_singleton, List.map_append, List.sum_append, List.map_singleton,
      List.sum_singleton]
    by_cases hs : s = here ∨ s = up
    · have hpush := (sum_push_dot_le w hs (resolve here up segs)).trans (sum_resolve_le w segs)
      have hpos := hw s
      omega
    · obtain ⟨t, ht, hdot⟩ := h
      have hmem : t ∈ segs := by
        rcases List.mem_append.1 ht with ht | ht
        · exact ht
        · rw [List.mem_singleton.1 ht] at hdot
          exact absurd hdot hs
      obtain ⟨hhere, hup⟩ := not_or.1 hs
      rw [push, if_neg hup, if_neg hhere, List.map_append, List.sum_append, List.map_singleton,
        List.sum_singleton]
      exact Nat.add_lt_add_right (ih ⟨t, hmem, hdot⟩) _

/-- Normalising a path with a dot segment makes it lighter, where the empty name
    is lighter than the dot segments. -/
theorem sum_normalize_lt (hw : ∀ s, 0 < w s) {empty : α} (hhere : w empty < w here)
    (hup : w empty < w up) {segs : List α} (h : ∃ s ∈ segs, s = here ∨ s = up) :
    ((normalize here up empty segs).map w).sum < (segs.map w).sum := by
  rw [normalize]
  split_ifs with hlast
  · -- The dot segment at the end leaves the empty name.
    obtain ⟨rest, s, rfl, hs⟩ : ∃ rest s, segs = rest ++ [s] ∧ (s = here ∨ s = up) := by
      rcases hlast with hl | hl
      · obtain ⟨rest, rfl⟩ := List.getLast?_eq_some_iff.1 hl
        exact ⟨rest, here, rfl, .inl rfl⟩
      · obtain ⟨rest, rfl⟩ := List.getLast?_eq_some_iff.1 hl
        exact ⟨rest, up, rfl, .inr rfl⟩
    have hpush := (sum_push_dot_le w hs (resolve here up rest)).trans (sum_resolve_le w rest)
    have hempty : w empty < w s := hs.elim (fun h => h ▸ hhere) fun h => h ▸ hup
    simp only [resolve_append_singleton, List.map_append, List.sum_append, List.map_singleton,
      List.sum_singleton]
    exact Nat.add_lt_add_of_le_of_lt hpush hempty
  · exact sum_resolve_lt hw h

end Weight

/-- A path below the name `a`: a collapsing path, then `a`, then a grounded path
    that is not empty. -/
theorem exists_normalize_eq_cons_cons_iff {segs : List α} {a empty : α} (ha : a ≠ empty) :
    (∃ b r, normalize here up empty segs = a :: b :: r) ↔ ∃ c rest, segs = c ++ a :: rest ∧
      a ≠ here ∧ a ≠ up ∧ Collapses here up c ∧ Grounded here up rest ∧ rest ≠ [] := by
  constructor
  · rintro ⟨b, r, h⟩
    rw [normalize] at h
    split_ifs at h with hlast
    · cases hres : resolve here up segs with
      | nil => simp [hres] at h
      | cons x xs =>
        rw [hres, List.cons_append, List.cons.injEq] at h
        obtain ⟨rfl, _⟩ := h
        obtain ⟨c, rest, rfl, h1, h2, hc, hg, _⟩ := resolve_eq_cons_iff.1 hres
        refine ⟨c, rest, rfl, h1, h2, hc, hg, ?_⟩
        rintro rfl
        rw [List.getLast?_concat] at hlast
        simp [h1, h2] at hlast
    · obtain ⟨c, rest, rfl, h1, h2, hc, hg, hrest⟩ := resolve_eq_cons_iff.1 h
      exact ⟨c, rest, rfl, h1, h2, hc, hg, by rintro rfl; simp at hrest⟩
  · rintro ⟨c, rest, rfl, h1, h2, hc, hg, hne⟩
    have hres := resolve_eq_cons_iff.2 ⟨c, rest, rfl, h1, h2, hc, hg, rfl⟩
    rw [normalize, hres]
    split_ifs with hlast
    · cases hr : resolve here up rest with
      | nil => exact ⟨empty, [], rfl⟩
      | cons b r => exact ⟨b, r ++ [empty], rfl⟩
    · -- The last segment is a name, which stays.
      obtain ⟨rest', s, rfl⟩ := (List.eq_nil_or_concat rest).resolve_left hne
      rw [List.concat_eq_append] at hlast ⊢
      rw [getLast?_append_cons_concat] at hlast
      simp only [Option.some.injEq, not_or] at hlast
      rw [resolve_append_singleton, push, if_neg hlast.2, if_neg hlast.1]
      cases hr : resolve here up rest' with
      | nil => exact ⟨s, [], rfl⟩
      | cons b r => exact ⟨b, r ++ [s], rfl⟩

/-- A path that is the name `a`: a collapsing path, then `a`. -/
theorem normalize_eq_singleton_iff {segs : List α} {a empty : α} (ha : a ≠ empty) :
    normalize here up empty segs = [a] ↔
      ∃ c, segs = c ++ [a] ∧ a ≠ here ∧ a ≠ up ∧ Collapses here up c := by
  constructor
  · intro h
    rw [normalize] at h
    split_ifs at h with hlast
    · cases hres : resolve here up segs with
      | nil =>
        rw [hres, List.nil_append, List.cons.injEq] at h
        exact absurd h.1.symm ha
      | cons x xs => simp [hres] at h
    · obtain ⟨c, rest, rfl, h1, h2, hc, hg, hrest⟩ := resolve_eq_cons_iff.1 h
      refine ⟨c, ?_, h1, h2, hc⟩
      rcases List.eq_nil_or_concat rest with rfl | ⟨rest', s, rfl⟩
      · rfl
      · rw [List.concat_eq_append] at hlast hrest
        rw [getLast?_append_cons_concat] at hlast
        simp only [Option.some.injEq, not_or] at hlast
        rw [resolve_append_singleton, push, if_neg hlast.2, if_neg hlast.1] at hrest
        simp at hrest
  · rintro ⟨c, rfl, h1, h2, hc⟩
    rw [normalize, List.getLast?_concat, if_neg (by simp [h1, h2])]
    exact resolve_eq_cons_iff.2 ⟨c, [], rfl, h1, h2, hc, grounded_of_not_mem (by simp), rfl⟩

end FlashNext.DotSegments
