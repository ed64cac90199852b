import FlashNext.Chunks

/-!
# Programs that copy

A memory gives every address a value. A *copy* loads from some addresses and then
stores what it has loaded at others (a list of moves from a source to a
destination), a *program* is a list of copies, one after the other, and the
programs of several workers interleave (`Interleaving`).

* `runCopies_spec`: what a program leaves, if no copy stores to an address that a
  later one loads from;
* `runCopies_of_settled`: if no copy changes what any copy loads, the order does not
  matter;
* `Interleaving.perm` and `Interleaving.eq_of_length`: what an interleaving has, and
  the interleaving of one program with empty ones.
-/

namespace FlashNext

variable {A V : Type*} [DecidableEq A]

/-- All loads, and then all stores. -/
def copyMoves (m : A → V) (moves : List (A × A)) : A → V :=
  scatter (·.2) (fun x => m x.1) moves m

/-- The copies, one after the other. -/
def runCopies (m : A → V) (prog : List (List (A × A))) : A → V := prog.foldl copyMoves m

/-- The copy `u` stores to no address that the copy `v` loads from. -/
def Spares (u v : List (A × A)) : Prop := ∀ x ∈ u, ∀ y ∈ v, x.2 ≠ y.1

/-- An address that is stored to is so from one source. -/
def OneSource (prog : List (List (A × A))) : Prop :=
  ∀ u ∈ prog, ∀ v ∈ prog, ∀ x ∈ u, ∀ y ∈ v, x.2 = y.2 → x.1 = y.1

/-- What is stored to an address that is loaded is what is there. -/
def Settled (prog : List (List (A × A))) : Prop :=
  ∀ u ∈ prog, ∀ v ∈ prog, ∀ x ∈ u, ∀ y ∈ v, x.2 = y.1 → x.1 = x.2

/-- The memory `m'` is `m` after the moves of the program. -/
structure Moved (m m' : A → V) (prog : List (List (A × A))) : Prop where
  moved : ∀ v ∈ prog, ∀ x ∈ v, m' x.2 = m x.1
  frame : ∀ a, (∀ v ∈ prog, ∀ x ∈ v, x.2 ≠ a) → m' a = m a

/-- What a program leaves: no copy stores to an address that a later one loads from,
    and so it loads what was there at first. -/
theorem runCopies_spec (m : A → V) {prog : List (List (A × A))} (hone : OneSource prog)
    (hspares : prog.Pairwise Spares) : Moved m (runCopies m prog) prog := by
  induction prog generalizing m with
  | nil => exact ⟨fun v hv => (by cases hv), fun a _ => rfl⟩
  | cons u prog ih =>
    rw [List.pairwise_cons] at hspares
    have hu : u ∈ u :: prog := List.mem_cons_self
    have htail : ∀ {v}, v ∈ prog → v ∈ u :: prog := List.mem_cons_of_mem u
    obtain ⟨hmoved, hframe⟩ := ih (copyMoves m u)
      (fun v hv w hw => hone v (htail hv) w (htail hw)) hspares.2
    have hstore : ∀ x ∈ u, copyMoves m u x.2 = m x.1 := fun x hx =>
      scatter_of_mem hx fun y hy hkey => Prod.ext (hone u hu u hu y hy x hx hkey) hkey
    -- The later copies still load what was there at first.
    have hload : ∀ v ∈ prog, ∀ y ∈ v, copyMoves m u y.1 = m y.1 := fun v hv y hy =>
      scatter_of_ne fun x hx => hspares.1 v hv x hx y hy
    refine ⟨fun v hv x hx => ?_, fun a ha => ?_⟩
    · rcases List.mem_cons.1 hv with rfl | hv
      · -- The address may be stored to again, from the same source.
        by_cases hagain : ∃ w ∈ prog, ∃ y ∈ w, y.2 = x.2
        · obtain ⟨w, hw, y, hy, hkey⟩ := hagain
          have hsrc := hone w (htail hw) v hu y hy x hx hkey
          exact hkey ▸ (hmoved w hw y hy).trans ((hload w hw y hy).trans (congrArg m hsrc))
        · push Not at hagain
          exact (hframe x.2 hagain).trans (hstore x hx)
      · exact (hmoved v hv x hx).trans (hload v hv x hx)
    · rw [List.forall_mem_cons] at ha
      exact (hframe a ha.2).trans (scatter_of_ne ha.1)

omit [DecidableEq A] in
/-- What is moved does not depend on the program, but for its moves. -/
theorem Moved.congr {m m' : A → V} {prog prog' : List (List (A × A))} (h : Moved m m' prog)
    (hiff : ∀ x, (∃ v ∈ prog, x ∈ v) ↔ ∃ v ∈ prog', x ∈ v) : Moved m m' prog' := by
  refine ⟨fun v hv x hx => ?_, fun a ha => h.frame a fun v hv x hx => ?_⟩
  · obtain ⟨w, hw, hxw⟩ := (hiff x).2 ⟨v, hv, hx⟩
    exact h.moved w hw x hxw
  · obtain ⟨w, hw, hxw⟩ := (hiff x).1 ⟨v, hv, hx⟩
    exact ha w hw x hxw

omit [DecidableEq A] in
/-- Two memories after the same moves are the same. -/
theorem Moved.unique {m m' m'' : A → V} {prog : List (List (A × A))} (h : Moved m m' prog)
    (h' : Moved m m'' prog) : m' = m'' := by
  funext a
  by_cases ha : ∃ v ∈ prog, ∃ x ∈ v, x.2 = a
  · obtain ⟨v, hv, x, hx, rfl⟩ := ha
    rw [h.moved v hv x hx, h'.moved v hv x hx]
  · push Not at ha
    rw [h.frame a ha, h'.frame a ha]

/-- If what is loaded is never changed, the copies may be taken in any order, and the moves
    put together to copies in any way. -/
theorem runCopies_of_settled (m : A → V) {prog l : List (List (A × A))} (hone : OneSource prog)
    (hsettled : Settled prog) (hl : ∀ x, (∃ v ∈ l, x ∈ v) ↔ ∃ v ∈ prog, x ∈ v) :
    Moved m (runCopies m l) prog := by
  have hone : ∀ u ∈ l, ∀ v ∈ l, ∀ x ∈ u, ∀ y ∈ v, x.2 = y.2 → x.1 = y.1 := by
    intro u hu v hv x hx y hy
    obtain ⟨u', hu', hx⟩ := (hl x).1 ⟨u, hu, hx⟩
    obtain ⟨v', hv', hy⟩ := (hl y).1 ⟨v, hv, hy⟩
    exact hone u' hu' v' hv' x hx y hy
  have hsettled : ∀ u ∈ l, ∀ v ∈ l, ∀ x ∈ u, ∀ y ∈ v, x.2 = y.1 → x.1 = x.2 := by
    intro u hu v hv x hx y hy
    obtain ⟨u', hu', hx⟩ := (hl x).1 ⟨u, hu, hx⟩
    obtain ⟨v', hv', hy⟩ := (hl y).1 ⟨v, hv, hy⟩
    exact hsettled u' hu' v' hv' x hx y hy
  -- The copies that are left load what was there at first.
  suffices hrest : ∀ l' ⊆ l, ∀ m', (∀ v ∈ l, ∀ y ∈ v, m' y.1 = m y.1) →
      (∀ v ∈ l', ∀ x ∈ v, runCopies m' l' x.2 = m x.1) ∧
      ∀ a, (∀ v ∈ l', ∀ x ∈ v, x.2 ≠ a) → runCopies m' l' a = m' a by
    obtain ⟨hmoved, hframe⟩ := hrest l (List.Subset.refl l) m fun _ _ _ _ => rfl
    exact Moved.congr ⟨hmoved, hframe⟩ hl
  intro l'
  induction l' with
  | nil => exact fun _ m' _ => ⟨fun v hv => (by cases hv), fun _ _ => rfl⟩
  | cons u l' ih =>
    intro hsub m' hm'
    rw [List.cons_subset] at hsub
    obtain ⟨hu, hsub⟩ := hsub
    have hstore : ∀ x ∈ u, copyMoves m' u x.2 = m x.1 := fun x hx =>
      (scatter_of_mem hx fun y hy hkey => Prod.ext (hone u hu u hu y hy x hx hkey) hkey).trans
        (hm' u hu x hx)
    obtain ⟨hmoved, hframe⟩ := ih hsub (copyMoves m' u) fun v hv y hy => by
      by_cases hy' : ∃ x ∈ u, x.2 = y.1
      · obtain ⟨x, hx, hkey⟩ := hy'
        rw [← hkey, hstore x hx, hsettled u hu v hv x hx y hy hkey]
      · push Not at hy'
        exact (scatter_of_ne hy').trans (hm' v hv y hy)
    refine ⟨fun v hv x hx => ?_, fun a ha => ?_⟩
    · rcases List.mem_cons.1 hv with rfl | hv
      · by_cases hagain : ∃ w ∈ l', ∃ y ∈ w, y.2 = x.2
        · obtain ⟨w, hw, y, hy, hkey⟩ := hagain
          have hsrc := hone w (hsub hw) v hu y hy x hx hkey
          exact hkey ▸ (hmoved w hw y hy).trans (congrArg m hsrc)
        · push Not at hagain
          exact (hframe x.2 hagain).trans (hstore x hx)
      · exact hmoved v hv x hx
    · rw [List.forall_mem_cons] at ha
      exact (hframe a ha.2).trans (scatter_of_ne ha.1)

/-! ## Interleavings -/

/-- The steps of some workers, each in its own order. -/
inductive Interleaving {α : Type*} : List (List α) → List α → Prop
  | nil {ls : List (List α)} : (∀ l ∈ ls, l = []) → Interleaving ls []
  | cons {ls : List (List α)} {i : Nat} {x : α} {rest l : List α} :
      ls[i]? = some (x :: rest) → Interleaving (ls.set i rest) l → Interleaving ls (x :: l)

namespace Interleaving

variable {α : Type*} {ls : List (List α)} {l : List α}

/-- An interleaving has the steps of all workers. -/
theorem perm (h : Interleaving ls l) : l.Perm ls.flatten := by
  induction h with
  | nil hnil => rw [List.flatten_eq_nil_iff.2 hnil]
  | @cons ls i x rest l hi _ ih =>
    have hset : (ls.flatMap id).Perm (x :: (ls.set i rest).flatMap id) :=
      perm_flatMap_set hi rfl
    rw [List.flatMap_id, List.flatMap_id] at hset
    exact (ih.cons x).trans hset.symm

/-- A worker takes its steps in its own order. -/
theorem sublist (h : Interleaving ls l) {i : Nat} {p : List α} (hi : ls[i]? = some p) :
    p.Sublist l := by
  induction h generalizing p with
  | nil hnil => rw [hnil p (List.mem_of_getElem? hi)]
  | @cons ls j x rest l hj _ ih =>
    by_cases hij : j = i
    · subst hij
      obtain rfl := Option.some.inj (hj.symm.trans hi)
      exact (ih (by simp [(List.getElem?_eq_some_iff.1 hi).1])).cons_cons x
    · exact (ih (by rwa [List.getElem?_set_ne hij])).cons x

/-- If one worker has all the steps, they are taken in its order. -/
theorem eq_of_length (h : Interleaving ls l) {i : Nat} {p : List α} (hi : ls[i]? = some p)
    (hlen : ls.flatten.length = p.length) : l = p :=
  ((h.sublist hi).eq_of_length (hlen.symm.trans h.perm.length_eq.symm)).symm

/-- Workers that have no steps. -/
theorem eq_nil (h : Interleaving ls l) (hnil : ∀ p ∈ ls, p = []) : l = [] := by
  have hperm := h.perm
  rw [List.flatten_eq_nil_iff.2 hnil] at hperm
  exact hperm.eq_nil

/-- One worker more. -/
theorem cons_nil (h : Interleaving ls l) : Interleaving ([] :: ls) l := by
  induction h with
  | nil hnil => exact .nil (List.forall_mem_cons.2 ⟨rfl, hnil⟩)
  | @cons ls i x rest l hi _ ih => exact .cons (i := i + 1) hi ih

/-- The workers, one after the other. -/
theorem flatten (ls : List (List α)) : Interleaving ls ls.flatten := by
  induction ls with
  | nil => exact .nil fun _ h => by cases h
  | cons p ls ih =>
    rw [List.flatten_cons]
    induction p with
    | nil => exact ih.cons_nil
    | cons x p ihp => exact .cons (i := 0) rfl ihp

end Interleaving

end FlashNext
