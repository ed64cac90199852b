import Mathlib.Data.List.Nodup
import FlashNext.Chunks

/-!
# Programs on a shared memory

The programs of a launch, or the steps of a loop, run one after the other on a memory
that gives every cell a value. Each *touches* some cells (`Footprint`): it changes those
that it writes only, and what it writes depends on those that it reads only.

* `runPrograms_spec`: if no program writes a cell that a later one touches, each writes
  what it would write to the first memory;
* `runPrograms_perm`: if no program writes a cell that another one touches, they may run
  in any order;
* `runScatters_spec`: programs of which each lane has a cell of its own, and that read no
  cell of a lane, in any order;
* `programLanes`: the lanes of the programs of a kernel, of which each has one program.
-/

namespace FlashNext

variable {ι K V : Type*} {reads writes : ι → K → Prop} {run : ι → (K → V) → K → V} {l l' : List ι}

/-- The programs, one after the other. -/
def runPrograms (run : ι → (K → V) → K → V) (l : List ι) (m : K → V) : K → V :=
  l.foldl (fun m i => run i m) m

@[simp] theorem runPrograms_nil (m : K → V) : runPrograms run [] m = m := rfl

@[simp] theorem runPrograms_cons (i : ι) (m : K → V) :
    runPrograms run (i :: l) m = runPrograms run l (run i m) := rfl

/-- The cells that each program touches. -/
structure Footprint (reads writes : ι → K → Prop) (run : ι → (K → V) → K → V) : Prop where
  frame : ∀ i m k, ¬writes i k → run i m k = m k
  congr : ∀ i m m', (∀ k, reads i k → m k = m' k) → ∀ k, writes i k → run i m k = run i m' k

/-- The program `i` writes no cell that the program `j` touches. -/
def Clear (reads writes : ι → K → Prop) (i j : ι) : Prop :=
  ∀ k, writes i k → ¬reads j k ∧ ¬writes j k

/-- The programs write what they would write to the first memory, if none writes a cell
    that a later one touches. -/
theorem runPrograms_spec (h : Footprint reads writes run) (hl : l.Pairwise (Clear reads writes))
    (m : K → V) :
    (∀ i ∈ l, ∀ k, writes i k → runPrograms run l m k = run i m k) ∧
    ∀ k, (∀ i ∈ l, ¬writes i k) → runPrograms run l m k = m k := by
  induction l generalizing m with
  | nil => exact ⟨fun i hi => (by cases hi), fun k _ => rfl⟩
  | cons i l ih =>
    rw [List.pairwise_cons] at hl
    obtain ⟨hown, hframe⟩ := ih hl.2 (run i m)
    refine ⟨fun j hj k hk => ?_, fun k hk => ?_⟩
    · rcases List.mem_cons.1 hj with rfl | hj
      · exact hframe k fun j' hj' => (hl.1 j' hj' k hk).2
      · -- What a later program reads is as it was at first.
        refine (hown j hj k hk).trans (h.congr j _ _ (fun k' hk' => ?_) k hk)
        exact h.frame i m k' fun hw => (hl.1 j hj k' hw).1 hk'
    · rw [List.forall_mem_cons] at hk
      exact (hframe k hk.2).trans (h.frame i m k hk.1)

/-- Programs that leave the cells of each other alone may run in any order. -/
theorem runPrograms_perm (h : Footprint reads writes run) (hl : l.Nodup)
    (hclear : ∀ i ∈ l, ∀ j ∈ l, i ≠ j → Clear reads writes i j) (hp : l'.Perm l) (m : K → V) :
    runPrograms run l' m = runPrograms run l m := by
  have hpair : ∀ {l'' : List ι}, l''.Perm l → l''.Pairwise (Clear reads writes) := fun hp' =>
    List.Nodup.pairwise_of_forall_ne (hp'.nodup_iff.2 hl) fun i hi j hj hne =>
      hclear i (hp'.subset hi) j (hp'.subset hj) hne
  obtain ⟨hown, hframe⟩ := runPrograms_spec h (hpair hp) m
  obtain ⟨hown', hframe'⟩ := runPrograms_spec h (hpair (.refl l)) m
  funext k
  by_cases hk : ∃ i ∈ l, writes i k
  · obtain ⟨i, hi, hw⟩ := hk
    rw [hown i (hp.symm.subset hi) k hw, hown' i hi k hw]
  · push Not at hk
    rw [hframe k fun i hi => hk i (hp.subset hi), hframe' k hk]

/-! ## Scatters -/

section Scatter

variable {α : Type*} [DecidableEq K]

/-- Programs that store a value for each of their lanes, computed from the memory. -/
def runScatters (cell : ι → α → K) (val : ι → (K → V) → α → V) (lanes : ι → List α) (l : List ι)
    (m : K → V) : K → V :=
  runPrograms (fun i m => scatter (cell i) (val i m) (lanes i) m) l m

/-- Every lane finds its value in its cell, and nothing else is changed, if the lanes have
    cells of their own and none of these is read. -/
theorem runScatters_spec (cell : ι → α → K) (val : ι → (K → V) → α → V) (lanes : ι → List α)
    (m₀ : K → V) (hl : l.Nodup)
    (hcell : ∀ i ∈ l, ∀ x ∈ lanes i, ∀ j ∈ l, ∀ y ∈ lanes j, cell i x = cell j y → i = j ∧ x = y)
    (hval : ∀ m, (∀ k, (∀ i ∈ l, ∀ x ∈ lanes i, cell i x ≠ k) → m k = m₀ k) →
      ∀ i ∈ l, ∀ x ∈ lanes i, val i m x = val i m₀ x) :
    (∀ i ∈ l, ∀ x ∈ lanes i, runScatters cell val lanes l m₀ (cell i x) = val i m₀ x) ∧
    ∀ k, (∀ i ∈ l, ∀ x ∈ lanes i, cell i x ≠ k) → runScatters cell val lanes l m₀ k = m₀ k := by
  -- The programs that are left find the memory changed in cells of lanes only.
  suffices hrest : ∀ l' : List ι, l'.Nodup → l' ⊆ l → ∀ m,
      (∀ k, (∀ i ∈ l, ∀ x ∈ lanes i, cell i x ≠ k) → m k = m₀ k) →
      (∀ i ∈ l', ∀ x ∈ lanes i, runScatters cell val lanes l' m (cell i x) = val i m₀ x) ∧
      ∀ k, (∀ i ∈ l', ∀ x ∈ lanes i, cell i x ≠ k) → runScatters cell val lanes l' m k = m k from
    hrest l hl (List.Subset.refl l) m₀ fun _ _ => rfl
  intro l'
  induction l' with
  | nil => exact fun _ _ m _ => ⟨fun i hi => (by cases hi), fun _ _ => rfl⟩
  | cons i l' ih =>
    intro hnodup hsub m hm
    rw [List.nodup_cons] at hnodup
    rw [List.cons_subset] at hsub
    obtain ⟨hi, hsub⟩ := hsub
    have hframe : ∀ k, (∀ x ∈ lanes i, cell i x ≠ k) →
        scatter (cell i) (val i m) (lanes i) m k = m k := fun k hk => scatter_of_ne hk
    obtain ⟨hown, hleft⟩ := ih hnodup.2 hsub (scatter (cell i) (val i m) (lanes i) m) fun k hk =>
      (hframe k (hk i hi)).trans (hm k hk)
    refine ⟨fun j hj x hx => ?_, fun k hk => ?_⟩
    · rcases List.mem_cons.1 hj with rfl | hj
      · refine (hleft _ fun j' hj' y hy heq => ?_).trans ?_
        · obtain ⟨rfl, -⟩ := hcell j' (hsub hj') y hy j hi x hx heq
          exact hnodup.1 hj'
        · rw [scatter_of_mem hx fun y hy heq => (hcell j hi y hy j hi x hx heq).2]
          exact hval m hm j hi x hx
      · exact hown j hj x hx
    · rw [List.forall_mem_cons] at hk
      exact (hleft k hk.2).trans (hframe k hk.1)

end Scatter

/-! ## Lanes -/

/-- The lanes of a program that are not masked, of `n` in programs of `size`. -/
def programLanes (size n pid : Nat) : List Nat :=
  ((List.range size).map fun lane => pid * size + lane).filter (· < n)

variable {size n pid x : Nat}

theorem mem_programLanes (hsize : 0 < size) :
    x ∈ programLanes size n pid ↔ x / size = pid ∧ x < n := by
  simp only [programLanes, List.mem_filter, List.mem_map, List.mem_range, decide_eq_true_eq]
  refine and_congr_left fun _ => ⟨?_, ?_⟩
  · rintro ⟨lane, hlane, rfl⟩
    rw [Nat.mul_comm, Nat.mul_add_div hsize, Nat.div_eq_of_lt hlane, Nat.add_zero]
  · rintro rfl
    exact ⟨x % size, Nat.mod_lt x hsize, Nat.div_add_mod' x size⟩

/-- Offsets in rows of `n` are different for different rows and columns. -/
theorem offset_inj {n i j i' j' : Nat} (hj : j < n) (hj' : j' < n) (h : i * n + j = i' * n + j') :
    i = i' ∧ j = j' := by
  have hmod : ∀ {i j : Nat}, j < n → (i * n + j) % n = j := fun hj => by
    rw [Nat.mul_comm, Nat.mul_add_mod, Nat.mod_eq_of_lt hj]
  have hcol : j = j' := by rw [← @hmod i j hj, h, hmod hj']
  subst hcol
  exact ⟨Nat.eq_of_mul_eq_mul_right (by omega) (Nat.add_right_cancel h), rfl⟩

/-- A lane has a program. -/
theorem div_lt_programs (hsize : 0 < size) (hx : x < n) : x / size < (n + size - 1) / size := by
  rw [Nat.div_lt_iff_lt_mul hsize]
  exact hx.trans_le (le_chunks_mul hsize _)

end FlashNext
