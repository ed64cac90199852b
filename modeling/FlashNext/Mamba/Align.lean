import FlashNext.Programs
import FlashNext.Mamba.Kernels

/-!
# Where the states of the requests are

`preprocess_mamba_align_fused_kernel` of `mamba_utils_guarded.py`: before a step it keeps, for
each request of the batch, the column of its running state and its bias, moves the column on
to that of the last token of the step, and resets the accepted tokens if it is another one.

* `preprocess_spec`: what it leaves, in whatever order its programs run.
-/

namespace FlashNext.Mamba

/-- The arrays of the kernel, by request slot. -/
inductive AlignCell
  | stateIdx (slot : Int)
  | numAccepted (slot : Int)
  | srcCol (slot : Int)
  | srcOff (slot : Int)
  deriving DecidableEq

/-- The other arguments of `preprocess_mamba_align_fused_kernel`. -/
structure PreprocessArgs where
  idxMapping : Nat → Int
  numComputedTokens : Int → Int
  queryStartLoc : Nat → Int
  numReqs : Nat
  blockSize : Nat
  mambaBlockSize : Int

namespace PreprocessArgs

variable (a : PreprocessArgs)

/-- The lanes of a program that are not masked. -/
def lanes (pid : Nat) : List Nat := programLanes a.blockSize a.numReqs pid

/-- `new_state_idx`. -/
def newStateIdx (b : Nat) : Int :=
  (a.numComputedTokens (a.idxMapping b) + a.queryStartLoc (b + 1) - a.queryStartLoc b +
    a.mambaBlockSize - 1).tdiv a.mambaBlockSize - 1

/-- `should_reset`. -/
def shouldReset (m : AlignCell → Int) (b : Nat) : Bool :=
  let stateIdx := m (.stateIdx (a.idxMapping b))
  decide (0 ≤ stateIdx ∧ stateIdx ≠ a.newStateIdx b)

/-- `preprocess_mamba_align_fused_kernel`: all loads of a program come before its stores to
    the arrays that it loads from. -/
def preprocessProgram (pid : Nat) (m : AlignCell → Int) : AlignCell → Int :=
  let m₁ := scatter (fun b => .srcCol (a.idxMapping b)) (fun b => m (.stateIdx (a.idxMapping b)))
    (a.lanes pid) m
  let m₂ := scatter (fun b => .srcOff (a.idxMapping b))
    (fun b => max (m (.numAccepted (a.idxMapping b)) - 1) 0) (a.lanes pid) m₁
  let m₃ := scatter (fun b => .stateIdx (a.idxMapping b)) a.newStateIdx (a.lanes pid) m₂
  scatter (fun b => .numAccepted (a.idxMapping b)) (fun _ => 1)
    ((a.lanes pid).filter (a.shouldReset m)) m₃

/-- The programs of a launch. -/
def pids : List Nat := List.range ((a.numReqs + a.blockSize - 1) / a.blockSize)

/-- What the kernel leaves in the cells of a request. -/
def after (m : AlignCell → Int) (b : Nat) : AlignCell → Int
  | .stateIdx _ => a.newStateIdx b
  | .numAccepted slot => if a.shouldReset m b then 1 else m (.numAccepted slot)
  | .srcCol slot => m (.stateIdx slot)
  | .srcOff slot => max (m (.numAccepted slot) - 1) 0

end PreprocessArgs

/-- The request slot of a cell. -/
def AlignCell.slot : AlignCell → Int
  | .stateIdx slot | .numAccepted slot | .srcCol slot | .srcOff slot => slot

namespace PreprocessArgs

variable {a : PreprocessArgs} {pid b : Nat} {m : AlignCell → Int} {k : AlignCell}

/-- What a program touches. -/
def Touches (a : PreprocessArgs) (pid : Nat) (k : AlignCell) : Prop :=
  ∃ b ∈ a.lanes pid, k.slot = a.idxMapping b

/-- The requests of the batch have slots of their own. -/
def OwnSlots (a : PreprocessArgs) : Prop :=
  ∀ b < a.numReqs, ∀ b' < a.numReqs, a.idxMapping b = a.idxMapping b' → b = b'

theorem lt_of_mem_lanes (hb : b ∈ a.lanes pid) : b < a.numReqs :=
  of_decide_eq_true (List.mem_filter.1 hb).2

/-- What a program leaves in the cells of one of its requests. -/
theorem preprocessProgram_eq (hown : a.OwnSlots) (hb : b ∈ a.lanes pid)
    (hk : k.slot = a.idxMapping b) : a.preprocessProgram pid m k = a.after m b k := by
  have hsame : ∀ b' ∈ a.lanes pid, a.idxMapping b' = a.idxMapping b → b' = b := fun b' hb' =>
    hown b' (lt_of_mem_lanes hb') b (lt_of_mem_lanes hb)
  cases k with
  | stateIdx slot =>
    obtain rfl : slot = _ := hk
    rw [preprocessProgram, scatter_of_ne (by simp)]
    exact scatter_of_mem hb fun b' hb' h => hsame b' hb' (AlignCell.stateIdx.inj h)
  | numAccepted slot =>
    obtain rfl : slot = _ := hk
    rw [preprocessProgram, after]
    split_ifs with hreset
    · exact scatter_of_mem (List.mem_filter.2 ⟨hb, hreset⟩) fun b' hb' h =>
        hsame b' (List.mem_filter.1 hb').1 (AlignCell.numAccepted.inj h)
    · rw [scatter_of_ne, scatter_of_ne (by simp), scatter_of_ne (by simp),
        scatter_of_ne (by simp)]
      intro b' hb' h
      obtain ⟨hb', hreset'⟩ := List.mem_filter.1 hb'
      obtain rfl := hsame b' hb' (AlignCell.numAccepted.inj h)
      exact hreset hreset'
  | srcCol slot =>
    obtain rfl : slot = _ := hk
    rw [preprocessProgram, scatter_of_ne (by simp), scatter_of_ne (by simp),
      scatter_of_ne (by simp)]
    let key := fun b => AlignCell.srcCol (a.idxMapping b)
    exact @scatter_of_mem _ _ _ _ key _ _ _ _ hb
      fun b' hb' h => hsame b' hb' (AlignCell.srcCol.inj h)
  | srcOff slot =>
    obtain rfl : slot = _ := hk
    rw [preprocessProgram, scatter_of_ne (by simp), scatter_of_ne (by simp)]
    let key := fun b => AlignCell.srcOff (a.idxMapping b)
    exact @scatter_of_mem _ _ _ _ key _ _ _ _ hb
      fun b' hb' h => hsame b' hb' (AlignCell.srcOff.inj h)

theorem preprocessProgram_frame (hk : ¬a.Touches pid k) : a.preprocessProgram pid m k = m k := by
  have hne : ∀ {C : Int → AlignCell}, (∀ slot, (C slot).slot = slot) → ∀ l ⊆ a.lanes pid,
      ∀ b ∈ l, C (a.idxMapping b) ≠ k := by
    rintro C hC l hl b hb rfl
    exact hk ⟨b, hl hb, hC _⟩
  rw [preprocessProgram, scatter_of_ne (hne (fun _ => rfl) _ (List.filter_subset_self _)),
    scatter_of_ne (hne (fun _ => rfl) _ (List.Subset.refl _)),
    scatter_of_ne (hne (fun _ => rfl) _ (List.Subset.refl _)),
    scatter_of_ne (hne (fun _ => rfl) _ (List.Subset.refl _))]

/-- The cells of a request, from what is in them. -/
theorem after_congr {m' : AlignCell → Int}
    (h : ∀ k, k.slot = a.idxMapping b → m k = m' k) (hk : k.slot = a.idxMapping b) :
    a.after m b k = a.after m' b k := by
  have hreset : a.shouldReset m b = a.shouldReset m' b := by
    rw [shouldReset, shouldReset, h (.stateIdx _) rfl]
  cases k with
  | stateIdx slot => rfl
  | numAccepted slot => rw [after, after, hreset, h (.numAccepted slot) hk]
  | srcCol slot => exact h (.stateIdx slot) hk
  | srcOff slot => rw [after, after, h (.numAccepted slot) hk]

theorem footprint (hown : a.OwnSlots) : Footprint a.Touches a.Touches a.preprocessProgram where
  frame pid m k hk := preprocessProgram_frame hk
  congr pid m m' h k hk := by
    obtain ⟨b, hb, hslot⟩ := hk
    rw [preprocessProgram_eq hown hb hslot, preprocessProgram_eq hown hb hslot]
    exact after_congr (fun k hk => h k ⟨b, hb, hk⟩) hslot

/-- The kernel leaves every request of the batch with its new column, and the others as they
    were, in whatever order its programs run. -/
theorem preprocess_spec (hown : a.OwnSlots) (hblock : 0 < a.blockSize) {order : List Nat}
    (horder : order.Perm a.pids) (m : AlignCell → Int) :
    (∀ b < a.numReqs, ∀ k, k.slot = a.idxMapping b →
      runPrograms a.preprocessProgram order m k = a.after m b k) ∧
    ∀ k, (∀ b < a.numReqs, k.slot ≠ a.idxMapping b) →
      runPrograms a.preprocessProgram order m k = m k := by
  have hfoot := footprint hown
  -- Two programs have no common request.
  have hclear : ∀ {pid pid'}, pid ≠ pid' → Clear a.Touches a.Touches pid pid' := by
    rintro pid pid' hne k ⟨b, hb, hslot⟩
    have hno : ¬a.Touches pid' k := by
      rintro ⟨b', hb', hslot'⟩
      obtain rfl := hown b (lt_of_mem_lanes hb) b' (lt_of_mem_lanes hb') (hslot.symm.trans hslot')
      exact hne (((mem_programLanes hblock).1 hb).1.symm.trans ((mem_programLanes hblock).1 hb').1)
    exact ⟨hno, hno⟩
  have hnodup : order.Nodup := horder.nodup_iff.2 List.nodup_range
  obtain ⟨hrun, hframe⟩ := runPrograms_spec hfoot
    (hnodup.pairwise_of_forall_ne fun pid _ pid' _ hne => hclear hne) m
  refine ⟨fun b hb k hk => ?_, fun k hk => hframe k ?_⟩
  · have hmem : b ∈ a.lanes (b / a.blockSize) := (mem_programLanes hblock).2 ⟨rfl, hb⟩
    have hpid : b / a.blockSize ∈ order :=
      horder.symm.subset (List.mem_range.2 (div_lt_programs hblock hb))
    rw [hrun _ hpid k ⟨b, hmem, hk⟩, preprocessProgram_eq hown hmem hk]
  · rintro pid - ⟨b, hb, hslot⟩
    exact hk b (lt_of_mem_lanes hb) hslot

end PreprocessArgs

end FlashNext.Mamba
