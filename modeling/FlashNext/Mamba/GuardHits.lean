import Mathlib.Algebra.Order.BigOperators.Group.Finset
import FlashNext.System
import FlashNext.Mamba.Kernels

/-!
# The counter of the guard

`guard_hits` of `mamba_utils_guarded.py`: every program whose copy the guard leaves out
adds one, and `run_fused_precopy` reports the counter from time to time, as it was
copied to the host one report earlier.

* `hits_eq_skipped_iff`: a launch adds one for each copy that it skips if and only if
  there is one tile, or no destination is out of range and no source of a temporal
  state is (`Kernel.CountedOnce`); otherwise all tiles of a copy add one;
* `counted_of_reachable`: in the runs of such launches, no reported count is above the
  number of copies skipped so far.

The launches of a run and the copies of the counter are done in order, on one stream.
-/

namespace FlashNext.Mamba

/-! ## One launch -/

namespace Kernel

variable (k : Kernel) (l : Launch) (states : Nat → MambaState) (numStates : Nat)

/-- The requests and states of the grid. -/
def grid : Finset (Nat × Nat) := Finset.range k.numReqs ×ˢ Finset.range numStates

/-- How often the programs of a request and a state add one to `guard_hits`. -/
def tileHits (p : Nat × Nat) : Nat :=
  ∑ tile ∈ Finset.range l.temporalTiles, (k.program l states true p.1 p.2 tile).effect.hits

/-- How often the programs of a launch add one to `guard_hits`. -/
def hits : Nat := ∑ p ∈ k.grid numStates, k.tileHits l states p

/-- The guard skips the copy of the state of a request. -/
def Skips (p : Nat × Nat) : Prop := ∃ c ∈ k.copy p.1, ¬(states p.2).IdsInRange l c

instance (p : Nat × Nat) : Decidable (k.Skips l states p) :=
  inferInstanceAs (Decidable (∃ c ∈ k.copy p.1, ¬(states p.2).IdsInRange l c))

/-- The number of copies that the guard skips in a launch. -/
def skipped : Nat := ((k.grid numStates).filter (k.Skips l states)).card

/-- There is one tile, or no destination is out of range, and no source of a temporal
    state. -/
def CountedOnce : Prop :=
  l.temporalTiles = 1 ∨ ∀ p ∈ k.grid numStates, ∀ c ∈ k.copy p.1,
    (states p.2).InRange ((states p.2).destId l c) ∧
      ((states p.2).convWidth = 0 → (states p.2).InRange ((states p.2).srcId l c))

variable {k l states}

/-- The tiles of a copy add one each, but for a conv state whose destination is in
    range: there only the first one does. -/
theorem tileHits_eq (htiles : 0 < l.temporalTiles) (p : Nat × Nat) :
    k.tileHits l states p = match k.copy p.1 with
      | none => 0
      | some c =>
        if (states p.2).IdsInRange l c then 0
        else if (states p.2).InRange ((states p.2).destId l c) ∧ 0 < (states p.2).convWidth then 1
        else l.temporalTiles := by
  simp only [tileHits, program_effect]
  cases k.copy p.1 with
  | none => exact Finset.sum_const_zero
  | some c =>
    simp only [MambaState.guarded_hits]
    split_ifs with hids hconv
    · exact Finset.sum_const_zero
    · rw [Finset.sum_eq_single 0]
      · simp
      · intro tile _ htile
        exact if_pos ⟨hconv.1, hconv.2, Nat.pos_of_ne_zero htile⟩
      · intro hzero
        exact absurd (Finset.mem_range.2 htiles) hzero
    · rw [Finset.sum_congr rfl fun tile _ => if_neg fun h => hconv ⟨h.1, h.2.1⟩]
      simp

/-- A skipped copy is counted, by one tile at least, and no other copy is. -/
theorem skips_le_tileHits (htiles : 0 < l.temporalTiles) (p : Nat × Nat) :
    (if k.Skips l states p then 1 else 0) ≤ k.tileHits l states p := by
  rw [tileHits_eq htiles]
  cases hcopy : k.copy p.1 with
  | none => simp [Skips, hcopy]
  | some c =>
    by_cases hids : (states p.2).IdsInRange l c
    · simp [Skips, hcopy, hids]
    · simp only [Skips, hcopy, hids, if_false]
      split_ifs <;> omega

/-- A copy is counted as often as it is skipped. -/
theorem skips_eq_tileHits_iff (htiles : 0 < l.temporalTiles) (p : Nat × Nat) :
    (if k.Skips l states p then 1 else 0) = k.tileHits l states p ↔
      l.temporalTiles = 1 ∨ ∀ c ∈ k.copy p.1, (states p.2).InRange ((states p.2).destId l c) ∧
        ((states p.2).convWidth = 0 → (states p.2).InRange ((states p.2).srcId l c)) := by
  rw [tileHits_eq htiles]
  cases hcopy : k.copy p.1 with
  | none => simp [Skips, hcopy]
  | some c =>
    simp only [Skips, hcopy, Option.mem_def, Option.some.injEq, exists_eq_left', forall_eq',
      Nat.pos_iff_ne_zero, MambaState.IdsInRange]
    by_cases hdest : (states p.2).InRange ((states p.2).destId l c) <;>
      by_cases hsrc : (states p.2).InRange ((states p.2).srcId l c) <;>
      by_cases hconv : (states p.2).convWidth = 0 <;>
      simp [hdest, hsrc, hconv, eq_comm]

/-- A launch counts the copies that it skips, if and only if each is counted once. -/
theorem hits_eq_skipped_iff (htiles : 0 < l.temporalTiles) :
    k.hits l states numStates = k.skipped l states numStates ↔
      k.CountedOnce l states numStates := by
  rw [skipped, Finset.card_eq_sum_ones, Finset.sum_filter, eq_comm, hits,
    Finset.sum_eq_sum_iff_of_le fun p _ => skips_le_tileHits htiles p]
  simp only [skips_eq_tileHits_iff htiles, CountedOnce]
  by_cases hone : l.temporalTiles = 1 <;> simp [hone]

/-- Without tiles there is nothing to count. -/
theorem hits_le_skipped (h : k.CountedOnce l states numStates) :
    k.hits l states numStates ≤ k.skipped l states numStates := by
  rcases Nat.eq_zero_or_pos l.temporalTiles with hzero | htiles
  · simp [hits, tileHits, hzero]
  · exact ((hits_eq_skipped_iff numStates htiles).2 h).le

end Kernel

/-! ## Runs -/

/-- A launch of a kernel. The block tables are those at the time it runs. -/
structure KernelLaunch where
  kernel : Kernel
  launch : Launch
  states : Nat → MambaState
  numStates : Nat

namespace KernelLaunch

variable (x : KernelLaunch)

/-- How often the programs of the launch add one to `guard_hits`. -/
def hits : Nat := x.kernel.hits x.launch x.states x.numStates

/-- The number of copies that the guard skips. -/
def skipped : Nat := x.kernel.skipped x.launch x.states x.numStates

/-- Every skipped copy is counted once. -/
def CountedOnce : Prop := x.kernel.CountedOnce x.launch x.states x.numStates

end KernelLaunch

/-- What the host has the device do. -/
inductive GpuOp
  | launch (x : KernelLaunch)
  /-- `guard_hits_cpu.copy_(guard_hits, non_blocking=True)`. -/
  | refresh

/-- The counter in a `MambaSpecDecodeGPUContext`, the work that the device has still to
    do, and a record: the counts reported, and the number of copies skipped so far. -/
structure GuardState where
  isInitialized : Bool
  guardHits : Int
  guardHitsCpu : Int
  guardStep : Nat
  guardReported : Int
  queue : List GpuOp
  reported : List Int
  skipped : Nat

/-- What happens: the metadata is populated, a kernel is launched, or the device takes
    up the next of its work. -/
inductive GuardAction
  | initializeFromForwardContext
  | runFused (x : KernelLaunch)
  | gpu

namespace GuardState

/-- A context that has been created. -/
def create : GuardState := ⟨false, 0, 0, 0, 0, [], [], 0⟩

variable (s : GuardState)

/-- The end of `run_fused_precopy`: every 512 steps, a report, and the copy for the next
    one. -/
def telemetry : GuardState :=
  let s := { s with guardStep := s.guardStep + 1 }
  if s.guardStep % 512 = 0 then
    let hits := s.guardHitsCpu
    let s := if s.guardReported < hits then
      { s with reported := s.reported ++ [hits], guardReported := hits } else s
    { s with queue := s.queue ++ [.refresh] }
  else s

/-- `run_fused_precopy`, `run_fused_postprocess` and `run_fused_postprocess_align`. -/
def runFused (x : KernelLaunch) : GuardState :=
  if x.kernel.numReqs = 0 ∨ s.isInitialized = false then s
  else
    let s := { s with queue := s.queue ++ [.launch x] }
    match x.kernel with
    | .postprocess _ => s
    | .precopy _ => s.telemetry

/-- The next work of the device; the counter is an int32. -/
def gpu : Option GuardState :=
  match s.queue with
  | [] => none
  | .launch x :: queue => some { s with
      queue := queue
      guardHits := (s.guardHits + x.hits).bmod (2 ^ 32)
      skipped := s.skipped + x.skipped }
  | .refresh :: queue => some { s with queue := queue, guardHitsCpu := s.guardHits }

/-- The step of a run. -/
def step : GuardAction → Option GuardState
  | .initializeFromForwardContext => some { s with isInitialized := true }
  | .runFused x => some (s.runFused x)
  | .gpu => s.gpu

end GuardState

/-- The runs of a context. -/
def guardSystem : System GuardState GuardAction := .ofStep (· = .create) GuardState.step

/-- Every launch counts each copy once. -/
def GuardAction.CountedOnce (_ : GuardState) : GuardAction → Prop
  | .runFused x => x.CountedOnce
  | _ => True

/-- No count is above the number of copies skipped so far, and the launches to come
    count each copy once. -/
structure GuardState.Counted (s : GuardState) : Prop where
  int32 : -2 ^ 31 ≤ s.guardHits
  guardHits : s.guardHits ≤ s.skipped
  guardHitsCpu : s.guardHitsCpu ≤ s.skipped
  reported : ∀ n ∈ s.reported, n ≤ s.skipped
  queue : ∀ x, .launch x ∈ s.queue → x.CountedOnce

/-- An int32 that wraps is not above the number. -/
theorem bmod_int32 {n : Int} (h : -2 ^ 31 ≤ n) :
    -2 ^ 31 ≤ n.bmod (2 ^ 32) ∧ n.bmod (2 ^ 32) ≤ n := by
  rw [Int.bmod_def]
  split_ifs <;> omega

namespace GuardState.Counted

variable {s : GuardState} (h : s.Counted)
include h

theorem enqueue {op : GpuOp} (hop : ∀ x, op = .launch x → x.CountedOnce) :
    Counted { s with queue := s.queue ++ [op] } := by
  refine ⟨h.int32, h.guardHits, h.guardHitsCpu, h.reported, fun x hx => ?_⟩
  rcases List.mem_append.1 hx with hx | hx
  · exact h.queue x hx
  · exact hop x (List.mem_singleton.1 hx).symm

theorem report : Counted { s with
    reported := s.reported ++ [s.guardHitsCpu], guardReported := s.guardHitsCpu } := by
  refine ⟨h.int32, h.guardHits, h.guardHitsCpu, fun n hn => ?_, h.queue⟩
  rcases List.mem_append.1 hn with hn | hn
  · exact h.reported n hn
  · exact (List.mem_singleton.1 hn).le.trans h.guardHitsCpu

theorem telemetry : s.telemetry.Counted := by
  have hrefresh : ∀ x, GpuOp.refresh = .launch x → x.CountedOnce := fun _ heq => by cases heq
  have hstep : Counted { s with guardStep := s.guardStep + 1 } :=
    ⟨h.int32, h.guardHits, h.guardHitsCpu, h.reported, h.queue⟩
  unfold GuardState.telemetry
  dsimp only
  split_ifs
  · exact hstep.report.enqueue hrefresh
  · exact hstep.enqueue hrefresh
  · exact hstep

theorem runFused {x : KernelLaunch} (hx : x.CountedOnce) : (s.runFused x).Counted := by
  have hlaunch : GuardState.Counted { s with queue := s.queue ++ [.launch x] } :=
    h.enqueue fun y heq => GpuOp.launch.inj heq ▸ hx
  unfold GuardState.runFused
  split_ifs
  · exact h
  · cases x.kernel with
    | postprocess => exact hlaunch
    | precopy => exact hlaunch.telemetry

theorem gpu {s' : GuardState} (hs' : s.gpu = some s') : s'.Counted := by
  have hqueue := h.queue
  unfold GuardState.gpu at hs'
  cases hq : s.queue with
  | nil => simp [hq] at hs'
  | cons op queue =>
    rw [hq] at hqueue hs'
    cases op with
    | launch x =>
      obtain rfl := Option.some.inj hs'
      have hle := Kernel.hits_le_skipped _ (hqueue x List.mem_cons_self)
      change x.hits ≤ x.skipped at hle
      have hguard := h.guardHits
      have hcpu := h.guardHitsCpu
      obtain ⟨hlow, hwrap⟩ := bmod_int32 (n := s.guardHits + x.hits) (by have := h.int32; omega)
      refine ⟨hlow, hwrap.trans ?_, ?_, fun n hn => ?_, fun y hy => hqueue y (.tail _ hy)⟩
      · push_cast
        omega
      · push_cast
        omega
      · have := h.reported n hn
        push_cast
        omega
    | refresh =>
      obtain rfl := Option.some.inj hs'
      exact ⟨h.int32, h.guardHits, h.guardHits, h.reported, fun y hy => hqueue y (.tail _ hy)⟩

end GuardState.Counted

/-- In a run of launches that count each copy once, no count is above the number of
    copies skipped so far. -/
theorem counted_of_reachable {s : GuardState}
    (hs : (guardSystem.restrict GuardAction.CountedOnce).Reachable s) : s.Counted := by
  refine hs.invariant ?_ ?_
  · rintro _ rfl
    exact ⟨by decide, by decide, by decide, fun _ h => (by cases h), fun _ h => (by cases h)⟩
  · rintro s a s' h ⟨ha, hstep⟩
    cases a with
    | initializeFromForwardContext =>
      obtain rfl := Option.some.inj hstep
      exact ⟨h.int32, h.guardHits, h.guardHitsCpu, h.reported, h.queue⟩
    | runFused x =>
      obtain rfl := Option.some.inj hstep
      exact h.runFused ha
    | gpu => exact h.gpu hstep

/-- A launch counts the copies that it skips if and only if each is counted once, and in
    a run of such launches no reported count is above the number of copies skipped. -/
theorem guardHits_iff (x : KernelLaunch) (htiles : 0 < x.launch.temporalTiles) {s : GuardState}
    (hs : (guardSystem.restrict GuardAction.CountedOnce).Reachable s) :
    (x.hits = x.skipped ↔ x.CountedOnce) ∧ ∀ n ∈ s.reported, n ≤ s.skipped :=
  ⟨Kernel.hits_eq_skipped_iff x.numStates htiles, (counted_of_reachable hs).reported⟩

/-- One request whose state is to be copied from column `1`, where no block of the pool
    is, to column `0`. -/
def outOfRangeSource : KernelLaunch where
  kernel := .precopy
    { mambaStateIdx := fun _ => 0
      srcCol := fun _ => 1
      tokenBias := fun _ => 0
      idxMapping := none
      numReqs := 1 }
  launch := Kernel.columnIds
  states _ := .threeTokens
  numStates := 1

/-- So many times the launch, each time done at once, and its report. -/
def launches (n : Nat) : List GuardAction :=
  .initializeFromForwardContext ::
    (List.replicate n [GuardAction.runFused outOfRangeSource, .gpu]).flatten

theorem countedOnce_outOfRangeSource : outOfRangeSource.CountedOnce :=
  (Kernel.hits_eq_skipped_iff 1 (show 0 < 2 by decide)).1 (by decide)

theorem countedOnce_of_mem_launches {n : Nat} {a : GuardAction} (ha : a ∈ launches n)
    (s : GuardState) : a.CountedOnce s := by
  rcases List.mem_cons.1 ha with rfl | ha
  · trivial
  · obtain ⟨l, hl, ha⟩ := List.mem_flatten.1 ha
    rw [List.eq_of_mem_replicate hl] at ha
    simp only [List.mem_cons, List.not_mem_nil, or_false] at ha
    rcases ha with rfl | rfl
    · exact countedOnce_outOfRangeSource
    · trivial

/-- The launch counts the one copy that it skips, and after 1024 of them the count of
    the first 512 has been reported. -/
theorem guardHits_iff_launches : outOfRangeSource.hits = outOfRangeSource.skipped ∧
    ∃ s, (guardSystem.restrict GuardAction.CountedOnce).Reachable s ∧ s.reported = [512] ∧
      ∀ n ∈ s.reported, n ≤ s.skipped := by
  obtain ⟨s, hs, hreported⟩ : ∃ s,
      (launches 512 ++ .gpu :: launches 512).foldlM GuardState.step .create = some s ∧
        s.reported = [512] :=
    Option.map_eq_some_iff.1 (by decide +kernel)
  have hobeys : ∀ a ∈ launches 512 ++ .gpu :: launches 512, ∀ t, a.CountedOnce t := by
    intro a ha t
    rw [List.mem_append, List.mem_cons] at ha
    rcases ha with ha | rfl | ha
    · exact countedOnce_of_mem_launches ha t
    · trivial
    · exact countedOnce_of_mem_launches ha t
  have hcreate : (guardSystem.restrict GuardAction.CountedOnce).Reachable .create := .init rfl
  have hreach := hcreate.replay hobeys hs
  obtain ⟨hiff, hle⟩ := guardHits_iff outOfRangeSource (by decide) hreach
  exact ⟨hiff.2 countedOnce_outOfRangeSource, s, hreach, hreported, hle⟩

/-- With a source of a temporal state that is out of range, all tiles count the one copy
    that is skipped. -/
theorem guardHits_temporal_not :
    let x : KernelLaunch :=
      { outOfRangeSource with
        launch := { Kernel.columnIds with temporalTiles := 16 }
        states := fun _ => { MambaState.threeTokens with convWidth := 0 } }
    ¬x.hits = x.skipped := by
  decide

end FlashNext.Mamba
