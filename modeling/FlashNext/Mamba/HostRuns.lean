import Mathlib.Logic.Equiv.List
import FlashNext.Mamba.AlignRuns
import FlashNext.Mamba.Host

/-!
# Runs of the host

The Mamba states of the requests across the steps of the first model runner
(`preprocess_mamba`, `stage_postprocess_inputs_to_gpu` and `postprocess_mamba_align_gpu` of
`mamba_utils_guarded.py`). The columns of the running states are in a dict of the host, from
which the entries of requests that have ended are dropped when the next batch is prepared;
the kernels read rows in the order of the batch, and compute the tokens behind the model
themselves.

The model and the engine are those of the runs with aligned states (`AlignConfig`), with ids
of requests in place of slots.
-/

namespace FlashNext.Mamba

open Python (Str)

/-- What a step is given. -/
structure HostBatch where
  out : SchedulerOutput
  reqIds : List Str
  /-- The `num_computed_tokens` of the requests that the runner knows. -/
  requests : Str → Option Int
  /-- How many tokens of a request are accepted. -/
  accepted : Str → Int
  blockTable : Nat → Int → Int

/-- The requests between two steps. -/
structure HostRun (V : Type*) where
  memory : Int → V
  mambaStateIdx : Str → Option Int
  /-- `num_accepted_tokens_cpu`, whose rows move with the requests. -/
  numAccepted : Str → Int
  numComputed : Str → Int
  table : Str → Nat → Int → Int
  live : Str → Prop
  /-- Admitted, and in no batch since. -/
  fresh : Str → Prop
  saved : Str → Int → Prop
  ideal : Str → Nat → Int → Int → V

/-- What the host leaves for the kernels of a step, the orders of their programs, and the
    memory behind the model. -/
structure HostSchedule (V : Type*) where
  mambaStateIdx : Str → Option Int
  rows : List PrecopyRow
  staged : List PostprocessRow
  precopy : List (List (Int × Int))
  forward : Int → V
  postprocess : List (List (Int × Int))

namespace HostBatch

variable (b : HostBatch)

/-- The request of a row. -/
def reqId (r : Nat) : Str := b.reqIds.getD r []

/-- The tokens of a request in the step. -/
def scheduled (id : Str) : Int := (b.out.numScheduledTokens id).getD 0

/-- Its drafts. -/
def drafts (id : Str) : Int := ((b.out.scheduledSpecDecodeTokens id).getD []).length

end HostBatch

namespace HostRun

variable {V : Type*} (h : HostRun V) (b : HostBatch) (id : Str)

/-- The tokens of a request behind the step, but for the drafts. -/
def first : Int := h.numComputed id + b.scheduled id - b.drafts id

/-- The tokens of a request behind the step: the accepted ones. -/
def newComputed : Int := h.first b id + b.accepted id - 1

/-- The requests of a batch, with their accepted tokens. -/
def reqs : List (Str × Int) := b.reqIds.map fun id => (id, h.numAccepted id)

end HostRun

namespace AlignConfig

variable (cfg : AlignConfig) {V : Type*} (h : HostRun V) (b : HostBatch) (sched : HostSchedule V)

/-- The column of the running state of a request: its entry, but for one that is new. -/
def HostColumn (id : Str) (w : Int) : Prop :=
  (h.fresh id ∧ w = (h.numComputed id - 1) / cfg.blockSize) ∨
    (¬h.fresh id ∧ h.mambaStateIdx id = some w)

/-- A column that has the running state, of one kind or the other. -/
def HostRunning (id : Str) (w : Int) : Prop :=
  ∃ c, cfg.HostColumn h id c ∧ 0 ≤ c ∧ (w = c ∨ w = c + (h.numAccepted id - 1))

/-- A column in use. -/
def HostInUse (id : Str) (w : Int) : Prop := h.saved id w ∨ cfg.HostRunning h id w

/-- What the host has when it prepares a batch. -/
def hostArgs : HostArgs where
  out := b.out
  enablePrefixCaching := true
  blockSize := cfg.blockSize
  numSpeculativeBlocks := cfg.numSpec
  requests := b.requests

/-- The launches of a step. -/
def hostLaunch : Launch := { cfg.layout with blockTable := b.blockTable }

/-- The kernel before the model. -/
def hostPrecopy : Kernel := .precopy (hostPrecopyArgs sched.rows)

/-- The arguments of the kernel behind the model. -/
def hostPostprocess : PostprocessArgs :=
  hostPostprocessArgs sched.staged (fun r => b.accepted (b.reqId r)) cfg.blockSize

/-- `num_accepted_tokens_out`. -/
def numAcceptedTokensOut (r : Nat) : Int :=
  if (r : Int) ∈ (Kernel.postprocess (cfg.hostPostprocess b sched)).acceptedSlots
    (cfg.hostLaunch b) cfg.states cfg.numStates then 1 else b.accepted (b.reqId r)

/-- The columns that a request may write in the step: that of the step and those of its
    drafts, and that of the last full block, if the step has reached its end. -/
def HostWritable (id : Str) (w : Int) : Prop :=
  ((cfg.hostArgs b).currCol id ≤ w ∧ w ≤ (cfg.hostArgs b).currCol id + b.drafts id) ∨
    (w = h.newComputed b id / cfg.blockSize - 1 ∧ h.first b id ≤ (w + 1) * cfg.blockSize)

/-- The columns that a request may read or write in the step. -/
def HostReached (id : Str) (w : Int) : Prop := cfg.HostWritable h b id w ∨ cfg.HostRunning h id w

/-- What a step is promised, as in `Served`; and when a request is in its first batch, an
    entry of an ended one with its id is dropped, while no other entry of a live one is. -/
structure HostServed (cfg : AlignConfig) (h : HostRun V) (b : HostBatch) : Prop where
  live : ∀ id ∈ b.reqIds, h.live id
  own : b.reqIds.Nodup
  requests : ∀ id ∈ b.reqIds, b.requests id = some (h.numComputed id)
  tokens : ∀ id ∈ b.reqIds, b.out.numScheduledTokens id = some (b.scheduled id)
  drafts : ∀ id ∈ b.reqIds, b.drafts id < b.scheduled id ∧ b.drafts id ≤ cfg.numSpec
  accepted : ∀ id ∈ b.reqIds, 1 ≤ b.accepted id ∧ b.accepted id ≤ b.drafts id + 1
  ended : ∀ id ∈ b.out.ended, h.live id → h.fresh id
  cleaned : ∀ id ∈ b.reqIds, h.fresh id → h.mambaStateIdx id ≠ none → id ∈ b.out.ended
  table : ∀ r < b.reqIds.length, ∀ w, cfg.HostReached h b (b.reqId r) w → ∀ t < cfg.numStates,
    b.blockTable (cfg.states t).groupIdx (r * cfg.layout.blockTableStrideReq + w) =
      h.table (b.reqId r) (cfg.states t).groupIdx w
  ids : ∀ id ∈ b.reqIds, ∀ w, cfg.HostReached h b id w → ∀ t < cfg.numStates,
    (cfg.states t).InRange (h.table id (cfg.states t).groupIdx w)
  apart : ∀ id ∈ b.reqIds, ∀ w, cfg.HostWritable h b id w → ∀ id', h.live id' → ∀ w',
    (cfg.HostInUse h id' w' ∨ id' ∈ b.reqIds ∧ cfg.HostWritable h b id' w') →
    ∀ t < cfg.numStates,
      h.table id' (cfg.states t).groupIdx w' = h.table id (cfg.states t).groupIdx w →
        id' = id ∧ w' = w

/-- The model, which is given the column and the accepted tokens of the host. -/
structure HostForward (cfg : AlignConfig) (h : HostRun V) (b : HostBatch)
    (sched : HostSchedule V) : Prop where
  states : ∀ r < b.reqIds.length, ∀ t < cfg.numStates,
    (0 < h.numComputed (b.reqId r) → cfg.At (runCopies h.memory sched.precopy)
      (h.table (b.reqId r)) t (column sched.rows (·.stateIdx) r)
      (column sched.rows (·.numAcceptedTokens) r - 1)
      (h.ideal (b.reqId r) t (h.numComputed (b.reqId r)))) →
    ∀ o, 0 ≤ o → o ≤ b.drafts (b.reqId r) → cfg.At sched.forward (h.table (b.reqId r)) t
      (column sched.rows (·.stateIdx) r) o (h.ideal (b.reqId r) t (h.first b (b.reqId r) + o))
  frame : ∀ a, (∀ r < b.reqIds.length, ∀ t < cfg.numStates, ∀ o, 0 ≤ o →
    o ≤ b.drafts (b.reqId r) → ¬(cfg.states t).InBlock (cfg.stateId (h.table (b.reqId r)) t
      (column sched.rows (·.stateIdx) r) o) a) →
    sched.forward a = runCopies h.memory sched.precopy a

/-- A step that is served: the host prepares the batch and stages the rows for the kernel
    behind the model, and the programs of the kernels run in some order. -/
structure HostRan (cfg : AlignConfig) (h : HostRun V) (b : HostBatch) (sched : HostSchedule V) :
    Prop where
  served : cfg.HostServed h b
  prepared : (cfg.hostArgs b).preprocessMamba h.mambaStateIdx (h.reqs b) =
    .ok (sched.mambaStateIdx, sched.rows)
  staged : (cfg.hostArgs b).stagePostprocessInputsToGpu sched.mambaStateIdx b.reqIds =
    .ok sched.staged
  precopy : Interleaving ((hostPrecopy sched).groups (cfg.hostLaunch b) cfg.states
    cfg.numStates).flatten sched.precopy
  forward : cfg.HostForward h b sched
  postprocess : Interleaving ((Kernel.postprocess (cfg.hostPostprocess b sched)).groups
    (cfg.hostLaunch b) cfg.states cfg.numStates).flatten sched.postprocess

/-- The requests behind a step. -/
def hostAfter : HostRun V :=
  { h with
    memory := runCopies sched.forward sched.postprocess
    mambaStateIdx := sched.mambaStateIdx
    numAccepted := fun id =>
      if id ∈ b.reqIds then cfg.numAcceptedTokensOut b sched (b.reqIds.idxOf id)
      else h.numAccepted id
    numComputed := fun id => if id ∈ b.reqIds then h.newComputed b id else h.numComputed id
    fresh := fun id => h.fresh id ∧ id ∉ b.reqIds
    saved := fun id w => h.saved id w ∨ id ∈ b.reqIds ∧
      w = h.newComputed b id / cfg.blockSize - 1 ∧ h.first b id ≤ (w + 1) * cfg.blockSize }

/-- What happens. -/
inductive HostLabel (V : Type*)
  | batch (b : HostBatch) (sched : HostSchedule V)
  /-- A request is admitted, with saved columns of others up to a column. -/
  | join (id : Str) (col : Int) (shared : Int → Prop)
  /-- The engine takes tokens back, ends requests, frees blocks and uses the blocks of no
      request. -/
  | engine (freed : Str → Int → Prop)

/-- The steps. -/
def hostStep (h : HostRun V) : HostLabel V → HostRun V → Prop
  | .batch b sched, h' => cfg.HostRan h b sched ∧ h' = cfg.hostAfter h b sched
  | .join id col shared, h' =>
    ¬h.live id ∧ h'.live = (fun id' => h.live id' ∨ id' = id) ∧
      h'.fresh = (fun id' => h.fresh id' ∨ id' = id) ∧ h'.memory = h.memory ∧
      h'.mambaStateIdx = h.mambaStateIdx ∧
      (∀ id', id' ≠ id → h'.table id' = h.table id' ∧ h'.ideal id' = h.ideal id' ∧
        h'.numComputed id' = h.numComputed id' ∧ h'.saved id' = h.saved id' ∧
        h'.numAccepted id' = h.numAccepted id') ∧
      h'.numAccepted id = 1 ∧ 0 ≤ h'.numComputed id ∧
      h'.numComputed id = (col + 1) * cfg.blockSize ∧ h'.saved id = shared ∧
      (0 ≤ col → shared col) ∧
      ∀ w, shared w → w ≤ col ∧ ∃ id', h.live id' ∧ h.saved id' w ∧
        ∀ t < cfg.numStates, h'.table id (cfg.states t).groupIdx w =
          h.table id' (cfg.states t).groupIdx w ∧
          h'.ideal id t ((w + 1) * cfg.blockSize) = h.ideal id' t ((w + 1) * cfg.blockSize)
  | .engine freed, h' =>
    h'.mambaStateIdx = h.mambaStateIdx ∧ h'.numAccepted = h.numAccepted ∧
      h'.numComputed = h.numComputed ∧ h'.fresh = h.fresh ∧ (∀ id, h'.live id → h.live id) ∧
      (∀ id w, h'.saved id w ↔ h.saved id w ∧ ¬freed id w) ∧
      (∀ id, h.live id → ∀ t n, n ≤ h.numComputed id → h'.ideal id t n = h.ideal id t n) ∧
      ∀ id, h'.live id → ∀ w, cfg.HostInUse h' id w → ∀ t < cfg.numStates,
        h'.table id (cfg.states t).groupIdx w = h.table id (cfg.states t).groupIdx w ∧
        ∀ a, (cfg.states t).InBlock (h.table id (cfg.states t).groupIdx w) a →
          h'.memory a = h.memory a

/-- The runs: at the start, there are no requests. -/
def hostSystem : System (HostRun V) (HostLabel V) where
  init h := ∀ id, ¬h.live id
  step := cfg.hostStep

/-! ## The slots of the requests -/

end AlignConfig

/-- The slot that stands for a request. -/
def slot (id : Str) : Int := (Encodable.encode id : Nat)

theorem slot_injective : Function.Injective slot :=
  Nat.cast_injective.comp Encodable.encode_injective

theorem extend_slot {α : Type*} (f : Str → α) (g : Int → α) (id : Str) :
    Function.extend slot f g (slot id) = f id :=
  slot_injective.extend_apply f g id

/-- If one request has changed, so has its slot only. -/
theorem extend_slot_of_ne {α : Type*} {f f' : Str → α} {g : Int → α} {id : Str}
    (hsame : ∀ id', id' ≠ id → f' id' = f id') (hg : ∀ id, g (slot id) = f id) {q : Int}
    (hq : q ≠ slot id) : Function.extend slot f' g q = g q := by
  by_cases hslot : ∃ id', slot id' = q
  · obtain ⟨id', rfl⟩ := hslot
    rw [extend_slot, hg, hsame id' fun heq => hq (congrArg slot heq)]
  · exact Function.extend_apply' _ _ _ hslot

/-- The requests of the host, laid over those of some slots. -/
noncomputable def HostRun.over {V : Type*} (h : HostRun V) (s : AlignRun V)
    (arrays : AlignCell → Int) : AlignRun V where
  memory := h.memory
  arrays := arrays
  numComputed := Function.extend slot h.numComputed s.numComputed
  table := Function.extend slot h.table s.table
  live q := ∃ id, q = slot id ∧ h.live id
  saved := Function.extend slot h.saved s.saved
  ideal := Function.extend slot h.ideal s.ideal

/-- The batch of a step, by slots. -/
def HostBatch.align (b : HostBatch) : AlignBatch where
  numReqs := b.reqIds.length
  idxMapping r := slot (b.reqId r)
  queryStartLoc r := ((b.reqIds.take r).map b.scheduled).sum
  drafts r := b.drafts (b.reqId r)
  accepted r := b.accepted (b.reqId r)
  blockTable := b.blockTable

/-- The schedule of a step, by slots. -/
def HostSchedule.align {V : Type*} (sched : HostSchedule V) (cfg : AlignConfig) (s : AlignRun V)
    (b : HostBatch) : AlignSchedule V where
  order := (cfg.preprocessArgs s b.align).pids
  precopy := sched.precopy
  forward := sched.forward
  postprocess := sched.postprocess

namespace HostBatch

variable {b : HostBatch} {r : Nat} {id : Str}

theorem reqId_eq (hr : r < b.reqIds.length) : b.reqId r = b.reqIds[r] :=
  List.getD_eq_getElem _ _ hr

theorem reqId_mem (hr : r < b.reqIds.length) : b.reqId r ∈ b.reqIds :=
  reqId_eq hr ▸ List.getElem_mem hr

theorem exists_reqId (hid : id ∈ b.reqIds) : ∃ r < b.reqIds.length, b.reqId r = id := by
  obtain ⟨r, hr, rfl⟩ := List.mem_iff_getElem.1 hid
  exact ⟨r, hr, reqId_eq hr⟩

theorem reqId_inj (hnodup : b.reqIds.Nodup) {r' : Nat} (hr : r < b.reqIds.length)
    (hr' : r' < b.reqIds.length) (h : b.reqId r = b.reqId r') : r = r' := by
  rw [reqId_eq hr, reqId_eq hr'] at h
  exact (hnodup.getElem_inj_iff).1 h

theorem idxOf_reqId (hnodup : b.reqIds.Nodup) (hr : r < b.reqIds.length) :
    b.reqIds.idxOf (b.reqId r) = r := by
  rw [reqId_eq hr]
  exact hnodup.idxOf_getElem r hr

/-- A request that is not in the batch has no slot there. -/
theorem slot_ne (hid : id ∉ b.reqIds) : ¬∃ r < b.align.numReqs, slot id = b.align.idxMapping r := by
  rintro ⟨r, hr, heq⟩
  exact hid (slot_injective heq ▸ reqId_mem hr)

theorem len_align (hr : r < b.reqIds.length) : b.align.len r = b.scheduled (b.reqId r) := by
  rw [reqId_eq hr]
  simp only [AlignBatch.len, align, List.take_add_one, List.getElem?_eq_getElem hr,
    Option.toList_some, List.map_append, List.map_cons, List.map_nil, List.sum_append,
    List.sum_cons, List.sum_nil]
  omega

end HostBatch

namespace AlignConfig

/-- The requests of the host, by slots. -/
structure Views (cfg : AlignConfig) {V : Type*} (h : HostRun V) (s : AlignRun V) : Prop where
  memory : s.memory = h.memory
  live : ∀ q, s.live q ↔ ∃ id, q = slot id ∧ h.live id
  computed : ∀ id, s.numComputed (slot id) = h.numComputed id
  accepted : ∀ id, s.numAccepted (slot id) = h.numAccepted id
  table : ∀ id, s.table (slot id) = h.table id
  saved : ∀ id, s.saved (slot id) = h.saved id
  ideal : ∀ id, s.ideal (slot id) = h.ideal id
  column : ∀ id, h.live id → cfg.HostColumn h id (s.stateIdx (slot id))
  le_column : ∀ id, h.live id → -1 ≤ s.stateIdx (slot id)

variable {cfg : AlignConfig} {V : Type*} {h : HostRun V} {b : HostBatch} {sched : HostSchedule V}
  {s : AlignRun V} {id : Str} {w : Int} {r : Nat}

theorem HostColumn.unique {w' : Int} (hw : cfg.HostColumn h id w) (hw' : cfg.HostColumn h id w') :
    w = w' := by
  rcases hw with ⟨hfresh, rfl⟩ | ⟨hold, hw⟩ <;> rcases hw' with ⟨hfresh', rfl⟩ | ⟨hold', hw'⟩
  · rfl
  · exact absurd hfresh hold'
  · exact absurd hfresh' hold
  · exact Option.some.inj (hw.symm.trans hw')

/-- The columns of the running state are those of the slot. -/
theorem Views.running (hv : cfg.Views h s) (hlive : h.live id) :
    s.Running (slot id) w ↔ cfg.HostRunning h id w := by
  have hcol := hv.column id hlive
  rw [AlignRun.Running, hv.accepted]
  refine ⟨fun hrun => ⟨_, hcol, hrun⟩, fun ⟨c, hc, hrun⟩ => ?_⟩
  rwa [hc.unique hcol] at hrun

/-- The columns in use, too. -/
theorem Views.inUse (hv : cfg.Views h s) (hlive : h.live id) :
    s.InUse (slot id) w ↔ cfg.HostInUse h id w := by
  rw [AlignRun.InUse, HostInUse, hv.saved, hv.running hlive]

theorem Views.over {arrays : AlignCell → Int}
    (haccepted : ∀ id, arrays (.numAccepted (slot id)) = h.numAccepted id)
    (hcolumn : ∀ id, h.live id → cfg.HostColumn h id (arrays (.stateIdx (slot id))))
    (hlow : ∀ id, h.live id → -1 ≤ arrays (.stateIdx (slot id))) :
    cfg.Views h (h.over s arrays) where
  memory := rfl
  live _ := Iff.rfl
  computed := extend_slot _ _
  accepted := haccepted
  table := extend_slot _ _
  saved := extend_slot _ _
  ideal := extend_slot _ _
  column := hcolumn
  le_column := hlow

end AlignConfig

end FlashNext.Mamba
