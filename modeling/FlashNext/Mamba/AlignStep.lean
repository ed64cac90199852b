import FlashNext.System
import FlashNext.Mamba.Align
import FlashNext.Mamba.Launch

/-!
# Aligned states

The Mamba states of the requests across the steps, with prefix caching: the running state
of a request is at a column of its block table, and every block that gets full keeps the
state of its end. A step prepares the columns (`preprocess_mamba_align_fused_kernel`), copies
the running states to them (`precopy_mamba_align_fused_kernel`), runs the model, and copies
the states at the ends of blocks that the accepted tokens have reached
(`run_fused_postprocess_align`).

The model is a parameter (`Forward`): from the state behind the tokens so far, at a column
and an offset, it leaves those behind the first tokens and behind every draft, from that
column on. Between two steps the engine admits and frees requests, takes tokens back that
were only drafted, and shares the blocks of a common prefix.

* `prepared_stateIdx` and `prepared_numAccepted`: the arrays for the model;
* `Proper`: a kernel whose copies keep to the columns of their requests. It brings a state
  to the front of its column (`Proper.window`), and leaves the others (`Proper.frame`).
-/

namespace FlashNext.Mamba

/-- The pools, the kernels and the blocks of the Mamba states. -/
structure AlignConfig where
  states : Nat → MambaState
  numStates : Nat
  /-- The launches, but for the block tables. -/
  layout : Launch
  /-- `BLOCK_SIZE` of the kernel that prepares the columns. -/
  lanes : Nat
  /-- The tokens of a block. -/
  blockSize : Int
  /-- How many drafts there may be in a step. -/
  numSpec : Nat

/-- What a step is given. -/
structure AlignBatch where
  numReqs : Nat
  idxMapping : Nat → Int
  queryStartLoc : Nat → Int
  drafts : Nat → Int
  /-- How many tokens are accepted: at least the first one, and some of the drafts. -/
  accepted : Nat → Int
  /-- The block tables of the requests of the batch. -/
  blockTable : Nat → Int → Int

/-- The requests between two steps. -/
structure AlignRun (V : Type*) where
  memory : Int → V
  arrays : AlignCell → Int
  numComputed : Int → Int
  /-- The blocks of a request, by group and column. -/
  table : Int → Nat → Int → Int
  live : Int → Prop
  /-- The columns that keep the state of the end of their block. -/
  saved : Int → Int → Prop
  /-- The window of a state behind some tokens of a request. -/
  ideal : Int → Nat → Int → Int → V

/-- The orders of the programs of a step, and the memory behind the model. -/
structure AlignSchedule (V : Type*) where
  order : List Nat
  precopy : List (List (Int × Int))
  forward : Int → V
  postprocess : List (List (Int × Int))

variable {V : Type*}

namespace AlignBatch

variable (b : AlignBatch) (s : AlignRun V) (r : Nat)

/-- The tokens of a request in the step. -/
def len : Int := b.queryStartLoc (r + 1) - b.queryStartLoc r

/-- The tokens of a request behind the step, but for the drafts. -/
def first : Int := s.numComputed (b.idxMapping r) + b.len r - b.drafts r

/-- The tokens of a request behind the step: the accepted ones. -/
def newComputed : Int := b.first s r + b.accepted r - 1

end AlignBatch

namespace AlignRun

variable (s : AlignRun V) (q : Int)

/-- The column of the running state. -/
def stateIdx : Int := s.arrays (.stateIdx q)

/-- The accepted tokens of the last step. -/
def numAccepted : Int := s.arrays (.numAccepted q)

/-- A column that has the running state, of one kind or the other. -/
def Running (w : Int) : Prop :=
  0 ≤ s.stateIdx q ∧ (w = s.stateIdx q ∨ w = s.stateIdx q + (s.numAccepted q - 1))

/-- A column in use. -/
def InUse (w : Int) : Prop := s.saved q w ∨ s.Running q w

end AlignRun

/-- The slots whose accepted tokens the programs of a launch set to `1`. -/
def Kernel.acceptedSlots (k : Kernel) (l : Launch) (states : Nat → MambaState) (numStates : Nat) :
    List Int :=
  (List.range k.numReqs).flatMap fun r => (List.range numStates).flatMap fun t =>
    (List.range l.temporalTiles).flatMap fun tile => (k.program l states true r t tile).accepted

/-- The slots of the requests whose state at the end of a block is in its column. -/
theorem PostprocessArgs.mem_acceptedSlots_iff {a : PostprocessArgs} {l : Launch}
    {states : Nat → MambaState} {numStates : Nat} {slot : Nat → Int} {q : Int}
    (hstates : 0 < numStates) (htiles : 0 < l.temporalTiles)
    (hslot : ∀ r < a.numReqs, reqIdx a.idxMapping r = some (slot r)) :
    q ∈ (Kernel.postprocess a).acceptedSlots l states numStates ↔
      ∃ r < a.numReqs, q = slot r ∧ a.numTokensRunningState (slot r) ≤
        a.alignedNewComputed (slot r) ∧ a.mambaStateIdx (slot r) = a.destBlockIdx (slot r) := by
  have hprogram : ∀ r < a.numReqs, ∀ t tile,
      ((Kernel.postprocess a).program l states true r t tile).accepted =
      if a.numTokensRunningState (slot r) ≤ a.alignedNewComputed (slot r) ∧
        a.mambaStateIdx (slot r) = a.destBlockIdx (slot r) ∧ t = 0 ∧ tile = 0
      then [slot r] else [] := by
    intro r hr t tile
    simp only [Kernel.program, postprocessMambaFusedKernel, if_neg (not_le.2 hr), hslot r hr]
    by_cases hskip : a.alignedNewComputed (slot r) < a.numTokensRunningState (slot r)
    · rw [if_pos hskip, if_neg fun h => absurd h.1 (not_le.2 hskip)]
      rfl
    · rw [if_neg hskip]
      simp only [not_lt.1 hskip, true_and]
      split_ifs <;> rfl
  simp only [Kernel.acceptedSlots, List.mem_flatMap, List.mem_range]
  constructor
  · rintro ⟨r, hr, t, -, tile, -, hq⟩
    rw [hprogram r hr] at hq
    split_ifs at hq with h
    · exact ⟨r, hr, List.mem_singleton.1 hq, h.1, h.2.1⟩
    · cases hq
  · rintro ⟨r, hr, rfl, hfull, hcol⟩
    refine ⟨r, hr, 0, hstates, 0, htiles, ?_⟩
    rw [hprogram r hr, if_pos ⟨hfull, hcol, rfl, rfl⟩]
    exact List.mem_singleton_self _

namespace AlignConfig

variable (cfg : AlignConfig)

/-- What the pools and the kernels promise. -/
structure Sound (cfg : AlignConfig) : Prop where
  blockSize : 0 < cfg.blockSize
  lanes : 0 < cfg.lanes
  block : 0 < cfg.layout.copyBlockSize
  tiles : 0 < cfg.layout.temporalTiles
  states : 0 < cfg.numStates
  fits : ∀ t < cfg.numStates, (cfg.states t).Fits cfg.layout
  rows : ∀ t < cfg.numStates, (cfg.states t).RowsApart cfg.layout
  pools : ∀ t < cfg.numStates, ∀ t' < cfg.numStates, t ≠ t' → ∀ a, (cfg.states t).InPool a →
    ¬(cfg.states t').InPool a
  /-- A conv state has room for the drafts. -/
  spec : ∀ t < cfg.numStates, 0 < (cfg.states t).convWidth → cfg.numSpec ≤ (cfg.states t).convWidth

/-- The block of a request that has the state at a column and an offset: a conv state is in
    the block of the column, and a temporal one so many columns further on. -/
def stateId (table : Nat → Int → Int) (t : Nat) (i off : Int) : Int :=
  table (cfg.states t).groupIdx (if 0 < (cfg.states t).convWidth then i else i + off)

/-- A request has the window `x` of a state at a column and an offset. -/
def At (m : Int → V) (table : Nat → Int → Int) (t : Nat) (i off : Int) (x : Int → V) : Prop :=
  (cfg.states t).Window cfg.layout ((cfg.states t).convWidth - cfg.numSpec) m
    (cfg.stateId table t i off) off x

/-- It does, and in a block of the pool. -/
def Has (m : Int → V) (table : Nat → Int → Int) (t : Nat) (i off : Int) (x : Int → V) : Prop :=
  (cfg.states t).InRange (cfg.stateId table t i off) ∧ cfg.At m table t i off x

/-! ## A step -/

section Step

variable (s : AlignRun V) (b : AlignBatch) (sched : AlignSchedule V)

/-- The launches of a step. -/
def launch : Launch := { cfg.layout with blockTable := b.blockTable }

/-- The arguments of the kernel that prepares the columns. -/
def preprocessArgs : PreprocessArgs where
  idxMapping := b.idxMapping
  numComputedTokens := s.numComputed
  queryStartLoc := b.queryStartLoc
  numReqs := b.numReqs
  blockSize := cfg.lanes
  mambaBlockSize := cfg.blockSize

/-- The column of a request in the step. -/
def curr (r : Nat) : Int := (cfg.preprocessArgs s b).newStateIdx r

/-- The arrays for the model. -/
def prepared : AlignCell → Int :=
  runPrograms (cfg.preprocessArgs s b).preprocessProgram sched.order s.arrays

/-- The kernel that copies the running states to their columns. -/
def precopy : Kernel := .precopy
  { mambaStateIdx := fun q => cfg.prepared s b sched (.stateIdx q)
    srcCol := fun q => cfg.prepared s b sched (.srcCol q)
    tokenBias := fun q => cfg.prepared s b sched (.srcOff q)
    idxMapping := some b.idxMapping
    numReqs := b.numReqs }

/-- The memory for the model. -/
def copied : Int → V := runCopies s.memory sched.precopy

/-- The accepted tokens behind the model. -/
def sampled : Int → Int :=
  scatter b.idxMapping b.accepted (List.range b.numReqs)
    fun q => cfg.prepared s b sched (.numAccepted q)

/-- The tokens so far, behind the model. -/
def computed : Int → Int :=
  scatter b.idxMapping (b.newComputed s) (List.range b.numReqs) s.numComputed

/-- The arguments of the kernel that saves the states at the ends of blocks. -/
def postprocessArgs : PostprocessArgs where
  numAcceptedTokens := cfg.sampled s b sched
  mambaStateIdx q := cfg.prepared s b sched (.stateIdx q)
  numScheduledTokens _ := 0
  numComputedTokens := computed s b
  numDraftTokens _ := 0
  idxMapping := some b.idxMapping
  numReqs := b.numReqs
  blockSize := cfg.blockSize
  precomputedNewComputed := true

/-- The column of the last full block of a request behind the step. -/
def lastFull (r : Nat) : Int := (b.newComputed s r) / cfg.blockSize - 1

/-- The arrays behind the step. -/
def finished : AlignCell → Int
  | .numAccepted q =>
    if q ∈ (Kernel.postprocess (cfg.postprocessArgs s b sched)).acceptedSlots (cfg.launch b)
      cfg.states cfg.numStates then 1 else cfg.sampled s b sched q
  | k => cfg.prepared s b sched k

/-- The columns that a request may write in the step: that of the step and those of its
    drafts, and that of the last full block, if the step has reached its end. -/
def Writable (r : Nat) (w : Int) : Prop :=
  (cfg.curr s b r ≤ w ∧ w ≤ cfg.curr s b r + b.drafts r) ∨
    (w = cfg.lastFull s b r ∧ b.first s r ≤ (w + 1) * cfg.blockSize)

/-- The columns that a request may read or write in the step. -/
def Reached (r : Nat) (w : Int) : Prop := cfg.Writable s b r w ∨ s.Running (b.idxMapping r) w

/-- What a step is promised: its requests have slots of their own, at least one token, and
    no more drafts than there is room for; the rows of the block tables are theirs, with
    blocks of the pools; and no block that a request may write is in another column. -/
structure Served (cfg : AlignConfig) (s : AlignRun V) (b : AlignBatch) : Prop where
  live : ∀ r < b.numReqs, s.live (b.idxMapping r)
  slots : ∀ r < b.numReqs, 0 ≤ b.idxMapping r
  own : ∀ r < b.numReqs, ∀ r' < b.numReqs, b.idxMapping r = b.idxMapping r' → r = r'
  drafts : ∀ r < b.numReqs, 0 ≤ b.drafts r ∧ b.drafts r < b.len r ∧ b.drafts r ≤ cfg.numSpec
  accepted : ∀ r < b.numReqs, 1 ≤ b.accepted r ∧ b.accepted r ≤ b.drafts r + 1
  table : ∀ r < b.numReqs, ∀ w, cfg.Reached s b r w → ∀ t < cfg.numStates,
    b.blockTable (cfg.states t).groupIdx (r * cfg.layout.blockTableStrideReq + w) =
      s.table (b.idxMapping r) (cfg.states t).groupIdx w
  ids : ∀ r < b.numReqs, ∀ w, cfg.Reached s b r w → ∀ t < cfg.numStates,
    (cfg.states t).InRange (s.table (b.idxMapping r) (cfg.states t).groupIdx w)
  apart : ∀ r < b.numReqs, ∀ w, cfg.Writable s b r w → ∀ q, s.live q → ∀ w',
    (s.InUse q w' ∨ ∃ r' < b.numReqs, b.idxMapping r' = q ∧ cfg.Writable s b r' w') →
    ∀ t < cfg.numStates,
      s.table q (cfg.states t).groupIdx w' =
        s.table (b.idxMapping r) (cfg.states t).groupIdx w → q = b.idxMapping r ∧ w' = w

/-- The model: if it finds the states behind the tokens so far, or there are none, it leaves
    the states behind the first tokens and behind each draft, and it writes there only. -/
structure Forward (cfg : AlignConfig) (s : AlignRun V) (b : AlignBatch) (sched : AlignSchedule V) :
    Prop where
  states : ∀ r < b.numReqs, ∀ t < cfg.numStates,
    (0 < s.numComputed (b.idxMapping r) → cfg.At (copied s sched) (s.table (b.idxMapping r)) t
      (cfg.prepared s b sched (.stateIdx (b.idxMapping r)))
      (cfg.prepared s b sched (.numAccepted (b.idxMapping r)) - 1)
      (s.ideal (b.idxMapping r) t (s.numComputed (b.idxMapping r)))) →
    ∀ o, 0 ≤ o → o ≤ b.drafts r → cfg.At sched.forward (s.table (b.idxMapping r)) t
      (cfg.prepared s b sched (.stateIdx (b.idxMapping r))) o
      (s.ideal (b.idxMapping r) t (b.first s r + o))
  frame : ∀ a, (∀ r < b.numReqs, ∀ t < cfg.numStates, ∀ o, 0 ≤ o → o ≤ b.drafts r →
    ¬(cfg.states t).InBlock (cfg.stateId (s.table (b.idxMapping r)) t
      (cfg.prepared s b sched (.stateIdx (b.idxMapping r))) o) a) →
    sched.forward a = copied s sched a

/-- A step that is served, with the programs of its kernels in some order, and with the model
    in between. -/
structure Ran (cfg : AlignConfig) (s : AlignRun V) (b : AlignBatch) (sched : AlignSchedule V) :
    Prop where
  served : cfg.Served s b
  order : sched.order.Perm (cfg.preprocessArgs s b).pids
  precopy : Interleaving
    ((cfg.precopy s b sched).groups (cfg.launch b) cfg.states cfg.numStates).flatten sched.precopy
  forward : cfg.Forward s b sched
  postprocess : Interleaving
    ((Kernel.postprocess (cfg.postprocessArgs s b sched)).groups (cfg.launch b) cfg.states
      cfg.numStates).flatten sched.postprocess

/-- The requests behind a step. -/
def afterBatch : AlignRun V :=
  { s with
    memory := runCopies sched.forward sched.postprocess
    arrays := cfg.finished s b sched
    numComputed := computed s b
    saved := fun q w => s.saved q w ∨ ∃ r < b.numReqs, q = b.idxMapping r ∧
      w = cfg.lastFull s b r ∧ b.first s r ≤ (w + 1) * cfg.blockSize }

end Step

/-- What happens. -/
inductive AlignLabel (V : Type*)
  | batch (b : AlignBatch) (sched : AlignSchedule V)
  /-- A request is admitted, with saved columns of others up to a column. -/
  | join (q col : Int) (shared : Int → Prop)
  /-- The engine takes tokens back, frees blocks and uses the blocks of no request. -/
  | engine (freed : Int → Int → Prop)

/-- The steps. -/
def alignStep (s : AlignRun V) : AlignLabel V → AlignRun V → Prop
  | .batch b sched, s' => cfg.Ran s b sched ∧ s' = cfg.afterBatch s b sched
  | .join q col shared, s' =>
    ¬s.live q ∧ s'.live = (fun q' => s.live q' ∨ q' = q) ∧ s'.memory = s.memory ∧
      (∀ q', q' ≠ q → s'.table q' = s.table q' ∧ s'.ideal q' = s.ideal q' ∧
        s'.numComputed q' = s.numComputed q' ∧ s'.saved q' = s.saved q' ∧
        s'.stateIdx q' = s.stateIdx q' ∧ s'.numAccepted q' = s.numAccepted q') ∧
      s'.stateIdx q = col ∧ s'.numAccepted q = 1 ∧ 0 ≤ s'.numComputed q ∧
      s'.numComputed q = (col + 1) * cfg.blockSize ∧ s'.saved q = shared ∧
      (0 ≤ col → shared col) ∧
      ∀ w, shared w → w ≤ col ∧ ∃ q', s.live q' ∧ s.saved q' w ∧
        ∀ t < cfg.numStates, s'.table q (cfg.states t).groupIdx w =
          s.table q' (cfg.states t).groupIdx w ∧
          s'.ideal q t ((w + 1) * cfg.blockSize) = s.ideal q' t ((w + 1) * cfg.blockSize)
  | .engine freed, s' =>
    s'.arrays = s.arrays ∧ s'.numComputed = s.numComputed ∧ (∀ q, s'.live q → s.live q) ∧
      (∀ q w, s'.saved q w ↔ s.saved q w ∧ ¬freed q w) ∧
      (∀ q, s.live q → ∀ t n, n ≤ s.numComputed q → s'.ideal q t n = s.ideal q t n) ∧
      ∀ q, s'.live q → ∀ w, s'.InUse q w → ∀ t < cfg.numStates,
        s'.table q (cfg.states t).groupIdx w = s.table q (cfg.states t).groupIdx w ∧
        ∀ a, (cfg.states t).InBlock (s.table q (cfg.states t).groupIdx w) a →
          s'.memory a = s.memory a

/-- The runs: at the start, there are no requests. -/
def alignSystem : System (AlignRun V) (AlignLabel V) where
  init s := ∀ q, ¬s.live q
  step := cfg.alignStep

/-! ## The columns of a step -/

variable {cfg} {s : AlignRun V} {b : AlignBatch} {sched : AlignSchedule V} {m m' : Int → V}
  {r t : Nat} {q i off w : Int} {x : Int → V}

section Columns

variable (hcfg : cfg.Sound) (hserved : cfg.Served s b) (hr : r < b.numReqs)
include hcfg hserved hr

/-- The column of a step is that of its last token. -/
theorem curr_spec (hcomputed : 0 ≤ s.numComputed (b.idxMapping r)) :
    cfg.curr s b r * cfg.blockSize < s.numComputed (b.idxMapping r) + b.len r ∧
      s.numComputed (b.idxMapping r) + b.len r ≤ (cfg.curr s b r + 1) * cfg.blockSize := by
  have hbs := hcfg.blockSize
  have hlen := hserved.drafts r hr
  have hcurr : cfg.curr s b r + 1 = (s.numComputed (b.idxMapping r) + b.len r + cfg.blockSize - 1) /
      cfg.blockSize := by
    rw [← Int.tdiv_eq_ediv_of_nonneg (by omega)]
    simp only [curr, PreprocessArgs.newStateIdx, preprocessArgs, AlignBatch.len]
    ring_nf
  have hle := Int.ediv_mul_le (s.numComputed (b.idxMapping r) + b.len r + cfg.blockSize - 1) hbs.ne'
  have hlt := Int.lt_ediv_add_one_mul_self
    (s.numComputed (b.idxMapping r) + b.len r + cfg.blockSize - 1) hbs
  rw [← hcurr] at hle hlt
  constructor <;> linarith

/-- None of them is that of a block that was full before. -/
theorem not_writable_of_full (hcomputed : 0 ≤ s.numComputed (b.idxMapping r))
    (hfull : (w + 1) * cfg.blockSize ≤ s.numComputed (b.idxMapping r)) :
    ¬cfg.Writable s b r w := by
  have hdrafts := hserved.drafts r hr
  rintro (⟨hlow, -⟩ | ⟨-, hreached⟩)
  · have hcurr := (curr_spec hcfg hserved hr hcomputed).2
    have hle : (cfg.curr s b r + 1) * cfg.blockSize ≤ (w + 1) * cfg.blockSize :=
      mul_le_mul_of_nonneg_right (by omega) hcfg.blockSize.le
    omega
  · unfold AlignBatch.first at hreached
    omega

end Columns

/-- The column of the step may be written. -/
theorem writable_curr (hserved : cfg.Served s b) (hr : r < b.numReqs) :
    cfg.Writable s b r (cfg.curr s b r) :=
  .inl ⟨le_rfl, le_add_of_nonneg_right (hserved.drafts r hr).1⟩

/-- So may those of the drafts. -/
theorem writable_draft {o : Int} (ho : 0 ≤ o) (hdrafts : o ≤ b.drafts r) :
    cfg.Writable s b r (cfg.curr s b r + o) :=
  .inl ⟨le_add_of_nonneg_right ho, by omega⟩

section Prepared

variable (hcfg : cfg.Sound) (hserved : cfg.Served s b)
  (horder : sched.order.Perm (cfg.preprocessArgs s b).pids)
include hcfg hserved horder

/-- The arrays of a request of the batch. -/
theorem prepared_eq (hr : r < b.numReqs) {k : AlignCell} (hk : k.slot = b.idxMapping r) :
    cfg.prepared s b sched k = (cfg.preprocessArgs s b).after s.arrays r k :=
  (PreprocessArgs.preprocess_spec (a := cfg.preprocessArgs s b) hserved.own hcfg.lanes horder
    s.arrays).1 r hr k hk

/-- Those of the others. -/
theorem prepared_of_ne {k : AlignCell} (hk : ∀ r < b.numReqs, k.slot ≠ b.idxMapping r) :
    cfg.prepared s b sched k = s.arrays k :=
  (PreprocessArgs.preprocess_spec (a := cfg.preprocessArgs s b) hserved.own hcfg.lanes horder
    s.arrays).2 k hk

theorem prepared_stateIdx (hr : r < b.numReqs) :
    cfg.prepared s b sched (.stateIdx (b.idxMapping r)) = cfg.curr s b r :=
  prepared_eq hcfg hserved horder hr rfl

theorem prepared_numAccepted (hr : r < b.numReqs) :
    cfg.prepared s b sched (.numAccepted (b.idxMapping r)) =
      if 0 ≤ s.stateIdx (b.idxMapping r) ∧ s.stateIdx (b.idxMapping r) ≠ cfg.curr s b r then 1
      else s.numAccepted (b.idxMapping r) := by
  rw [prepared_eq hcfg hserved horder hr rfl, PreprocessArgs.after, PreprocessArgs.shouldReset]
  simp only [decide_eq_true_eq]
  rfl

end Prepared

theorem scatter_slot (hserved : cfg.Served s b) (hr : r < b.numReqs) (f : Nat → Int)
    (m : Int → Int) : scatter b.idxMapping f (List.range b.numReqs) m (b.idxMapping r) = f r :=
  scatter_of_mem (List.mem_range.2 hr) fun r' hr' h =>
    hserved.own r' (List.mem_range.1 hr') r hr h

theorem scatter_slot_of_ne (hq : ∀ r < b.numReqs, q ≠ b.idxMapping r) (f : Nat → Int)
    (m : Int → Int) : scatter b.idxMapping f (List.range b.numReqs) m q = m q :=
  scatter_of_ne fun r hr h => hq r (List.mem_range.1 hr) h.symm

/-! ## The copies of a step -/

/-- The column of the source of a copy, of a state. -/
def sourceCol (cfg : AlignConfig) (c : Copy) (t : Nat) : Int :=
  if 0 < (cfg.states t).convWidth then c.srcCol else c.srcCol + c.tokenBias

/-- The copies of a kernel keep to the columns of their requests. -/
structure Proper (cfg : AlignConfig) (s : AlignRun V) (b : AlignBatch) (k : Kernel) : Prop where
  reqs : k.numReqs = b.numReqs
  row : ∀ r c, k.copy r = some c → c.btRowIdx = r
  dst : ∀ r < b.numReqs, ∀ c, k.copy r = some c → cfg.Writable s b r c.dstCol
  src : ∀ r < b.numReqs, ∀ c, k.copy r = some c → ∀ t, cfg.Reached s b r (cfg.sourceCol c t)
  bias : ∀ r < b.numReqs, ∀ c, k.copy r = some c → 0 ≤ c.tokenBias ∧ c.tokenBias ≤ cfg.numSpec

/-- There is room for a window at an offset. -/
theorem room (hcfg : cfg.Sound) (ht : t < cfg.numStates) (hoff : off ≤ cfg.numSpec) :
    0 < (cfg.states t).convWidth →
      ((cfg.states t).convWidth - cfg.numSpec : Nat) + off ≤ (cfg.states t).convWidth := by
  intro hconv
  have := hcfg.spec t ht hconv
  omega

section Proper

variable {k : Kernel} {c : Copy} (hserved : cfg.Served s b) (hk : cfg.Proper s b k)
include hserved hk

/-- The block ids of a copy are those of its request. -/
theorem Proper.destId_eq (hr : r < b.numReqs) (ht : t < cfg.numStates) (hcopy : k.copy r = some c) :
    (cfg.states t).destId (cfg.launch b) c =
      s.table (b.idxMapping r) (cfg.states t).groupIdx c.dstCol := by
  have := hserved.table r hr _ (.inl (hk.dst r hr c hcopy)) t ht
  rw [MambaState.destId, MambaState.blockId, hk.row r c hcopy]
  exact this

theorem Proper.srcId_eq (hr : r < b.numReqs) (ht : t < cfg.numStates) (hcopy : k.copy r = some c) :
    (cfg.states t).srcId (cfg.launch b) c =
      cfg.stateId (s.table (b.idxMapping r)) t c.srcCol c.tokenBias := by
  have hsrc := hserved.table r hr _ (hk.src r hr c hcopy t) t ht
  have hrow := hk.row r c hcopy
  unfold sourceCol at hsrc
  rw [MambaState.srcId, stateId]
  split_ifs at hsrc ⊢ with hconv
  · rw [MambaState.blockId, hrow]
    exact hsrc
  · rw [MambaState.blockId, hrow]
    exact hsrc

theorem Proper.idsInRange (hr : r < b.numReqs) (ht : t < cfg.numStates)
    (hcopy : k.copy r = some c) : (cfg.states t).IdsInRange (cfg.launch b) c := by
  refine ⟨?_, ?_⟩
  · rw [hk.destId_eq hserved hr ht hcopy]
    exact hserved.ids r hr _ (.inl (hk.dst r hr c hcopy)) t ht
  · rw [hk.srcId_eq hserved hr ht hcopy]
    exact hserved.ids r hr _ (hk.src r hr c hcopy t) t ht

variable (hcfg : cfg.Sound)
include hcfg

/-- No request writes what another one reads or writes. -/
theorem Proper.separate : k.Separate (cfg.launch b) cfg.states cfg.numStates where
  fits := hcfg.fits
  rows := hcfg.rows
  pools := hcfg.pools
  bias t ht r hr c hcopy hconv := by
    have := hk.bias r (hk.reqs ▸ hr) c hcopy
    have := hcfg.spec t ht hconv
    omega
  blocks t ht r hr r' hr' hne c c' hcopy hcopy' := by
    rw [hk.reqs] at hr hr'
    have hother : ∀ w', cfg.Reached s b r' w' →
        s.table (b.idxMapping r) (cfg.states t).groupIdx c.dstCol ≠
          s.table (b.idxMapping r') (cfg.states t).groupIdx w' := by
      intro w' hw' heq
      refine hne (hserved.own r hr r' hr' (Eq.symm ?_))
      refine (hserved.apart r hr _ (hk.dst r hr c hcopy) _ (hserved.live r' hr') w' ?_ t ht
        heq.symm).1
      rcases hw' with hw' | hw'
      · exact .inr ⟨r', hr', rfl, hw'⟩
      · exact .inl (.inr hw')
    rw [hk.destId_eq hserved hr ht hcopy, hk.destId_eq hserved hr' ht hcopy',
      hk.srcId_eq hserved hr' ht hcopy']
    exact ⟨hother _ (.inl (hk.dst r' hr' c' hcopy')), hother _ (hk.src r' hr' c' hcopy' t)⟩
  block := hcfg.block
  tiles := hcfg.tiles

variable {prog : List (List (Int × Int))}
  (hprog : Interleaving (k.groups (cfg.launch b) cfg.states cfg.numStates).flatten prog)
include hprog

/-- A copy brings a state to the front of its column. -/
theorem Proper.window (hr : r < b.numReqs) (ht : t < cfg.numStates) (hcopy : k.copy r = some c)
    (hx : cfg.At m (s.table (b.idxMapping r)) t c.srcCol c.tokenBias x) :
    cfg.At (runCopies m prog) (s.table (b.idxMapping r)) t c.dstCol 0 x := by
  have hids := hk.idsInRange hserved hr ht hcopy
  have hwindow := (hk.separate hserved hcfg).launch_window hprog m (hk.reqs ▸ hr) ht hcopy hids
    (room hcfg ht (hk.bias r hr c hcopy).2) (x := x)
  rw [hk.srcId_eq hserved hr ht hcopy, hk.destId_eq hserved hr ht hcopy] at hwindow
  have hcol : (if 0 < (cfg.states t).convWidth then c.dstCol else c.dstCol + 0) = c.dstCol := by
    simp
  rw [At, stateId, hcol]
  exact hwindow hx

/-- The states in other columns stay. -/
theorem Proper.frame (ht : t < cfg.numStates) (hoff : 0 ≤ off) (hspec : off ≤ cfg.numSpec)
    (hx : cfg.Has m (s.table q) t i off x)
    (hdest : ∀ r < b.numReqs, ∀ c, k.copy r = some c →
      s.table (b.idxMapping r) (cfg.states t).groupIdx c.dstCol ≠ cfg.stateId (s.table q) t i off) :
    cfg.Has (runCopies m prog) (s.table q) t i off x := by
  refine ⟨hx.1, (hk.separate hserved hcfg).launch_window_frame hprog m ht hx.1 hoff
    (room hcfg ht hspec) (fun r hr c hcopy => ?_) hx.2⟩
  rw [hk.reqs] at hr
  rw [hk.destId_eq hserved hr ht hcopy]
  exact hdest r hr c hcopy

/-- A state in a column in use, which no copy writes, stays. -/
theorem Proper.stays (ht : t < cfg.numStates) (hoff : 0 ≤ off) (hspec : off ≤ cfg.numSpec)
    (hlive : s.live q) (hx : cfg.Has m (s.table q) t i off x)
    (huse : s.InUse q (if 0 < (cfg.states t).convWidth then i else i + off) ∨
      ∃ r < b.numReqs, b.idxMapping r = q ∧
        cfg.Writable s b r (if 0 < (cfg.states t).convWidth then i else i + off))
    (hdst : ∀ r < b.numReqs, ∀ c, k.copy r = some c → q = b.idxMapping r →
      (if 0 < (cfg.states t).convWidth then i else i + off) ≠ c.dstCol) :
    cfg.Has (runCopies m prog) (s.table q) t i off x := by
  refine hk.frame hserved hcfg hprog ht hoff hspec hx fun r hr c hcopy heq => ?_
  obtain ⟨hq, hcol⟩ := hserved.apart r hr _ (hk.dst r hr c hcopy) q hlive _ huse t ht heq.symm
  exact hdst r hr c hcopy hq hcol

end Proper

end AlignConfig

end FlashNext.Mamba
