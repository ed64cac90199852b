import FlashNext.Python.Value
import FlashNext.Returns
import FlashNext.Mamba.Kernels

/-!
# The host of the Mamba kernels

The host of the first model runner in `mamba_utils_guarded.py`: it keeps the columns of the
running states in a dict, by the ids of the requests, and writes what the fused kernels read
to rows in the order of the batch.

* `preprocessRows_spec`: what `preprocess_mamba` leaves in the dict and in the rows;
* `stageRows_spec`: what `stage_postprocess_inputs_to_gpu` leaves in its rows.
-/

namespace FlashNext.Mamba

open Python (Str)

/-- What the host reads of a `SchedulerOutput`. -/
structure SchedulerOutput where
  finishedReqIds : List Str
  preemptedReqIds : Option (List Str)
  /-- Those of `scheduled_cached_reqs`. -/
  resumedReqIds : List Str
  numScheduledTokens : Str → Option Int
  scheduledSpecDecodeTokens : Str → Option (List Int)

/-- What the host may raise. -/
inductive HostErr
  | keyError
  | assertionError
  deriving DecidableEq, Repr

/-- `d[key]`. -/
def getKey {α : Type*} (d : Str → Option α) (key : Str) : Except HostErr α :=
  (d key).elim (.error .keyError) .ok

/-- `cdiv`. -/
def ceilDiv (a b : Int) : Int := -(-a / b)

/-- `d.pop(key, None)` for some keys. -/
def popAll (d : Str → Option Int) (keys : List Str) : Str → Option Int :=
  keys.foldl (fun d key => Function.update d key none) d

namespace SchedulerOutput

/-- The ids whose entries are dropped. -/
def ended (out : SchedulerOutput) : List Str :=
  out.finishedReqIds ++ out.preemptedReqIds.getD [] ++ out.resumedReqIds

/-- `cleanup_mamba_state_idx`. -/
def cleanupMambaStateIdx (out : SchedulerOutput) (mambaStateIdx : Str → Option Int) :
    Str → Option Int :=
  popAll mambaStateIdx out.ended

end SchedulerOutput

/-- The rows of a request before the model: those of the buffers of `_FusedPrecopy`, and
    `num_accepted_tokens_cpu`. -/
structure PrecopyRow where
  stateIdx : Int
  srcCol : Int
  tokenBias : Int
  numAcceptedTokens : Int

/-- The rows of a request that the kernel behind the model reads. -/
structure PostprocessRow where
  stateIdx : Int
  scheduled : Int
  computed : Int
  draft : Int

/-- What the host has when it prepares a batch. -/
structure HostArgs where
  out : SchedulerOutput
  enablePrefixCaching : Bool
  blockSize : Int
  numSpeculativeBlocks : Int
  /-- The `num_computed_tokens` of the requests. -/
  requests : Str → Option Int

namespace HostArgs

variable (a : HostArgs)

/-- The loop of `preprocess_mamba`, for a request and its accepted tokens. -/
def preprocessRequest (mambaStateIdx : Str → Option Int) (reqId : Str) (numAccepted : Int) :
    Except HostErr ((Str → Option Int) × PrecopyRow) := do
  let numComputed ← getKey a.requests reqId
  -- A new or resumed request has no entry.
  let prevStateIdx := (mambaStateIdx reqId).getD ((numComputed - 1) / a.blockSize)
  let numScheduled ← getKey a.out.numScheduledTokens reqId
  let numBlocks := ceilDiv (numComputed + numScheduled) a.blockSize + a.numSpeculativeBlocks
  let currStateIdx := numBlocks - 1 - a.numSpeculativeBlocks
  let mambaStateIdx := Function.update mambaStateIdx reqId (some currStateIdx)
  if prevStateIdx ≠ -1 ∧ prevStateIdx ≠ currStateIdx then
    let acceptTokenBias := numAccepted - 1
    if acceptTokenBias < 0 then .error .assertionError
    else .ok (mambaStateIdx, ⟨currStateIdx, prevStateIdx, acceptTokenBias, 1⟩)
  else .ok (mambaStateIdx, ⟨currStateIdx, -1, 0, numAccepted⟩)

/-- The loop of `preprocess_mamba`. -/
def preprocessRows : (Str → Option Int) → List (Str × Int) →
    Except HostErr ((Str → Option Int) × List PrecopyRow)
  | mambaStateIdx, [] => .ok (mambaStateIdx, [])
  | mambaStateIdx, (reqId, numAccepted) :: reqs => do
    let (mambaStateIdx, row) ← a.preprocessRequest mambaStateIdx reqId numAccepted
    let (mambaStateIdx, rows) ← preprocessRows mambaStateIdx reqs
    .ok (mambaStateIdx, row :: rows)

/-- `preprocess_mamba` with the fused kernel, up to its launch. -/
def preprocessMamba (mambaStateIdx : Str → Option Int) (reqs : List (Str × Int)) :
    Except HostErr ((Str → Option Int) × List PrecopyRow) :=
  if a.enablePrefixCaching then
    a.preprocessRows (a.out.cleanupMambaStateIdx mambaStateIdx) reqs
  else .error .assertionError

/-- The loop of `stage_postprocess_inputs_to_gpu`, for a request. -/
def stageRow (mambaStateIdx : Str → Option Int) (reqId : Str) : Except HostErr PostprocessRow := do
  let stateIdx ← (mambaStateIdx reqId).elim (.error .assertionError) .ok
  let scheduled ← getKey a.out.numScheduledTokens reqId
  let computed ← getKey a.requests reqId
  .ok ⟨stateIdx, scheduled, computed,
    ((a.out.scheduledSpecDecodeTokens reqId).getD []).length⟩

/-- `stage_postprocess_inputs_to_gpu`. -/
def stagePostprocessInputsToGpu (mambaStateIdx : Str → Option Int) (reqIds : List Str) :
    Except HostErr (List PostprocessRow) :=
  reqIds.mapM (a.stageRow mambaStateIdx)

end HostArgs

/-- A buffer of the kernels, by its rows. -/
def column {α : Type*} (rows : List α) (f : α → Int) (i : Int) : Int :=
  (rows[i.toNat]?).elim 0 f

/-- The arguments of `run_fused_precopy` by the host. -/
def hostPrecopyArgs (rows : List PrecopyRow) : PrecopyArgs where
  mambaStateIdx := column rows (·.stateIdx)
  srcCol := column rows (·.srcCol)
  tokenBias := column rows (·.tokenBias)
  idxMapping := none
  numReqs := rows.length

/-- The arguments of `run_fused_postprocess`. -/
def hostPostprocessArgs (rows : List PostprocessRow) (numAcceptedTokens : Nat → Int)
    (blockSize : Int) : PostprocessArgs where
  numAcceptedTokens i := numAcceptedTokens i.toNat
  mambaStateIdx := column rows (·.stateIdx)
  numScheduledTokens := column rows (·.scheduled)
  numComputedTokens := column rows (·.computed)
  numDraftTokens := column rows (·.draft)
  idxMapping := none
  numReqs := rows.length
  blockSize := blockSize
  precomputedNewComputed := false

/-- The row of a request. -/
theorem column_eq {α : Type*} {rows : List α} {f : α → Int} {r : Nat} {row : α}
    (h : rows[r]? = some row) : column rows f r = f row := by
  rw [column, Int.toNat_natCast, h, Option.elim_some]

/-! ## What the loops leave -/

theorem ceilDiv_eq {a b : Int} (hb : 0 < b) : ceilDiv a b = (a + b - 1) / b := by
  have hle := Int.ediv_mul_le (a + b - 1) hb.ne'
  have hlt := Int.lt_ediv_add_one_mul_self (a + b - 1) hb
  have hquot : -a / b = -((a + b - 1) / b) := by
    refine ((Int.ediv_emod_unique (r := (a + b - 1) / b * b - a) hb).2 ⟨?_, ?_, ?_⟩).1 <;>
      linarith
  rw [ceilDiv, hquot, neg_neg]

theorem popAll_apply (d : Str → Option Int) (keys : List Str) (id : Str) :
    popAll d keys id = if id ∈ keys then none else d id := by
  induction keys generalizing d with
  | nil => rfl
  | cons key keys ih =>
    have hstep : popAll d (key :: keys) id = popAll (Function.update d key none) keys id := rfl
    rw [hstep, ih, Function.update_apply]
    by_cases hid : id = key <;> simp [hid]

namespace HostArgs

variable {a : HostArgs} {d : Str → Option Int} {reqs : List (Str × Int)} {reqIds : List Str}
  {id : Str}

/-- The computed tokens of a request that is known. -/
def computed (a : HostArgs) (id : Str) : Int := (a.requests id).getD 0

/-- The scheduled tokens of a request of the batch. -/
def scheduled (a : HostArgs) (id : Str) : Int := (a.out.numScheduledTokens id).getD 0

/-- The number of drafts of a request. -/
def drafts (a : HostArgs) (id : Str) : Nat := ((a.out.scheduledSpecDecodeTokens id).getD []).length

/-- The column of the last token of a request. -/
def currCol (a : HostArgs) (id : Str) : Int :=
  ceilDiv (a.computed id + a.scheduled id) a.blockSize - 1

/-- The column of the running state of a request. -/
def prevCol (a : HostArgs) (d : Str → Option Int) (id : Str) : Int :=
  (d id).getD ((a.computed id - 1) / a.blockSize)

/-- The rows of a request. -/
def precopyRow (a : HostArgs) (d : Str → Option Int) (x : Str × Int) : PrecopyRow :=
  if a.prevCol d x.1 ≠ -1 ∧ a.prevCol d x.1 ≠ a.currCol x.1 then
    ⟨a.currCol x.1, a.prevCol d x.1, x.2 - 1, 1⟩
  else ⟨a.currCol x.1, -1, 0, x.2⟩

/-- The request is known, and has tokens in the batch. -/
structure Knows (a : HostArgs) (id : Str) : Prop where
  request : a.requests id = some (a.computed id)
  tokens : a.out.numScheduledTokens id = some (a.scheduled id)

theorem precopyRow_congr {d' : Str → Option Int} {x : Str × Int} (h : d x.1 = d' x.1) :
    a.precopyRow d x = a.precopyRow d' x := by
  have hprev : a.prevCol d x.1 = a.prevCol d' x.1 := by rw [prevCol, h, prevCol]
  rw [precopyRow, hprev, precopyRow]

theorem preprocessRequest_eq (h : a.Knows id) {numAccepted : Int} (haccepted : 1 ≤ numAccepted) :
    a.preprocessRequest d id numAccepted =
      .ok (Function.update d id (some (a.currCol id)), a.precopyRow d (id, numAccepted)) := by
  have hcurr : ceilDiv (a.computed id + a.scheduled id) a.blockSize + a.numSpeculativeBlocks - 1 -
      a.numSpeculativeBlocks = a.currCol id := by
    unfold currCol
    ring
  have hprev : (d id).getD ((a.computed id - 1) / a.blockSize) = a.prevCol d id := rfl
  have hbias : ¬numAccepted - 1 < 0 := by omega
  simp only [preprocessRequest, getKey, h.request, h.tokens, Option.elim_some, bind, Except.bind,
    hcurr, hprev, if_neg hbias, precopyRow]
  split_ifs <;> rfl

/-- The host leaves every request of the batch with its new column, and the rows of its
    copy, if there is one. -/
theorem preprocessRows_spec (hnodup : (reqs.map (·.1)).Nodup) (hknows : ∀ x ∈ reqs, a.Knows x.1)
    (haccepted : ∀ x ∈ reqs, 1 ≤ x.2) :
    a.preprocessRows d reqs = .ok
      (fun id => if id ∈ reqs.map (·.1) then some (a.currCol id) else d id,
        reqs.map (a.precopyRow d)) := by
  induction reqs generalizing d with
  | nil => rfl
  | cons x reqs ih =>
    rw [List.forall_mem_cons] at hknows haccepted
    rw [List.map_cons, List.nodup_cons] at hnodup
    simp only [preprocessRows, preprocessRequest_eq hknows.1 haccepted.1, bind, Except.bind,
      ih hnodup.2 hknows.2 haccepted.2]
    have hrows : reqs.map (a.precopyRow (Function.update d x.1 (some (a.currCol x.1)))) =
        reqs.map (a.precopyRow d) := by
      refine List.map_congr_left fun y hy => precopyRow_congr (Function.update_of_ne ?_ _ _)
      exact fun h => hnodup.1 (h ▸ List.mem_map_of_mem hy)
    rw [hrows, List.map_cons]
    refine congrArg (fun d => Except.ok (d, _)) (funext fun id => ?_)
    simp only [List.mem_cons, Function.update_apply]
    by_cases hid : id = x.1
    · simp [hid]
    · simp only [hid, if_false, false_or]

/-- The rows for the kernel behind the model: every request of the batch has an entry. -/
theorem stageRows_spec (hknows : ∀ id ∈ reqIds, a.Knows id) {col : Str → Int}
    (hcol : ∀ id ∈ reqIds, d id = some (col id)) :
    a.stagePostprocessInputsToGpu d reqIds = .ok (reqIds.map fun id =>
      ⟨col id, a.scheduled id, a.computed id, a.drafts id⟩) := by
  refine (Returns.mapM (P := fun _ => True) fun id hid => ?_).eq_ok fun _ _ => trivial
  simp only [stageRow, getKey, hcol id hid, (hknows id hid).request, (hknows id hid).tokens,
    Option.elim_some, bind, Except.bind]
  exact .ok trivial

end HostArgs

end FlashNext.Mamba
