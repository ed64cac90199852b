import FlashNext.Mamba.BatchMemcpy
import FlashNext.Mamba.HostAgrees

/-!
# The host without the fused kernel

`preprocess_mamba` of `mamba_utils_guarded.py` where no fused kernel is at hand: it collects an
entry for each state of a request that is copied (`collect_mamba_copy_meta`), and then copies
them in one launch (`do_mamba_copy_block`). What the copy functions of the states return is a
parameter, with what they promise (`CopyMeta.Documented`).

* `preprocessScalar_eq`: the columns and the accepted tokens are those of the other path;
* `scalar_agrees`: in every run of the host, so is the memory that the model finds.
-/

namespace FlashNext.Mamba

open Python (Str)

/-- `MambaCopySpec`. -/
structure MambaCopySpec where
  startAddr : Int
  numElements : Nat

/-- What `collect_mamba_copy_meta` reads: the states of the layers of all groups. -/
structure CopyMeta where
  states : Nat → MambaState
  numStates : Nat
  /-- `state_copy_func(state, block_ids, src_block_idx, num_accepted_tokens)`. -/
  stateCopyFunc : Nat → (Int → Int) → Int → Int → MambaCopySpec
  /-- The `block_ids` of the requests, by group. -/
  blockIds : Str → Nat → Int → Int

namespace CopyMeta

variable (k : CopyMeta)

/-- The entry of a state. -/
def entry (reqId : Str) (srcBlockIdx destBlockIdx acceptTokenBias : Int) (t : Nat) : CopyEntry :=
  let blockIds := k.blockIds reqId (k.states t).groupIdx
  let copySpec := k.stateCopyFunc t blockIds srcBlockIdx (acceptTokenBias + 1)
  ⟨copySpec.startAddr, (k.states t).blockAddr (blockIds destBlockIdx),
    copySpec.numElements * (k.states t).elemSize⟩

/-- `collect_mamba_copy_meta`. -/
def collectMambaCopyMeta (reqId : Str) (srcBlockIdx destBlockIdx acceptTokenBias : Int) :
    List CopyEntry :=
  if srcBlockIdx = destBlockIdx ∧ acceptTokenBias = 0 then []
  else (List.range k.numStates).map (k.entry reqId srcBlockIdx destBlockIdx acceptTokenBias)

/-- What the copy functions of the states promise: the tokens of a conv state that are not
    shifted out of its window, the tokens first, and the block of a temporal state at the
    last accepted token. -/
structure Documented (k : CopyMeta) : Prop where
  conv : ∀ t < k.numStates, 0 < (k.states t).convWidth → ∀ ids col n, 1 ≤ n →
    (k.stateCopyFunc t ids col n).numElements =
      ((k.states t).convWidth - (n - 1)).toNat * (k.states t).innerSize ∧
    (n - 1 < (k.states t).convWidth → (k.stateCopyFunc t ids col n).startAddr =
      (k.states t).blockAddr (ids col) + (n - 1) * (k.states t).tokenBytes)
  temporal : ∀ t < k.numStates, (k.states t).convWidth = 0 → ∀ ids col n, 1 ≤ n →
    k.stateCopyFunc t ids col n =
      ⟨(k.states t).blockAddr (ids (col + n - 1)), (k.states t).innerSize⟩

/-- The bytes of an entry are the moves of the layout. -/
theorem Documented.moves_iff {k : CopyMeta} (hk : k.Documented) {t : Nat} (ht : t < k.numStates)
    {l : Launch} (hdim : l.convStateDimFirst = false) {c : Copy} (hbias : 0 ≤ c.tokenBias)
    {reqId : Str} {srcId destId : Int}
    (hsrc : srcId = k.blockIds reqId (k.states t).groupIdx
      (if 0 < (k.states t).convWidth then c.srcCol else c.srcCol + c.tokenBias))
    (hdest : destId = k.blockIds reqId (k.states t).groupIdx c.dstCol) {x : Int × Int} :
    (k.states t).Moves l c ((k.states t).blockAddr srcId) ((k.states t).blockAddr destId) x ↔
      ∃ j < (k.entry reqId c.srcCol c.dstCol c.tokenBias t).size,
        x = ((k.entry reqId c.srcCol c.dstCol c.tokenBias t).srcPtr + j,
          (k.entry reqId c.srcCol c.dstCol c.tokenBias t).dstPtr + j) := by
  subst hsrc hdest
  unfold MambaState.Moves
  split_ifs with hconv hlayout
  · exact absurd hlayout (by simp [hdim])
  · obtain ⟨hnum, hstart⟩ := hk.conv t ht hconv
      (k.blockIds reqId (k.states t).groupIdx) c.srcCol (c.tokenBias + 1) (by omega)
    rw [add_sub_cancel_right] at hnum hstart
    have hsize : (k.entry reqId c.srcCol c.dstCol c.tokenBias t).size =
        (k.states t).tokenBytes * (k.states t).numDstTokens c := by
      change _ * (k.states t).elemSize = _
      rw [hnum, Nat.mul_assoc, Nat.mul_comm]
      rfl
    rw [hsize, ← exists_byte_iff]
    refine exists_congr fun token => and_congr_right fun htoken => exists_congr fun j =>
      and_congr_right fun _ => ?_
    have hin : c.tokenBias < (k.states t).convWidth := by
      unfold MambaState.numDstTokens at htoken
      omega
    have hptr : (k.entry reqId c.srcCol c.dstCol c.tokenBias t).srcPtr = _ := hstart hin
    have hdst : (k.entry reqId c.srcCol c.dstCol c.tokenBias t).dstPtr =
      (k.states t).blockAddr (k.blockIds reqId (k.states t).groupIdx c.dstCol) := rfl
    rw [hptr, hdst]
    refine Eq.congr_right (Prod.ext ?_ ?_) <;> push_cast <;> ring
  · have hspec := hk.temporal t ht (by omega) (k.blockIds reqId (k.states t).groupIdx) c.srcCol
      (c.tokenBias + 1) (by omega)
    rw [← add_assoc, add_sub_cancel_right] at hspec
    simp only [entry, hspec]

/-- Copy functions that keep the promise. -/
def copyFuncOf (states : Nat → MambaState) (t : Nat) (blockIds : Int → Int) (col n : Int) :
    MambaCopySpec :=
  if 0 < (states t).convWidth then
    ⟨(states t).blockAddr (blockIds col) + (n - 1) * (states t).tokenBytes,
      ((states t).convWidth - (n - 1)).toNat * (states t).innerSize⟩
  else ⟨(states t).blockAddr (blockIds (col + n - 1)), (states t).innerSize⟩

theorem documented_copyFuncOf {k : CopyMeta} (hk : k.stateCopyFunc = copyFuncOf k.states) :
    k.Documented where
  conv t _ hconv ids col n _ := by
    rw [hk, copyFuncOf, if_pos hconv]
    exact ⟨rfl, fun _ => rfl⟩
  temporal t _ hconv ids col n _ := by rw [hk, copyFuncOf, if_neg (by omega)]

end CopyMeta

namespace HostArgs

variable (a : HostArgs) (k : CopyMeta)

/-- The loop of `preprocess_mamba` without the fused kernel, for a request and its accepted
    tokens. -/
def preprocessRequestScalar (mambaStateIdx : Str → Option Int) (reqId : Str) (numAccepted : Int) :
    Except HostErr ((Str → Option Int) × List CopyEntry × Int) := do
  let numComputed ← getKey a.requests reqId
  -- A new or resumed request has no entry.
  let prevStateIdx := (mambaStateIdx reqId).getD ((numComputed - 1) / a.blockSize)
  let numScheduled ← getKey a.out.numScheduledTokens reqId
  let numBlocks := ceilDiv (numComputed + numScheduled) a.blockSize + a.numSpeculativeBlocks
  let currStateIdx := numBlocks - 1 - a.numSpeculativeBlocks
  let mambaStateIdx := Function.update mambaStateIdx reqId (some currStateIdx)
  if prevStateIdx ≠ -1 ∧ prevStateIdx ≠ currStateIdx then
    let acceptTokenBias := numAccepted - 1
    .ok (mambaStateIdx,
      k.collectMambaCopyMeta reqId prevStateIdx currStateIdx acceptTokenBias, 1)
  else .ok (mambaStateIdx, [], numAccepted)

/-- The loop of `preprocess_mamba` without the fused kernel: the entries of the copies, and
    `num_accepted_tokens_cpu`. -/
def preprocessScalar : (Str → Option Int) → List (Str × Int) →
    Except HostErr ((Str → Option Int) × List CopyEntry × List Int)
  | mambaStateIdx, [] => .ok (mambaStateIdx, [], [])
  | mambaStateIdx, (reqId, numAccepted) :: reqs => do
    let (mambaStateIdx, entries, numAccepted) ←
      a.preprocessRequestScalar k mambaStateIdx reqId numAccepted
    let (mambaStateIdx, rest, accepted) ← preprocessScalar mambaStateIdx reqs
    .ok (mambaStateIdx, entries ++ rest, numAccepted :: accepted)

/-- `preprocess_mamba` without the fused kernel, up to `do_mamba_copy_block`. -/
def preprocessMambaScalar (mambaStateIdx : Str → Option Int) (reqs : List (Str × Int)) :
    Except HostErr ((Str → Option Int) × List CopyEntry × List Int) :=
  if a.enablePrefixCaching then
    a.preprocessScalar k (a.out.cleanupMambaStateIdx mambaStateIdx) reqs
  else .error .assertionError

/-- The entries for the rows of a request. -/
def rowEntries (k : CopyMeta) (reqId : Str) (row : PrecopyRow) : List CopyEntry :=
  if row.srcCol = -1 then []
  else k.collectMambaCopyMeta reqId row.srcCol row.stateIdx row.tokenBias

variable {a k} {d d' : Str → Option Int} {reqs : List (Str × Int)} {rows : List PrecopyRow}

theorem preprocessRequestScalar_eq {reqId : Str} {numAccepted : Int} {row : PrecopyRow}
    (h : a.preprocessRequest d reqId numAccepted = .ok (d', row)) :
    a.preprocessRequestScalar k d reqId numAccepted =
      .ok (d', rowEntries k reqId row, row.numAcceptedTokens) := by
  unfold preprocessRequest at h
  unfold preprocessRequestScalar
  cases hcomputed : getKey a.requests reqId with
  | error err =>
    rw [hcomputed] at h
    cases h
  | ok numComputed =>
    cases htokens : getKey a.out.numScheduledTokens reqId with
    | error err =>
      rw [hcomputed, htokens] at h
      cases h
    | ok numScheduled =>
      simp only [hcomputed, htokens, bind, Except.bind] at h ⊢
      split_ifs at h ⊢ with hcopy hneg
      · obtain ⟨rfl, rfl⟩ := Prod.mk.inj (Except.ok.inj h)
        rw [rowEntries, if_neg hcopy.1]
      · obtain ⟨rfl, rfl⟩ := Prod.mk.inj (Except.ok.inj h)
        rfl

/-- Where the path with the fused kernel returns, the other one does so with the same columns
    and accepted tokens, and has the entries for the copies of the rows. -/
theorem preprocessScalar_eq (h : a.preprocessRows d reqs = .ok (d', rows)) :
    a.preprocessScalar k d reqs = .ok (d',
      (List.zipWith (fun x row => rowEntries k x.1 row) reqs rows).flatten,
      rows.map (·.numAcceptedTokens)) := by
  induction reqs generalizing d rows with
  | nil =>
    obtain ⟨rfl, rfl⟩ := Prod.mk.inj (Except.ok.inj h)
    rfl
  | cons x reqs ih =>
    obtain ⟨reqId, numAccepted⟩ := x
    unfold preprocessRows at h
    cases hone : a.preprocessRequest d reqId numAccepted with
    | error err =>
      rw [hone] at h
      cases h
    | ok p =>
      obtain ⟨d₁, row⟩ := p
      cases hrest : a.preprocessRows d₁ reqs with
      | error err =>
        simp only [hone, hrest, bind, Except.bind] at h
        cases h
      | ok q =>
        obtain ⟨d₂, rest⟩ := q
        simp only [hone, hrest, bind, Except.bind] at h
        obtain ⟨rfl, rfl⟩ := Prod.mk.inj (Except.ok.inj h)
        simp only [preprocessScalar, preprocessRequestScalar_eq hone, ih hrest, bind, Except.bind]
        rfl

end HostArgs

namespace AlignConfig

variable {cfg : AlignConfig} {V : Type*} {h h' : HostRun V} {b : HostBatch} {sched : HostSchedule V}

/-- What `collect_mamba_copy_meta` reads in a step. -/
def copyMeta (cfg : AlignConfig) (h : HostRun V)
    (stateCopyFunc : Nat → (Int → Int) → Int → Int → MambaCopySpec) : CopyMeta where
  states := cfg.states
  numStates := cfg.numStates
  stateCopyFunc := stateCopyFunc
  blockIds := h.table

section Ran

variable {s : AlignRun V} {r : Nat} (hcfg : cfg.Sound) (hinv : cfg.Invariant s)

include hcfg hinv in
/-- The running state of a request is copied to another block, if it is a conv state. -/
theorem precopy_srcId_ne {b : AlignBatch} {sched : AlignSchedule V} (hran : cfg.Ran s b sched)
    (hr : r < b.numReqs) {t : Nat} (ht : t < cfg.numStates) {c : Copy}
    (hcopy : (cfg.precopy s b sched).copy r = some c) (hconv : 0 < (cfg.states t).convWidth) :
    (cfg.states t).srcId (cfg.launch b) c ≠ (cfg.states t).destId (cfg.launch b) c := by
  have hproper := precopy_proper hcfg hinv hran
  rw [hproper.srcId_eq hran.served hr ht hcopy, hproper.destId_eq hran.served hr ht hcopy, stateId,
    if_pos hconv]
  intro heq
  have hdst := hproper.dst r hr c hcopy
  rw [precopy_copy hcfg hinv hran.served hran.order hr] at hcopy
  split_ifs at hcopy with hskip
  obtain rfl := Option.some.inj hcopy
  have hcol := not_or.1 hskip
  have hrun : s.Running (b.idxMapping r) (s.stateIdx (b.idxMapping r)) :=
    ⟨not_lt.1 hcol.1, .inl rfl⟩
  exact hcol.2 (hran.served.apart r hr _ hdst _ (hran.served.live r hr) _ (.inl (.inr hrun)) t ht
    heq).2

variable (hv : cfg.Views h s) (hran : cfg.HostRan h b sched)
  {stateCopyFunc : Nat → (Int → Int) → Int → Int → MambaCopySpec}

include hcfg hinv hv hran in
/-- The entries of a request are those for its copy. -/
theorem mem_rowEntries_iff (hr : r < b.reqIds.length) {row : PrecopyRow}
    (hrow : sched.rows[r]? = some row) {e : CopyEntry} :
    e ∈ HostArgs.rowEntries (cfg.copyMeta h stateCopyFunc) (b.reqId r) row ↔
      ∃ c, (cfg.precopy s b.align (sched.align cfg s b)).copy r = some c ∧
        ∃ t < cfg.numStates,
          e = (cfg.copyMeta h stateCopyFunc).entry (b.reqId r) c.srcCol c.dstCol c.tokenBias t := by
  have hserved := served_align hcfg hinv hv hran.served
  have hprepared := (host_prepared hinv hv hran).2.2 r hr
  have hlow := hv.le_column _ (hran.served.live _ (HostBatch.reqId_mem hr))
  have hslot : b.align.idxMapping r = slot (b.reqId r) := rfl
  rw [precopy_copy hcfg hinv hserved (.refl _) hr, curr_align hcfg hinv hv hran.served hr, hslot,
    hv.accepted]
  rw [hrow] at hprepared
  by_cases hskip : s.stateIdx (slot (b.reqId r)) < 0 ∨ s.stateIdx (slot (b.reqId r)) =
      (cfg.hostArgs b).currCol (b.reqId r)
  · rw [if_neg (by omega)] at hprepared
    obtain rfl := Option.some.inj hprepared
    simp [HostArgs.rowEntries, hskip]
  · have hcol : ¬s.stateIdx (slot (b.reqId r)) = -1 := by omega
    have hne : ¬(s.stateIdx (slot (b.reqId r)) = (cfg.hostArgs b).currCol (b.reqId r) ∧
        h.numAccepted (b.reqId r) - 1 = 0) := fun h => hskip (.inr h.1)
    rw [if_pos (by omega)] at hprepared
    obtain rfl := Option.some.inj hprepared
    simp only [HostArgs.rowEntries, if_neg hcol, CopyMeta.collectMambaCopyMeta, if_neg hne,
      List.mem_map, List.mem_range, if_neg hskip]
    constructor
    · rintro ⟨t, ht, rfl⟩
      exact ⟨_, rfl, t, ht, rfl⟩
    · rintro ⟨c, hc, t, ht, rfl⟩
      obtain rfl := Option.some.inj hc
      exact ⟨t, ht, rfl⟩

include hcfg hinv hv hran in
/-- The entries of the batch are those for the copies of its requests. -/
theorem mem_entries_iff {e : CopyEntry} :
    e ∈ (List.zipWith (fun x row => HostArgs.rowEntries (cfg.copyMeta h stateCopyFunc) x.1 row)
        (h.reqs b) sched.rows).flatten ↔
      ∃ r < b.reqIds.length, ∃ c,
        (cfg.precopy s b.align (sched.align cfg s b)).copy r = some c ∧ ∃ t < cfg.numStates,
          e = (cfg.copyMeta h stateCopyFunc).entry (b.reqId r) c.srcCol c.dstCol c.tokenBias t := by
  have hreqs : ∀ r < b.reqIds.length,
      (h.reqs b)[r]? = some (b.reqId r, h.numAccepted (b.reqId r)) := by
    intro r hr
    rw [HostRun.reqs, List.getElem?_map, List.getElem?_eq_getElem hr, ← HostBatch.reqId_eq hr,
      Option.map_some]
  have hlen : (h.reqs b).length = b.reqIds.length := List.length_map _
  rw [List.mem_flatten]
  constructor
  · rintro ⟨es, hes, he⟩
    obtain ⟨r, hget⟩ := List.mem_iff_getElem?.1 hes
    obtain ⟨x, row, hx, hrow, rfl⟩ := List.getElem?_zipWith_eq_some.1 hget
    have hr : r < b.reqIds.length := hlen ▸ (List.getElem?_eq_some_iff.1 hx).1
    obtain rfl := Option.some.inj (hx.symm.trans (hreqs r hr))
    exact ⟨r, hr, (mem_rowEntries_iff hcfg hinv hv hran hr hrow).1 he⟩
  · rintro ⟨r, hr, he⟩
    have hrow := (host_prepared hinv hv hran).2.2 r hr
    have he := (mem_rowEntries_iff hcfg hinv hv hran hr hrow).2 he
    exact ⟨_, List.mem_iff_getElem?.2
      ⟨r, List.getElem?_zipWith_eq_some.2 ⟨_, _, hreqs r hr, hrow, rfl⟩⟩, he⟩

end Ran

/-- In every run of the host, a step may go without the fused kernel: `preprocess_mamba` then
    leaves the same columns and accepted tokens, and the copies of its entries leave the same
    memory, whatever the order of their lanes. -/
theorem scalar_agrees (hcfg : cfg.Sound) (hdim : cfg.layout.convStateDimFirst = false)
    {stateCopyFunc : Nat → (Int → Int) → Int → Int → MambaCopySpec}
    (hdoc : (cfg.copyMeta h stateCopyFunc).Documented)
    (hocc : cfg.hostSystem.Occurs h (.batch b sched) h') :
    ∃ entries, (cfg.hostArgs b).preprocessMambaScalar (cfg.copyMeta h stateCopyFunc)
        h.mambaStateIdx (h.reqs b) =
        .ok (sched.mambaStateIdx, entries, sched.rows.map (·.numAcceptedTokens)) ∧
      ∀ prog, Interleaving (doMambaCopyBlock entries) prog →
        runCopies h.memory prog = runCopies h.memory sched.precopy := by
  obtain ⟨hreach, hran, rfl⟩ := hocc
  obtain ⟨s, hs, hv⟩ := views_of_reachable hcfg hreach
  have hinv := invariant_of_reachable hcfg hs
  have hran' := ran_align hcfg hinv hv hran
  have hproper := precopy_proper hcfg hinv hran'
  have hsep := hproper.separate hran'.served hcfg
  have hids : Kernel.AllInRange (cfg.precopy s b.align (sched.align cfg s b))
      (cfg.launch b.align) cfg.states cfg.numStates := fun r hr t ht c hcopy =>
    hproper.idsInRange hran'.served hr ht hcopy
  have hrows : (cfg.hostArgs b).preprocessRows (b.out.cleanupMambaStateIdx h.mambaStateIdx)
    (h.reqs b) = .ok (sched.mambaStateIdx, sched.rows) := hran.prepared
  refine ⟨_, HostArgs.preprocessScalar_eq hrows, fun prog hprog => ?_⟩
  have hsettled := hsep.settled hids fun r hr t ht c hcopy hconv =>
    precopy_srcId_ne hcfg hinv hran' hr ht hcopy hconv
  have hmoves : ∀ x, (∃ v ∈ prog, x ∈ v) ↔ ∃ v ∈ ((cfg.precopy s b.align
      (sched.align cfg s b)).groups (cfg.launch b.align) cfg.states cfg.numStates).flatten.flatten,
      x ∈ v := by
    intro x
    have hmove : ∀ r < b.reqIds.length, ∀ t < cfg.numStates, ∀ c,
        (cfg.precopy s b.align (sched.align cfg s b)).copy r = some c → (_ ↔ _) :=
      fun r hr t ht c hcopy => hdoc.moves_iff ht hdim (hproper.bias r hr c hcopy).1
        ((hproper.srcId_eq hran'.served hr ht hcopy).trans
          (congrFun (congrFun (hv.table (b.reqId r)) _) _))
        ((hproper.destId_eq hran'.served hr ht hcopy).trans
          (congrFun (congrFun (hv.table (b.reqId r)) _) _)) (x := x)
    have hperm : (∃ v ∈ prog, x ∈ v) ↔ _ :=
      (exists_congr fun v => and_congr_left fun _ => hprog.perm.mem_iff).trans
        mem_doMambaCopyBlock_iff
    rw [hperm, hsep.exists_move_iff hids]
    constructor
    · rintro ⟨e, he, hx⟩
      obtain ⟨r, hr, c, hcopy, t, ht, rfl⟩ := (mem_entries_iff hcfg hinv hv hran).1 he
      exact ⟨r, hr, t, ht, c, hcopy, (hmove r hr t ht c hcopy).2 hx⟩
    · rintro ⟨r, hr, t, ht, c, hcopy, hx⟩
      exact ⟨_, (mem_entries_iff hcfg hinv hv hran).2 ⟨r, hr, c, hcopy, t, ht, rfl⟩,
        (hmove r hr t ht c hcopy).1 hx⟩
  exact (runCopies_of_settled h.memory (hsep.oneSource hids) hsettled hmoves).unique
    (runCopies_of_settled h.memory (hsep.oneSource hids) hsettled fun x =>
      exists_congr fun v => and_congr_left fun _ => hran'.precopy.perm.mem_iff)

/-- The state of the third token is copied to the second block. -/
theorem scalar_agrees_thirdToken : ∃ entries,
    (oneByte.hostArgs (hostTokens 2 1 [])).preprocessMambaScalar
      (oneByte.copyMeta hostAfterFirst (CopyMeta.copyFuncOf oneByte.states))
      hostAfterFirst.mambaStateIdx (hostAfterFirst.reqs (hostTokens 2 1 [])) =
        .ok (hostSecond.mambaStateIdx, entries, [1]) ∧
    ∀ prog, Interleaving (doMambaCopyBlock entries) prog →
      runCopies hostAfterFirst.memory prog 1 = 2 := by
  have hdoc : (oneByte.copyMeta hostAfterFirst (CopyMeta.copyFuncOf oneByte.states)).Documented :=
    CopyMeta.documented_copyFuncOf rfl
  obtain ⟨entries, hentries, hcopies⟩ := scalar_agrees sound_oneByte rfl hdoc
    (b := hostTokens 2 1 []) ⟨reachable_hostAfterFirst, hostRan_second, rfl⟩
  exact ⟨entries, hentries, fun prog hprog => (congrFun (hcopies prog hprog) 1).trans rfl⟩

end AlignConfig

end FlashNext.Mamba
