import FlashNext.Mamba.HostRuns

/-!
# A step of the host

A step of the first model runner is a step with aligned states by slots (`ran_align`), and
leaves what that one leaves (`Views.after`).

* `host_prepared` and `host_staged`: the rows that the host leaves for the kernels;
* `precopy_align` and `postprocess_align`: the copies are the same, though the kernels find
  them in other arrays.
-/

namespace FlashNext.Mamba

open Python (Str)

namespace AlignConfig

variable {cfg : AlignConfig} {V : Type*} {h : HostRun V} {b : HostBatch} {sched : HostSchedule V}
  {s : AlignRun V} {id : Str} {w : Int} {r : Nat}

/-! ## The batch -/

section Batch

variable (hcfg : cfg.Sound) (hinv : cfg.Invariant s) (hv : cfg.Views h s)
  (hserved : cfg.HostServed h b)

include hserved in
theorem HostServed.computed_eq (hid : id ∈ b.reqIds) :
    (cfg.hostArgs b).computed id = h.numComputed id := by
  have hrequests : (cfg.hostArgs b).requests id = some (h.numComputed id) :=
    hserved.requests id hid
  rw [HostArgs.computed, hrequests, Option.getD_some]

include hserved in
theorem HostServed.knows (hid : id ∈ b.reqIds) : (cfg.hostArgs b).Knows id := by
  refine ⟨?_, hserved.tokens id hid⟩
  rw [hserved.computed_eq hid]
  exact hserved.requests id hid

include hv in
/-- The tokens behind the step, but for the drafts, are those of the slot. -/
theorem first_align (hr : r < b.reqIds.length) : b.align.first s r = h.first b (b.reqId r) := by
  have hslot : b.align.idxMapping r = slot (b.reqId r) := rfl
  rw [AlignBatch.first, HostBatch.len_align hr, hslot, hv.computed]
  rfl

include hinv hv in
theorem Views.computed_nonneg (hlive : h.live id) : 0 ≤ h.numComputed id :=
  hv.computed id ▸ hinv.computed _ ((hv.live _).2 ⟨id, rfl, hlive⟩)

section Columns

include hcfg hinv hv hserved

/-- The column of the last token of a request. -/
theorem curr_align (hr : r < b.reqIds.length) :
    cfg.curr s b.align r = (cfg.hostArgs b).currCol (b.reqId r) := by
  have hid := HostBatch.reqId_mem hr
  have hlen := HostBatch.len_align hr
  have hcomputed := hv.computed_nonneg hinv (hserved.live _ hid)
  have hdrafts := hserved.drafts _ hid
  have hpos : 0 ≤ b.drafts (b.reqId r) := Int.natCast_nonneg _
  have hbs := hcfg.blockSize
  rw [HostArgs.currCol, hserved.computed_eq hid, ceilDiv_eq (b := (cfg.hostArgs b).blockSize) hbs]
  simp only [curr, PreprocessArgs.newStateIdx, preprocessArgs]
  change (s.numComputed (slot (b.reqId r)) + _ - _ + _ - _).tdiv _ - 1 = _
  rw [hv.computed, add_sub_assoc (h.numComputed (b.reqId r)), ← AlignBatch.len, hlen,
    Int.tdiv_eq_ediv_of_nonneg (by omega)]
  rfl

/-- The columns that a request may write are those of its slot. -/
theorem writable_align (hr : r < b.reqIds.length) :
    cfg.Writable s b.align r w ↔ cfg.HostWritable h b (b.reqId r) w := by
  rw [Writable, HostWritable, lastFull, AlignBatch.newComputed, first_align hv hr,
    curr_align hcfg hinv hv hserved hr]
  rfl

/-- So are those that it may read or write. -/
theorem reached_align (hr : r < b.reqIds.length) :
    cfg.Reached s b.align r w ↔ cfg.HostReached h b (b.reqId r) w :=
  or_congr (writable_align hcfg hinv hv hserved hr)
    (hv.running (hserved.live _ (HostBatch.reqId_mem hr)))

/-- The step is served by slots. -/
theorem served_align : cfg.Served s b.align where
  live r hr := (hv.live _).2 ⟨_, rfl, hserved.live _ (HostBatch.reqId_mem hr)⟩
  slots _ _ := Int.natCast_nonneg _
  own r hr r' hr' heq := HostBatch.reqId_inj hserved.own hr hr' (slot_injective heq)
  drafts r hr := by
    rw [HostBatch.len_align hr]
    exact ⟨Int.natCast_nonneg _, hserved.drafts _ (HostBatch.reqId_mem hr)⟩
  accepted r hr := hserved.accepted _ (HostBatch.reqId_mem hr)
  table r hr w hw t ht := by
    have hreached := (reached_align hcfg hinv hv hserved hr).1 hw
    change b.blockTable _ _ = s.table (slot (b.reqId r)) _ w
    rw [hv.table]
    exact hserved.table r hr w hreached t ht
  ids r hr w hw t ht := by
    have hreached := (reached_align hcfg hinv hv hserved hr).1 hw
    change (cfg.states t).InRange (s.table (slot (b.reqId r)) _ w)
    rw [hv.table]
    exact hserved.ids _ (HostBatch.reqId_mem hr) w hreached t ht
  apart r hr w hw q hq w' hw' t ht heq := by
    obtain ⟨id, rfl, hlive⟩ := (hv.live q).1 hq
    change s.table _ _ w' = s.table (slot (b.reqId r)) _ w at heq
    rw [hv.table, hv.table] at heq
    rw [writable_align hcfg hinv hv hserved hr] at hw
    refine (hserved.apart _ (HostBatch.reqId_mem hr) w hw id hlive w' ?_ t ht heq).imp_left
      (congrArg slot)
    refine hw'.imp (hv.inUse hlive).1 fun ⟨r', hr', hslot, hwrite⟩ => ?_
    obtain rfl := slot_injective hslot
    exact ⟨HostBatch.reqId_mem hr', (writable_align hcfg hinv hv hserved hr').1 hwrite⟩

end Columns

/-! ## The rows -/

include hv hserved in
/-- After the entries of ended requests have been dropped, the column of the running state is
    that of the slot. -/
theorem prevCol_cleaned (hid : id ∈ b.reqIds) : (cfg.hostArgs b).prevCol
    (b.out.cleanupMambaStateIdx h.mambaStateIdx) id = s.stateIdx (slot id) := by
  have hclean := popAll_apply h.mambaStateIdx b.out.ended id
  rw [HostArgs.prevCol, SchedulerOutput.cleanupMambaStateIdx, hclean, hserved.computed_eq hid]
  rcases hv.column id (hserved.live id hid) with ⟨hfresh, hcol⟩ | ⟨hold, hcol⟩
  · have hnone : (if id ∈ b.out.ended then none else h.mambaStateIdx id) = none := by
      split_ifs with hended
      · rfl
      · by_contra hentry
        exact hended (hserved.cleaned id hid hfresh hentry)
    rw [hnone, hcol]
    rfl
  · rw [if_neg fun hended => hold (hserved.ended id hended (hserved.live id hid)), hcol]
    rfl

end Batch

/-- The preparation of a batch that is served returns. -/
theorem prepared_of_served (hinv : cfg.Invariant s) (hv : cfg.Views h s)
    (hserved : cfg.HostServed h b) :
    (cfg.hostArgs b).preprocessMamba h.mambaStateIdx (h.reqs b) = .ok
      (fun id => if id ∈ b.reqIds then some ((cfg.hostArgs b).currCol id)
        else b.out.cleanupMambaStateIdx h.mambaStateIdx id,
      (h.reqs b).map ((cfg.hostArgs b).precopyRow
        (b.out.cleanupMambaStateIdx h.mambaStateIdx))) := by
  have hids : (h.reqs b).map (·.1) = b.reqIds := by simp [HostRun.reqs, Function.comp_def]
  have hnodup : ((h.reqs b).map (·.1)).Nodup := hids ▸ hserved.own
  have hspec := HostArgs.preprocessRows_spec (a := cfg.hostArgs b)
    (d := b.out.cleanupMambaStateIdx h.mambaStateIdx) hnodup (fun x hx => ?_) fun x hx => ?_
  · rw [hids] at hspec
    exact (if_pos rfl).trans hspec
  · exact hserved.knows (hids ▸ List.mem_map_of_mem hx)
  · obtain ⟨id, hid, rfl⟩ := List.mem_map.1 hx
    rw [← hv.accepted]
    exact (hinv.accepted _ ((hv.live _).2 ⟨id, rfl, hserved.live id hid⟩)).1

section Ran

variable (hcfg : cfg.Sound) (hinv : cfg.Invariant s) (hv : cfg.Views h s)
  (hran : cfg.HostRan h b sched)
include hinv hv hran

/-- What the host leaves in the dict and, for every request of the batch, in the rows for the
    kernel before the model. -/
theorem host_prepared : sched.rows.length = b.reqIds.length ∧
    (∀ id, sched.mambaStateIdx id = if id ∈ b.reqIds then some ((cfg.hostArgs b).currCol id)
      else b.out.cleanupMambaStateIdx h.mambaStateIdx id) ∧
    ∀ r < b.reqIds.length, sched.rows[r]? = some
      (if s.stateIdx (slot (b.reqId r)) ≠ -1 ∧
          s.stateIdx (slot (b.reqId r)) ≠ (cfg.hostArgs b).currCol (b.reqId r) then
        ⟨(cfg.hostArgs b).currCol (b.reqId r), s.stateIdx (slot (b.reqId r)),
          h.numAccepted (b.reqId r) - 1, 1⟩
      else ⟨(cfg.hostArgs b).currCol (b.reqId r), -1, 0, h.numAccepted (b.reqId r)⟩) := by
  have hprepared := prepared_of_served hinv hv hran.served
  obtain ⟨hdict, hrows⟩ := Prod.mk.inj (Except.ok.inj (hprepared.symm.trans hran.prepared))
  refine ⟨?_, fun id => (congrFun hdict id).symm, fun r hr => ?_⟩
  · rw [← hrows, List.length_map, HostRun.reqs, List.length_map]
  · have hid := HostBatch.reqId_mem hr
    rw [← hrows, HostRun.reqs, List.map_map, List.getElem?_map, List.getElem?_eq_getElem hr,
      ← HostBatch.reqId_eq hr, Option.map_some]
    simp only [Function.comp_apply, HostArgs.precopyRow, prevCol_cleaned hv hran.served hid]

/-- What it leaves in the rows for the kernel behind the model. -/
theorem host_staged : sched.staged.length = b.reqIds.length ∧
    ∀ r < b.reqIds.length, sched.staged[r]? = some
      ⟨(cfg.hostArgs b).currCol (b.reqId r), b.scheduled (b.reqId r), h.numComputed (b.reqId r),
        b.drafts (b.reqId r)⟩ := by
  have hserved := hran.served
  have hcol : ∀ id ∈ b.reqIds, sched.mambaStateIdx id = some ((cfg.hostArgs b).currCol id) :=
    fun id hid => by rw [(host_prepared hinv hv hran).2.1, if_pos hid]
  have hspec := HostArgs.stageRows_spec (fun id hid => hserved.knows hid) hcol
  have hrows := Except.ok.inj (hspec.symm.trans hran.staged)
  refine ⟨by rw [← hrows, List.length_map], fun r hr => ?_⟩
  rw [← hrows, List.getElem?_map, List.getElem?_eq_getElem hr, ← HostBatch.reqId_eq hr,
    Option.map_some, hserved.computed_eq (HostBatch.reqId_mem hr)]
  rfl

/-! ## The copies -/

/-- The numbers that the programs of a request compute behind the model. -/
theorem hostPostprocess_eq (hr : r < b.reqIds.length) :
    (cfg.hostPostprocess b sched).numTokensRunningState r = h.first b (b.reqId r) ∧
    (cfg.hostPostprocess b sched).newNumComputed r = h.newComputed b (b.reqId r) ∧
    (cfg.hostPostprocess b sched).mambaStateIdx r = (cfg.hostArgs b).currCol (b.reqId r) := by
  have hrow := (host_staged hinv hv hran).2 r hr
  have hfirst : (cfg.hostPostprocess b sched).numTokensRunningState r = h.first b (b.reqId r) := by
    simp only [PostprocessArgs.numTokensRunningState, hostPostprocess, hostPostprocessArgs,
      column_eq hrow, Bool.false_eq_true, if_false, HostRun.first]
  refine ⟨hfirst, ?_, column_eq hrow⟩
  have hprecomputed : (cfg.hostPostprocess b sched).precomputedNewComputed = false := rfl
  rw [PostprocessArgs.newNumComputed, hprecomputed, if_neg Bool.false_ne_true, hfirst]
  rfl

include hcfg

/-- The host copies what the kernels would decide to copy before the model. -/
theorem precopy_align (hr : r < b.reqIds.length) :
    (hostPrecopy sched).copy r = (cfg.precopy s b.align (sched.align cfg s b)).copy r := by
  have hserved := served_align hcfg hinv hv hran.served
  obtain ⟨hlen, -, hrows⟩ := host_prepared hinv hv hran
  have hlow := hv.le_column _ (hran.served.live _ (HostBatch.reqId_mem hr))
  have hslot : b.align.idxMapping r = slot (b.reqId r) := rfl
  rw [precopy_copy hcfg hinv hserved (.refl _) hr, curr_align hcfg hinv hv hran.served hr, hslot,
    hv.accepted]
  have hrow := hrows r hr
  have hcopy : (hostPrecopy sched).copy r = if column sched.rows (·.srcCol) r < 0 ∨
      column sched.rows (·.srcCol) r = column sched.rows (·.stateIdx) r then none
    else some ⟨r, column sched.rows (·.srcCol) r, column sched.rows (·.stateIdx) r,
      column sched.rows (·.tokenBias) r⟩ := by
    simp only [hostPrecopy, Kernel.copy, PrecopyArgs.copy, hostPrecopyArgs, reqIdx, hlen,
      if_neg (not_le.2 hr)]
  rw [hcopy]
  -- Without a copy, the host leaves `-1` for the column of the source.
  by_cases hskip : s.stateIdx (slot (b.reqId r)) < 0 ∨ s.stateIdx (slot (b.reqId r)) =
      (cfg.hostArgs b).currCol (b.reqId r)
  · rw [if_neg (by omega)] at hrow
    simp only [column_eq hrow, if_pos hskip]
    rfl
  · rw [if_pos (by omega)] at hrow
    simp only [column_eq hrow, if_neg hskip]

/-- They are those of the slot. -/
theorem postprocess_args_align (hr : r < b.reqIds.length) :
    (cfg.postprocessArgs s b.align (sched.align cfg s b)).numTokensRunningState
      (slot (b.reqId r)) = h.first b (b.reqId r) ∧
    (cfg.postprocessArgs s b.align (sched.align cfg s b)).newNumComputed (slot (b.reqId r)) =
      h.newComputed b (b.reqId r) ∧
    (cfg.postprocessArgs s b.align (sched.align cfg s b)).mambaStateIdx (slot (b.reqId r)) =
      (cfg.hostArgs b).currCol (b.reqId r) := by
  have hserved := served_align hcfg hinv hv hran.served
  obtain ⟨hrunning, -, -, hstate⟩ :=
    @postprocessArgs_eq V cfg s b.align (sched.align cfg s b) r hcfg hinv hserved (.refl _) hr
  have hfirst := first_align hv hr
  refine ⟨hrunning.trans hfirst, ?_, hstate.trans (curr_align hcfg hinv hv hran.served hr)⟩
  have hnew : computed s b.align (b.align.idxMapping r) = b.align.newComputed s r :=
    scatter_slot hserved hr _ _
  refine hnew.trans ?_
  rw [AlignBatch.newComputed, hfirst]
  rfl

/-- The host copies what the kernels would decide to copy behind the model. -/
theorem postprocess_align (hr : r < b.reqIds.length) :
    (Kernel.postprocess (cfg.hostPostprocess b sched)).copy r =
      (Kernel.postprocess (cfg.postprocessArgs s b.align (sched.align cfg s b))).copy r := by
  have hserved := served_align hcfg hinv hv hran.served
  have hlen : (cfg.hostPostprocess b sched).numReqs = b.reqIds.length :=
    (host_staged hinv hv hran).1
  obtain ⟨hrunning, hnew, hstate⟩ := hostPostprocess_eq hinv hv hran hr
  obtain ⟨hrunning', hnew', hstate'⟩ := postprocess_args_align hcfg hinv hv hran hr
  exact PostprocessArgs.copy_congr (hlen ▸ hr) hr rfl (reqIdx_eq hserved hr) rfl rfl
    (hrunning.trans hrunning'.symm) (hnew.trans hnew'.symm) (hstate.trans hstate'.symm)

/-- The arrays for the model are the rows of the host. -/
theorem prepared_align (hr : r < b.reqIds.length) :
    cfg.prepared s b.align (sched.align cfg s b) (.stateIdx (slot (b.reqId r))) =
      column sched.rows (·.stateIdx) r ∧
    cfg.prepared s b.align (sched.align cfg s b) (.numAccepted (slot (b.reqId r))) =
      column sched.rows (·.numAcceptedTokens) r := by
  have hserved := served_align hcfg hinv hv hran.served
  have hrow := (host_prepared hinv hv hran).2.2 r hr
  have hlow := hv.le_column _ (hran.served.live _ (HostBatch.reqId_mem hr))
  have hcurr := curr_align hcfg hinv hv hran.served hr
  have hstate :=
    @prepared_stateIdx V cfg s b.align (sched.align cfg s b) r hcfg hserved (.refl _) hr
  have haccepted :=
    @prepared_numAccepted V cfg s b.align (sched.align cfg s b) r hcfg hserved (.refl _) hr
  have hslot : b.align.idxMapping r = slot (b.reqId r) := rfl
  rw [hslot, hcurr] at hstate haccepted
  rw [hstate, haccepted, hv.accepted, column_eq hrow, column_eq hrow]
  by_cases hmoves : s.stateIdx (slot (b.reqId r)) ≠ -1 ∧
      s.stateIdx (slot (b.reqId r)) ≠ (cfg.hostArgs b).currCol (b.reqId r)
  · rw [if_pos hmoves, if_pos ⟨by omega, hmoves.2⟩]
    exact ⟨rfl, rfl⟩
  · rw [if_neg hmoves, if_neg (by omega)]
    exact ⟨rfl, rfl⟩

/-- A step of the host is one by slots. -/
theorem ran_align : cfg.Ran s b.align (sched.align cfg s b) where
  served := served_align hcfg hinv hv hran.served
  order := .refl _
  precopy := by
    have hreqs : (hostPrecopy sched).numReqs = b.reqIds.length := (host_prepared hinv hv hran).1
    rw [← Kernel.groups_congr hreqs fun r hr => precopy_align hcfg hinv hv hran (hreqs ▸ hr)]
    exact hran.precopy
  forward := by
    have hcopied : copied s (sched.align cfg s b) = runCopies h.memory sched.precopy := by
      rw [copied, hv.memory]
      rfl
    refine ⟨fun r hr t ht hfound o ho hdrafts => ?_, fun a ha => ?_⟩
    · have hslot : b.align.idxMapping r = slot (b.reqId r) := rfl
      obtain ⟨hstate, haccepted⟩ := prepared_align hcfg hinv hv hran hr
      rw [hslot, hcopied, hstate, haccepted, hv.computed, hv.table, hv.ideal] at hfound
      rw [hslot, hstate, hv.table, hv.ideal, first_align hv hr]
      exact hran.forward.states r hr t ht hfound o ho hdrafts
    · rw [hcopied]
      refine hran.forward.frame a fun r hr t ht o ho hdrafts => ?_
      have hno := ha r hr t ht o ho hdrafts
      have hslot : b.align.idxMapping r = slot (b.reqId r) := rfl
      rwa [hslot, (prepared_align hcfg hinv hv hran hr).1, hv.table] at hno
  postprocess := by
    have hreqs : (Kernel.postprocess (cfg.hostPostprocess b sched)).numReqs = b.reqIds.length :=
      (host_staged hinv hv hran).1
    rw [← Kernel.groups_congr hreqs fun r hr => postprocess_align hcfg hinv hv hran (hreqs ▸ hr)]
    exact hran.postprocess

/-- The rows whose accepted tokens are set to `1` are those of the slots. -/
theorem mem_acceptedSlots_align (hr : r < b.reqIds.length) :
    (r : Int) ∈ (Kernel.postprocess (cfg.hostPostprocess b sched)).acceptedSlots
        (cfg.hostLaunch b) cfg.states cfg.numStates ↔
      slot (b.reqId r) ∈ (Kernel.postprocess (cfg.postprocessArgs s b.align
        (sched.align cfg s b))).acceptedSlots (cfg.launch b.align) cfg.states cfg.numStates := by
  have hserved := served_align hcfg hinv hv hran.served
  have hlen : (cfg.hostPostprocess b sched).numReqs = b.reqIds.length :=
    (host_staged hinv hv hran).1
  obtain ⟨hrunning, hnew, hstate⟩ := hostPostprocess_eq hinv hv hran hr
  obtain ⟨hrunning', hnew', hstate'⟩ := postprocess_args_align hcfg hinv hv hran hr
  have hblock : (cfg.hostPostprocess b sched).blockSize =
    (cfg.postprocessArgs s b.align (sched.align cfg s b)).blockSize := rfl
  obtain ⟨haligned, hdest⟩ := PostprocessArgs.aligned_congr hblock (hnew.trans hnew'.symm)
  rw [PostprocessArgs.mem_acceptedSlots_iff (l := cfg.hostLaunch b) hcfg.states hcfg.tiles
      fun _ _ => rfl,
    PostprocessArgs.mem_acceptedSlots_iff (l := cfg.launch b.align) hcfg.states hcfg.tiles
      fun r hr => reqIdx_eq hserved hr, hlen]
  constructor
  · rintro ⟨r', hr', heq, hfull, hcol⟩
    obtain rfl := Nat.cast_injective heq
    exact ⟨r, hr, rfl, (hrunning'.trans hrunning.symm).le.trans (hfull.trans haligned.le),
      (hstate'.trans hstate.symm).trans (hcol.trans hdest)⟩
  · rintro ⟨r', hr', heq, hfull, hcol⟩
    obtain rfl := HostBatch.reqId_inj hran.served.own hr hr' (slot_injective heq)
    exact ⟨r, hr, rfl, (hrunning.trans hrunning'.symm).le.trans (hfull.trans haligned.ge),
      (hstate.trans hstate'.symm).trans (hcol.trans hdest.symm)⟩

/-- The tokens behind the step are those of the slot. -/
theorem newComputed_align (hr : r < b.reqIds.length) :
    computed s b.align (slot (b.reqId r)) = h.newComputed b (b.reqId r) ∧
      b.align.newComputed s r = h.newComputed b (b.reqId r) := by
  have hserved := served_align hcfg hinv hv hran.served
  have hnew : b.align.newComputed s r = h.newComputed b (b.reqId r) := by
    rw [AlignBatch.newComputed, first_align hv hr]
    rfl
  exact ⟨(scatter_slot hserved hr _ _).trans hnew, hnew⟩

/-- What a step of the host leaves is what it leaves by slots. -/
theorem Views.after : cfg.Views (cfg.hostAfter h b sched)
    (cfg.afterBatch s b.align (sched.align cfg s b)) where
  memory := rfl
  live := hv.live
  table := hv.table
  ideal := hv.ideal
  computed id := by
    have hran' := ran_align hcfg hinv hv hran
    by_cases hid : id ∈ b.reqIds
    · obtain ⟨r, hr, rfl⟩ := HostBatch.exists_reqId hid
      exact (newComputed_align hcfg hinv hv hran hr).1.trans (if_pos hid).symm
    · exact (step_other hcfg hinv hran' (HostBatch.slot_ne hid)).1.trans
        ((hv.computed id).trans (if_neg hid).symm)
  accepted id := by
    have hran' := ran_align hcfg hinv hv hran
    by_cases hid : id ∈ b.reqIds
    · obtain ⟨r, hr, rfl⟩ := HostBatch.exists_reqId hid
      have hsampled : cfg.sampled s b.align (sched.align cfg s b) (slot (b.reqId r)) =
        b.accepted (b.reqId r) := scatter_slot hran'.served hr _ _
      change cfg.finished s b.align (sched.align cfg s b) (.numAccepted _) =
        if b.reqId r ∈ b.reqIds then _ else _
      rw [if_pos hid, HostBatch.idxOf_reqId hran.served.own hr, numAcceptedTokensOut, finished,
        hsampled]
      exact if_congr (mem_acceptedSlots_align hcfg hinv hv hran hr).symm rfl rfl
    · exact (step_other hcfg hinv hran' (HostBatch.slot_ne hid)).2.2.trans
        ((hv.accepted id).trans (if_neg hid).symm)
  saved id := by
    funext w
    change (s.saved (slot id) w ∨ _) = (h.saved id w ∨ _)
    rw [hv.saved]
    refine congrArg _ (propext ⟨?_, ?_⟩)
    · rintro ⟨r, hr, heq, hw, hfull⟩
      obtain rfl := slot_injective heq
      rw [lastFull, (newComputed_align hcfg hinv hv hran hr).2] at hw
      exact ⟨HostBatch.reqId_mem hr, hw, first_align hv hr ▸ hfull⟩
    · rintro ⟨hid, hw, hfull⟩
      obtain ⟨r, hr, rfl⟩ := HostBatch.exists_reqId hid
      refine ⟨r, hr, rfl, ?_, (first_align hv hr).symm ▸ hfull⟩
      rw [lastFull, (newComputed_align hcfg hinv hv hran hr).2]
      exact hw
  column id hlive := by
    have hran' := ran_align hcfg hinv hv hran
    have hdict := (host_prepared hinv hv hran).2.1 id
    by_cases hid : id ∈ b.reqIds
    · obtain ⟨r, hr, rfl⟩ := HostBatch.exists_reqId hid
      refine .inr ⟨fun h => h.2 hid, ?_⟩
      have hcol : cfg.finished s b.align (sched.align cfg s b) (.stateIdx (slot (b.reqId r))) =
          cfg.curr s b.align r := prepared_stateIdx hcfg hran'.served hran'.order hr
      change sched.mambaStateIdx _ = some (cfg.finished s b.align _ (.stateIdx _))
      rw [hdict, if_pos hid, hcol, curr_align hcfg hinv hv hran.served hr]
    · have hcol := (step_other hcfg hinv hran' (HostBatch.slot_ne hid)).2.1
      change cfg.HostColumn _ id (cfg.finished s b.align _ (.stateIdx _))
      rw [hcol]
      rcases hv.column id hlive with ⟨hfresh, hcol⟩ | ⟨hold, hcol⟩
      · have hcomputed : (cfg.hostAfter h b sched).numComputed id = h.numComputed id := if_neg hid
        exact .inl ⟨⟨hfresh, hid⟩, hcomputed ▸ hcol⟩
      · refine .inr ⟨fun h => hold h.1, ?_⟩
        change sched.mambaStateIdx id = _
        rw [hdict, if_neg hid, SchedulerOutput.cleanupMambaStateIdx, popAll_apply,
          if_neg fun hended => hold (hran.served.ended id hended hlive), hcol]
  le_column id hlive := by
    have hran' := ran_align hcfg hinv hv hran
    by_cases hid : id ∈ b.reqIds
    · obtain ⟨r, hr, rfl⟩ := HostBatch.exists_reqId hid
      have hcol : cfg.finished s b.align (sched.align cfg s b) (.stateIdx (slot (b.reqId r))) =
          cfg.curr s b.align r := prepared_stateIdx hcfg hran'.served hran'.order hr
      have hcomputed := AlignConfig.computed_nonneg hinv hran'.served hr
      have hcurr := (curr_spec hcfg hran'.served hr hcomputed).2
      have hdrafts := hran'.served.drafts r hr
      have hpos : 0 < cfg.curr s b.align r + 1 :=
        pos_of_mul_pos_left (by omega) hcfg.blockSize.le
      change -1 ≤ cfg.finished s b.align _ (.stateIdx _)
      omega
    · have hcol := (step_other hcfg hinv hran' (HostBatch.slot_ne hid)).2.1
      exact (hv.le_column id hlive).trans hcol.ge

end Ran

end AlignConfig

end FlashNext.Mamba
