import FlashNext.Mamba.AlignStep

/-!
# A step with aligned states

What holds between two steps, and that a step keeps it (`Invariant.batch`): the running
states are in their columns, the saved ones in the columns of their blocks.

* `precopy_copy`, `postprocess_copy` and `mem_acceptedSlots`: what the programs of a request
  decide, before the model and behind it;
* `copied_running`: the model finds the running state of a request in the column of the
  step;
* `step_stays`, `step_saves` and `step_running`: what a step leaves.
-/

namespace FlashNext.Mamba

namespace AlignConfig

variable {V : Type*} {cfg : AlignConfig} {s : AlignRun V} {b : AlignBatch} {sched : AlignSchedule V}
  {m m' : Int → V} {r t : Nat} {q i off w : Int} {x : Int → V}

/-! ## The invariant -/

/-- The running states and the saved ones are where the arrays say, in blocks of the
    pools. -/
structure Invariant (cfg : AlignConfig) (s : AlignRun V) : Prop where
  computed : ∀ q, s.live q → 0 ≤ s.numComputed q
  fresh : ∀ q, s.live q → s.stateIdx q < 0 → s.numComputed q = 0
  accepted : ∀ q, s.live q → 1 ≤ s.numAccepted q ∧ s.numAccepted q ≤ cfg.numSpec + 1
  running : ∀ q, s.live q → 0 ≤ s.stateIdx q → ∀ t < cfg.numStates,
    cfg.Has s.memory (s.table q) t (s.stateIdx q) (s.numAccepted q - 1)
      (s.ideal q t (s.numComputed q))
  saved : ∀ q, s.live q → ∀ w, s.saved q w → 0 ≤ w ∧ (w + 1) * cfg.blockSize ≤ s.numComputed q ∧
    ∀ t < cfg.numStates,
      cfg.Has s.memory (s.table q) t w 0 (s.ideal q t ((w + 1) * cfg.blockSize))

theorem stateId_zero (table : Nat → Int → Int) :
    cfg.stateId table t w 0 = table (cfg.states t).groupIdx w := by simp [stateId]

/-- The running state is in a column in use. -/
theorem running_col (hcol : 0 ≤ s.stateIdx q) :
    s.Running q (if 0 < (cfg.states t).convWidth then s.stateIdx q
      else s.stateIdx q + (s.numAccepted q - 1)) := by
  split_ifs
  · exact ⟨hcol, .inl rfl⟩
  · exact ⟨hcol, .inr rfl⟩

theorem reqIdx_eq (hserved : cfg.Served s b) (hr : r < b.numReqs) :
    reqIdx (some b.idxMapping) r = some (b.idxMapping r) :=
  if_neg (not_lt.2 (hserved.slots r hr))

theorem computed_nonneg (hinv : cfg.Invariant s) (hserved : cfg.Served s b) (hr : r < b.numReqs) :
    0 ≤ s.numComputed (b.idxMapping r) :=
  hinv.computed _ (hserved.live r hr)

/-- The last full block behind a step. -/
theorem lastFull_spec (hcfg : cfg.Sound) (r : Nat) :
    (cfg.lastFull s b r + 1) * cfg.blockSize ≤ b.newComputed s r ∧
      b.newComputed s r < (cfg.lastFull s b r + 2) * cfg.blockSize := by
  have hbs := hcfg.blockSize
  have hle := Int.ediv_mul_le (b.newComputed s r) hbs.ne'
  have hlt := Int.lt_ediv_add_one_mul_self (b.newComputed s r) hbs
  have hone : cfg.lastFull s b r + 1 = b.newComputed s r / cfg.blockSize := by
    rw [lastFull]
    ring
  have htwo : cfg.lastFull s b r + 2 = b.newComputed s r / cfg.blockSize + 1 := by
    rw [lastFull]
    ring
  rw [hone, htwo]
  exact ⟨hle, hlt⟩

/-- How many tokens a request has behind a step. -/
theorem newComputed_bounds (hserved : cfg.Served s b) (hr : r < b.numReqs) :
    s.numComputed (b.idxMapping r) < b.first s r ∧ b.first s r ≤ b.newComputed s r ∧
      b.newComputed s r ≤ s.numComputed (b.idxMapping r) + b.len r := by
  have hdrafts := hserved.drafts r hr
  have haccepted := hserved.accepted r hr
  unfold AlignBatch.newComputed AlignBatch.first
  omega

section Decisions

variable (hcfg : cfg.Sound) (hinv : cfg.Invariant s) (hserved : cfg.Served s b)
  (horder : sched.order.Perm (cfg.preprocessArgs s b).pids)
include hcfg hinv hserved horder

/-- The copy of a running state. -/
theorem precopy_copy (hr : r < b.numReqs) : (cfg.precopy s b sched).copy r =
    if s.stateIdx (b.idxMapping r) < 0 ∨ s.stateIdx (b.idxMapping r) = cfg.curr s b r then none
    else some ⟨r, s.stateIdx (b.idxMapping r), cfg.curr s b r,
      s.numAccepted (b.idxMapping r) - 1⟩ := by
  have hsrc : cfg.prepared s b sched (.srcCol (b.idxMapping r)) = s.stateIdx (b.idxMapping r) :=
    prepared_eq hcfg hserved horder hr rfl
  have hoff : cfg.prepared s b sched (.srcOff (b.idxMapping r)) =
      s.numAccepted (b.idxMapping r) - 1 := by
    have haccepted := (hinv.accepted _ (hserved.live r hr)).1
    rw [prepared_eq hcfg hserved horder hr rfl]
    exact max_eq_left (by unfold AlignRun.numAccepted at haccepted; omega)
  simp only [precopy, Kernel.copy, PrecopyArgs.copy, if_neg (not_le.2 hr), reqIdx_eq hserved hr,
    hsrc, hoff, prepared_stateIdx hcfg hserved horder hr]

/-- The numbers that the programs of a request compute behind a step. -/
theorem postprocessArgs_eq (hr : r < b.numReqs) :
    (cfg.postprocessArgs s b sched).numTokensRunningState (b.idxMapping r) = b.first s r ∧
    (cfg.postprocessArgs s b sched).alignedNewComputed (b.idxMapping r) =
      (cfg.lastFull s b r + 1) * cfg.blockSize ∧
    (cfg.postprocessArgs s b sched).destBlockIdx (b.idxMapping r) = cfg.lastFull s b r ∧
    (cfg.postprocessArgs s b sched).mambaStateIdx (b.idxMapping r) = cfg.curr s b r := by
  have hbs := hcfg.blockSize
  have hdrafts := hserved.drafts r hr
  have haccepted := hserved.accepted r hr
  have hcomputed := computed_nonneg hinv hserved hr
  have hnew : computed s b (b.idxMapping r) = b.newComputed s r := scatter_slot hserved hr _ _
  have hsampled : cfg.sampled s b sched (b.idxMapping r) = b.accepted r :=
    scatter_slot hserved hr _ _
  have hpos : 0 ≤ b.newComputed s r := by
    unfold AlignBatch.newComputed AlignBatch.first
    omega
  have haligned : (cfg.postprocessArgs s b sched).alignedNewComputed (b.idxMapping r) =
      (cfg.lastFull s b r + 1) * cfg.blockSize := by
    simp only [PostprocessArgs.alignedNewComputed, PostprocessArgs.newNumComputed, postprocessArgs,
      if_true, hnew]
    rw [Int.tdiv_eq_ediv_of_nonneg hpos, lastFull]
    ring
  refine ⟨?_, haligned, ?_, prepared_stateIdx hcfg hserved horder hr⟩
  · simp only [PostprocessArgs.numTokensRunningState, postprocessArgs, if_true, hnew, hsampled]
    unfold AlignBatch.newComputed
    omega
  · rw [PostprocessArgs.destBlockIdx, haligned]
    simp only [postprocessArgs]
    rw [Int.mul_tdiv_cancel _ hbs.ne']
    ring

/-- The copy of the state at the end of a block. -/
theorem postprocess_copy (hr : r < b.numReqs) :
    (Kernel.postprocess (cfg.postprocessArgs s b sched)).copy r =
      if (cfg.lastFull s b r + 1) * cfg.blockSize < b.first s r then none
      else if cfg.curr s b r = cfg.lastFull s b r ∧
        (cfg.lastFull s b r + 1) * cfg.blockSize - b.first s r = 0 then none
      else some ⟨r, cfg.curr s b r, cfg.lastFull s b r,
        (cfg.lastFull s b r + 1) * cfg.blockSize - b.first s r⟩ := by
  obtain ⟨hrunning, haligned, hdest, hstate⟩ := postprocessArgs_eq hcfg hinv hserved horder hr
  have hmap : (cfg.postprocessArgs s b sched).idxMapping = some b.idxMapping := rfl
  have hreqs : (cfg.postprocessArgs s b sched).numReqs = b.numReqs := rfl
  simp only [Kernel.copy, PostprocessArgs.copy, PostprocessArgs.acceptTokenBias, hreqs,
    if_neg (not_le.2 hr), hmap, reqIdx_eq hserved hr, haligned, hrunning, hstate, hdest,
    Option.isSome_some, if_true]

/-- The accepted tokens are set to `1` if the end of the block is that of the column of the
    step. -/
theorem mem_acceptedSlots : q ∈ (Kernel.postprocess (cfg.postprocessArgs s b sched)).acceptedSlots
      (cfg.launch b) cfg.states cfg.numStates ↔
    ∃ r < b.numReqs, q = b.idxMapping r ∧
      b.first s r ≤ (cfg.lastFull s b r + 1) * cfg.blockSize ∧
      cfg.curr s b r = cfg.lastFull s b r := by
  rw [PostprocessArgs.mem_acceptedSlots_iff (a := cfg.postprocessArgs s b sched)
    (l := cfg.launch b) hcfg.states
    hcfg.tiles fun r hr => reqIdx_eq hserved hr]
  refine exists_congr fun r => and_congr_right fun hr => ?_
  obtain ⟨hrunning, haligned, hdest, hstate⟩ := postprocessArgs_eq hcfg hinv hserved horder hr
  rw [hrunning, haligned, hdest, hstate]

end Decisions

section Step

variable (hcfg : cfg.Sound) (hinv : cfg.Invariant s) (hran : cfg.Ran s b sched)
include hcfg hinv hran

theorem precopy_proper : cfg.Proper s b (cfg.precopy s b sched) := by
  have hsome : ∀ r c, (cfg.precopy s b sched).copy r = some c → r < b.numReqs ∧
      0 ≤ s.stateIdx (b.idxMapping r) ∧ c = ⟨r, s.stateIdx (b.idxMapping r), cfg.curr s b r,
        s.numAccepted (b.idxMapping r) - 1⟩ := by
    intro r c hcopy
    by_cases hr : r < b.numReqs
    · rw [precopy_copy hcfg hinv hran.served hran.order hr] at hcopy
      split_ifs at hcopy with hskip
      exact ⟨hr, not_lt.1 fun h => hskip (.inl h), (Option.some.inj hcopy).symm⟩
    · have hnone : (cfg.precopy s b sched).copy r = none := by
        simp [precopy, Kernel.copy, PrecopyArgs.copy, not_lt.1 hr]
      rw [hnone] at hcopy
      cases hcopy
  refine ⟨rfl, fun r c h => ?_, fun r hr c h => ?_, fun r hr c h t => ?_, fun r hr c h => ?_⟩ <;>
    obtain ⟨-, hcol, rfl⟩ := hsome r c h
  · rfl
  · exact writable_curr hran.served hr
  · exact .inr (running_col hcol)
  · have := hinv.accepted _ (hran.served.live r hr)
    dsimp only
    omega

/-- A block whose end is reached by a step is not behind the column of the step, and its
    column may be written. -/
theorem lastFull_writable (hr : r < b.numReqs)
    (hfull : b.first s r ≤ (cfg.lastFull s b r + 1) * cfg.blockSize) :
    cfg.lastFull s b r ≤ cfg.curr s b r ∧ cfg.Writable s b r (cfg.lastFull s b r) ∧
      (cfg.lastFull s b r + 1) * cfg.blockSize - b.first s r ≤ b.drafts r := by
  have hdrafts := hran.served.drafts r hr
  have haccepted := hran.served.accepted r hr
  have hcurr := (curr_spec hcfg hran.served hr (computed_nonneg hinv hran.served hr)).2
  have hlast := (lastFull_spec (s := s) (b := b) hcfg r).1
  have hnew : b.newComputed s r ≤ s.numComputed (b.idxMapping r) + b.len r := by
    unfold AlignBatch.newComputed AlignBatch.first
    omega
  have hle : cfg.lastFull s b r + 1 ≤ cfg.curr s b r + 1 :=
    le_of_mul_le_mul_right ((hlast.trans hnew).trans hcurr) hcfg.blockSize
  refine ⟨by omega, .inr ⟨rfl, hfull⟩, ?_⟩
  unfold AlignBatch.newComputed at hlast
  omega

theorem postprocess_proper :
    cfg.Proper s b (.postprocess (cfg.postprocessArgs s b sched)) := by
  have hsome : ∀ r c, (Kernel.postprocess (cfg.postprocessArgs s b sched)).copy r = some c →
      r < b.numReqs ∧ b.first s r ≤ (cfg.lastFull s b r + 1) * cfg.blockSize ∧
        c = ⟨r, cfg.curr s b r, cfg.lastFull s b r,
          (cfg.lastFull s b r + 1) * cfg.blockSize - b.first s r⟩ := by
    intro r c hcopy
    by_cases hr : r < b.numReqs
    · rw [postprocess_copy hcfg hinv hran.served hran.order hr] at hcopy
      split_ifs at hcopy with hskip hself
      exact ⟨hr, not_lt.1 hskip, (Option.some.inj hcopy).symm⟩
    · have hnone : (Kernel.postprocess (cfg.postprocessArgs s b sched)).copy r = none := by
        simp [postprocessArgs, Kernel.copy, PostprocessArgs.copy, not_lt.1 hr]
      rw [hnone] at hcopy
      cases hcopy
  refine ⟨rfl, fun r c h => ?_, fun r hr c h => ?_, fun r hr c h t => ?_, fun r hr c h => ?_⟩ <;>
    obtain ⟨-, hfull, rfl⟩ := hsome r c h
  · rfl
  · exact (lastFull_writable hcfg hinv hran hr hfull).2.1
  · have hbias := (lastFull_writable hcfg hinv hran hr hfull).2.2
    unfold sourceCol
    split_ifs
    · exact .inl (writable_curr hran.served hr)
    · exact .inl (writable_draft (sub_nonneg.2 hfull) hbias)
  · have hdrafts := hran.served.drafts r hr
    have hbias := (lastFull_writable hcfg hinv hran hr hfull).2.2
    dsimp only
    omega

/-! ## What the model finds -/

/-- The running state of a request of the batch is in its column. -/
theorem copied_running (hr : r < b.numReqs) (hcol : 0 ≤ s.stateIdx (b.idxMapping r))
    (ht : t < cfg.numStates) :
    cfg.At (copied s sched) (s.table (b.idxMapping r)) t
      (cfg.prepared s b sched (.stateIdx (b.idxMapping r)))
      (cfg.prepared s b sched (.numAccepted (b.idxMapping r)) - 1)
      (s.ideal (b.idxMapping r) t (s.numComputed (b.idxMapping r))) := by
  have hlive := hran.served.live r hr
  have hproper := precopy_proper hcfg hinv hran
  have hrun := hinv.running _ hlive hcol t ht
  have hcopy := precopy_copy hcfg hinv hran.served hran.order hr
  rw [prepared_stateIdx hcfg hran.served hran.order hr,
    prepared_numAccepted hcfg hran.served hran.order hr]
  by_cases hsame : s.stateIdx (b.idxMapping r) = cfg.curr s b r
  · -- It was there before.
    rw [if_neg (fun h => h.2 hsame), ← hsame]
    rw [if_pos (.inr hsame)] at hcopy
    have haccepted := hinv.accepted _ hlive
    refine (hproper.stays hran.served hcfg hran.precopy ht (by omega) (by omega) hlive hrun
      (.inl (.inr (running_col hcol))) fun r' hr' c hc hq => ?_).2
    obtain rfl := hran.served.own r hr r' hr' hq
    rw [hcopy] at hc
    cases hc
  · rw [if_pos ⟨hcol, hsame⟩]
    rw [if_neg (by omega)] at hcopy
    have hmoved := hproper.window hran.served hcfg hran.precopy hr ht hcopy hrun.2
    rw [copied, Int.sub_self]
    exact hmoved

/-! ## What a step leaves -/

omit hinv in
/-- The model leaves the states in the columns in use that the batch does not write. -/
theorem forward_stays (ht : t < cfg.numStates) (hoff : 0 ≤ off) (hspec : off ≤ cfg.numSpec)
    (hlive : s.live q)
    (hx : cfg.Has (copied s sched) (s.table q) t i off x)
    (huse : s.InUse q (if 0 < (cfg.states t).convWidth then i else i + off))
    (hout : ∀ r < b.numReqs, q = b.idxMapping r →
      ¬cfg.Writable s b r (if 0 < (cfg.states t).convWidth then i else i + off)) :
    cfg.Has sched.forward (s.table q) t i off x := by
  refine ⟨hx.1, fun pos hpos => ?_⟩
  have hin :=
    hpos.inBlock (hcfg.fits t ht) hoff (room hcfg ht hspec) (cfg.stateId (s.table q) t i off)
  refine (hran.forward.frame _ fun r hr t' ht' o ho hdrafts hblock => ?_).trans (hx.2 pos hpos)
  have hcol : cfg.Writable s b r (if 0 < (cfg.states t').convWidth then
      cfg.prepared s b sched (.stateIdx (b.idxMapping r))
      else cfg.prepared s b sched (.stateIdx (b.idxMapping r)) + o) := by
    rw [prepared_stateIdx hcfg hran.served hran.order hr]
    split_ifs
    · exact writable_curr hran.served hr
    · exact writable_draft ho hdrafts
  by_cases htt : t = t'
  · subst htt
    obtain ⟨hq, hsame⟩ := hran.served.apart r hr _ hcol q hlive _ (.inl huse) t ht
      (MambaState.eq_of_inBlock hin hblock)
    exact hout r hr hq (hsame ▸ hcol)
  · exact hcfg.pools t ht t' ht' htt _ ⟨_, hx.1, hin⟩
      ⟨_, hran.served.ids r hr _ (.inl hcol) t' ht', hblock⟩

/-- A step leaves the states in the columns in use that the batch does not write. -/
theorem step_stays (ht : t < cfg.numStates) (hoff : 0 ≤ off) (hspec : off ≤ cfg.numSpec)
    (hlive : s.live q) (hx : cfg.Has s.memory (s.table q) t i off x)
    (huse : s.InUse q (if 0 < (cfg.states t).convWidth then i else i + off))
    (hout : ∀ r < b.numReqs, q = b.idxMapping r →
      ¬cfg.Writable s b r (if 0 < (cfg.states t).convWidth then i else i + off)) :
    cfg.Has (runCopies sched.forward sched.postprocess) (s.table q) t i off x := by
  have hpre := precopy_proper hcfg hinv hran
  have hpost := postprocess_proper hcfg hinv hran
  have hx := hpre.stays hran.served hcfg hran.precopy ht hoff hspec hlive hx (.inl huse)
    fun r hr c hc hq hcol => hout r hr hq (hcol ▸ hpre.dst r hr c hc)
  have hx := forward_stays hcfg hran ht hoff hspec hlive hx huse hout
  exact hpost.stays hran.served hcfg hran.postprocess ht hoff hspec hlive hx (.inl huse)
    fun r hr c hc hq hcol => hout r hr hq (hcol ▸ hpost.dst r hr c hc)

/-- The states that the model leaves, behind the first tokens and behind every draft. -/
theorem forward_states (hr : r < b.numReqs) (ht : t < cfg.numStates) {o : Int} (ho : 0 ≤ o)
    (hdrafts : o ≤ b.drafts r) :
    cfg.Has sched.forward (s.table (b.idxMapping r)) t (cfg.curr s b r) o
      (s.ideal (b.idxMapping r) t (b.first s r + o)) := by
  have hstates := hran.forward.states r hr t ht (fun hpos => ?_) o ho hdrafts
  · rw [prepared_stateIdx hcfg hran.served hran.order hr] at hstates
    refine ⟨hran.served.ids r hr _ (.inl ?_) t ht, hstates⟩
    split_ifs
    · exact writable_curr hran.served hr
    · exact writable_draft ho hdrafts
  · refine copied_running hcfg hinv hran hr ?_ ht
    by_contra hcol
    have := hinv.fresh _ (hran.served.live r hr) (not_le.1 hcol)
    omega

/-- They are there behind the step, but in a column to which the state at the end of a
    block is copied. -/
theorem step_states (hr : r < b.numReqs) (ht : t < cfg.numStates) {o : Int} (ho : 0 ≤ o)
    (hdrafts : o ≤ b.drafts r)
    (hdst : ∀ c, (Kernel.postprocess (cfg.postprocessArgs s b sched)).copy r = some c →
      c.dstCol < cfg.curr s b r) :
    cfg.Has (runCopies sched.forward sched.postprocess) (s.table (b.idxMapping r)) t
      (cfg.curr s b r) o (s.ideal (b.idxMapping r) t (b.first s r + o)) := by
  have hdraft := hran.served.drafts r hr
  have hpost := postprocess_proper hcfg hinv hran
  refine hpost.stays hran.served hcfg hran.postprocess ht ho (by omega) (hran.served.live r hr)
    (forward_states hcfg hinv hran hr ht ho hdrafts)
    (.inr ⟨r, hr, rfl, ?_⟩) fun r' hr' c hc hq => ?_
  · split_ifs
    · exact writable_curr hran.served hr
    · exact writable_draft ho hdrafts
  · obtain rfl := hran.served.own r hr r' hr' hq
    have := hdst c hc
    split_ifs <;> omega

/-- The state at the end of a block that the step has reached. -/
theorem step_saves (hr : r < b.numReqs) (ht : t < cfg.numStates)
    (hfull : b.first s r ≤ (cfg.lastFull s b r + 1) * cfg.blockSize) :
    cfg.Has (runCopies sched.forward sched.postprocess) (s.table (b.idxMapping r)) t
      (cfg.lastFull s b r) 0
      (s.ideal (b.idxMapping r) t ((cfg.lastFull s b r + 1) * cfg.blockSize)) := by
  obtain ⟨-, hwrite, hbias⟩ := lastFull_writable hcfg hinv hran hr hfull
  have hcopy := postprocess_copy hcfg hinv hran.served hran.order hr
  have hpost := postprocess_proper hcfg hinv hran
  rw [if_neg (not_lt.2 hfull)] at hcopy
  by_cases hself : cfg.curr s b r = cfg.lastFull s b r ∧
      (cfg.lastFull s b r + 1) * cfg.blockSize - b.first s r = 0
  · -- It is in its column.
    rw [if_pos hself] at hcopy
    have hstates := step_states hcfg hinv hran hr ht le_rfl
      (hran.served.drafts r hr).1 fun c hc => by
        rw [hcopy] at hc
        cases hc
    rw [hself.1] at hstates
    rwa [show (cfg.lastFull s b r + 1) * cfg.blockSize = b.first s r + 0 by omega]
  · rw [if_neg hself] at hcopy
    have hstates := forward_states hcfg hinv hran hr ht
      (o := (cfg.lastFull s b r + 1) * cfg.blockSize - b.first s r) (by omega) hbias
    have hend : b.first s r + ((cfg.lastFull s b r + 1) * cfg.blockSize - b.first s r) =
        (cfg.lastFull s b r + 1) * cfg.blockSize := by omega
    rw [hend] at hstates
    have hmoved := hpost.window hran.served hcfg hran.postprocess hr ht hcopy hstates.2
    refine ⟨?_, hmoved⟩
    rw [stateId_zero]
    exact hran.served.ids r hr _ (.inl hwrite) t ht

/-- The requests that are not in the batch. -/
theorem step_other (hq : ¬∃ r < b.numReqs, q = b.idxMapping r) :
    computed s b q = s.numComputed q ∧ cfg.finished s b sched (.stateIdx q) = s.stateIdx q ∧
      cfg.finished s b sched (.numAccepted q) = s.numAccepted q := by
  have hne : ∀ r < b.numReqs, q ≠ b.idxMapping r := fun r hr heq => hq ⟨r, hr, heq⟩
  refine ⟨scatter_slot_of_ne hne _ _, prepared_of_ne hcfg hran.served hran.order hne, ?_⟩
  have hslots : q ∉ (Kernel.postprocess (cfg.postprocessArgs s b sched)).acceptedSlots
      (cfg.launch b) cfg.states cfg.numStates := fun h => by
    obtain ⟨r, hr, heq, -⟩ := (mem_acceptedSlots hcfg hinv hran.served hran.order).1 h
    exact hq ⟨r, hr, heq⟩
  rw [finished, if_neg hslots, sampled, scatter_slot_of_ne hne]
  exact prepared_of_ne hcfg hran.served hran.order hne

/-- The accepted tokens of a request of the batch: all drafts up to the end of the block
    are taken into account if it is that of the column of the step. -/
theorem step_numAccepted (hr : r < b.numReqs) :
    cfg.finished s b sched (.numAccepted (b.idxMapping r)) =
      if b.first s r ≤ (cfg.lastFull s b r + 1) * cfg.blockSize ∧
        cfg.curr s b r = cfg.lastFull s b r then 1 else b.accepted r := by
  have hslots : b.idxMapping r ∈ (Kernel.postprocess (cfg.postprocessArgs s b sched)).acceptedSlots
      (cfg.launch b) cfg.states cfg.numStates ↔
      b.first s r ≤ (cfg.lastFull s b r + 1) * cfg.blockSize ∧
        cfg.curr s b r = cfg.lastFull s b r := by
    rw [mem_acceptedSlots hcfg hinv hran.served hran.order]
    constructor
    · rintro ⟨r', hr', heq, hfull⟩
      rwa [hran.served.own r hr r' hr' heq]
    · exact fun hfull => ⟨r, hr, rfl, hfull⟩
  rw [finished]
  simp only [hslots]
  split_ifs
  · rfl
  · exact scatter_slot hran.served hr _ _

/-- The running state of a request of the batch. -/
theorem step_running (hr : r < b.numReqs) (ht : t < cfg.numStates) :
    cfg.Has (runCopies sched.forward sched.postprocess) (s.table (b.idxMapping r)) t
      (cfg.curr s b r) (cfg.finished s b sched (.numAccepted (b.idxMapping r)) - 1)
      (s.ideal (b.idxMapping r) t (b.newComputed s r)) := by
  have haccepted := hran.served.accepted r hr
  have hcopy := postprocess_copy hcfg hinv hran.served hran.order hr
  rw [step_numAccepted hcfg hinv hran hr]
  by_cases hself : b.first s r ≤ (cfg.lastFull s b r + 1) * cfg.blockSize ∧
      cfg.curr s b r = cfg.lastFull s b r
  · -- All tokens are accepted, up to the end of the block of the column.
    have hcurr := (curr_spec hcfg hran.served hr (computed_nonneg hinv hran.served hr)).2
    have hlast := (lastFull_spec (s := s) (b := b) hcfg r).1
    have hnew := (newComputed_bounds hran.served hr).2.2
    have hsaves := step_saves hcfg hinv hran hr ht hself.1
    rw [← hself.2] at hsaves hlast
    rw [if_pos hself, show b.newComputed s r = (cfg.curr s b r + 1) * cfg.blockSize by omega]
    exact hsaves
  · rw [if_neg hself]
    have hstates := step_states hcfg hinv hran hr ht
      (o := b.accepted r - 1) (by omega) (by omega) fun c hc => ?_
    · rwa [show b.first s r + (b.accepted r - 1) = b.newComputed s r by
        unfold AlignBatch.newComputed; omega] at hstates
    · rw [hcopy] at hc
      split_ifs at hc with hskip
      obtain rfl := Option.some.inj hc
      have hle := (lastFull_writable hcfg hinv hran hr (not_lt.1 hskip)).1
      exact lt_of_le_of_ne hle fun heq => hself ⟨not_lt.1 hskip, heq.symm⟩

/-- A saved state stays. -/
theorem step_saved (hlive : s.live q) (hsaved : s.saved q w) (ht : t < cfg.numStates) :
    cfg.Has (runCopies sched.forward sched.postprocess) (s.table q) t w 0
      (s.ideal q t ((w + 1) * cfg.blockSize)) := by
  obtain ⟨-, hle, hhas⟩ := hinv.saved q hlive w hsaved
  have hcol : (if 0 < (cfg.states t).convWidth then w else w + 0) = w := by simp
  refine step_stays hcfg hinv hran ht le_rfl
    (Int.natCast_nonneg _) hlive (hhas t ht) (hcol.symm ▸ .inl hsaved) fun r hr hq hwrite => ?_
  rw [hcol] at hwrite
  subst hq
  exact not_writable_of_full hcfg hran.served hr (hinv.computed _ hlive) hle hwrite

/-- A step keeps the running states and the saved ones, and saves those at the ends of the
    blocks that it has reached. -/
theorem Invariant.batch : cfg.Invariant (cfg.afterBatch s b sched) := by
  have hbs := hcfg.blockSize
  have hnew : ∀ r < b.numReqs, AlignConfig.computed s b (b.idxMapping r) = b.newComputed s r :=
    fun r hr => scatter_slot hran.served hr _ _
  have hcol : ∀ r < b.numReqs, cfg.finished s b sched (.stateIdx (b.idxMapping r)) =
      cfg.curr s b r := fun r hr => prepared_stateIdx hcfg hran.served hran.order hr
  have hmono : ∀ q, s.live q → s.numComputed q ≤ AlignConfig.computed s b q := fun q hq => by
    by_cases hmem : ∃ r < b.numReqs, q = b.idxMapping r
    · obtain ⟨r, hr, rfl⟩ := hmem
      have := newComputed_bounds hran.served hr
      rw [hnew r hr]
      omega
    · exact (step_other hcfg hinv hran hmem).1.ge
  refine ⟨fun q hq => (hinv.computed q hq).trans (hmono q hq), fun q hq hfresh => ?_,
    fun q hq => ?_, fun q hq hpos t ht => ?_, fun q hq w hw => ?_⟩
  · by_cases hmem : ∃ r < b.numReqs, q = b.idxMapping r
    · obtain ⟨r, hr, rfl⟩ := hmem
      have hcomputed := hinv.computed _ hq
      have hcurr := (curr_spec hcfg hran.served hr hcomputed).2
      have hdrafts := hran.served.drafts r hr
      have hpos : 0 < cfg.curr s b r + 1 := pos_of_mul_pos_left (by omega) hbs.le
      have hneg : cfg.curr s b r < 0 := hcol r hr ▸ hfresh
      omega
    · obtain ⟨hc, hi, -⟩ := step_other hcfg hinv hran hmem
      exact hc.trans (hinv.fresh q hq (hi ▸ hfresh))
  · by_cases hmem : ∃ r < b.numReqs, q = b.idxMapping r
    · obtain ⟨r, hr, rfl⟩ := hmem
      have haccepted := hran.served.accepted r hr
      have hdrafts := hran.served.drafts r hr
      change 1 ≤ cfg.finished s b sched (.numAccepted (b.idxMapping r)) ∧
        cfg.finished s b sched (.numAccepted (b.idxMapping r)) ≤ cfg.numSpec + 1
      rw [step_numAccepted hcfg hinv hran hr]
      split_ifs <;> omega
    · obtain ⟨-, -, ha⟩ := step_other hcfg hinv hran hmem
      change 1 ≤ cfg.finished s b sched (.numAccepted q) ∧
        cfg.finished s b sched (.numAccepted q) ≤ cfg.numSpec + 1
      rw [ha]
      exact hinv.accepted q hq
  · by_cases hmem : ∃ r < b.numReqs, q = b.idxMapping r
    · obtain ⟨r, hr, rfl⟩ := hmem
      have hrun := step_running hcfg hinv hran hr ht
      change cfg.Has _ _ t (cfg.finished s b sched (.stateIdx (b.idxMapping r)))
        (cfg.finished s b sched (.numAccepted (b.idxMapping r)) - 1)
        (s.ideal (b.idxMapping r) t (AlignConfig.computed s b (b.idxMapping r)))
      rw [hcol r hr, hnew r hr]
      exact hrun
    · obtain ⟨hc, hi, ha⟩ := step_other hcfg hinv hran hmem
      have hcol : 0 ≤ s.stateIdx q := hi ▸ hpos
      have haccepted := hinv.accepted q hq
      change cfg.Has _ _ t (cfg.finished s b sched (.stateIdx q))
        (cfg.finished s b sched (.numAccepted q) - 1) (s.ideal q t (AlignConfig.computed s b q))
      have hstays := step_stays hcfg hinv hran ht
        (by omega) (by omega) hq (hinv.running q hq hcol t ht) (.inr (running_col hcol))
        fun r hr heq => absurd ⟨r, hr, heq⟩ hmem
      rw [hc, hi, ha]
      exact hstays
  · rcases hw with hw | ⟨r, hr, rfl, rfl, hfull⟩
    · obtain ⟨hpos, hle, -⟩ := hinv.saved q hq w hw
      have hsaved := fun t ht => step_saved hcfg hinv hran
        hq hw (t := t) ht
      exact ⟨hpos, hle.trans (hmono q hq), hsaved⟩
    · have hcomputed := hinv.computed _ hq
      have hbounds := newComputed_bounds hran.served hr
      have hpos : 0 < cfg.lastFull s b r + 1 := pos_of_mul_pos_left (by omega) hbs.le
      have hsaves := fun t ht => step_saves hcfg hinv hran
        hr (t := t) ht hfull
      have hlast := (lastFull_spec (s := s) (b := b) hcfg r).1
      exact ⟨by omega, hlast.trans (hnew r hr).ge, hsaves⟩

end Step

end AlignConfig

end FlashNext.Mamba
