import FlashNext.Mamba.HostStep

/-!
# The host and the kernels

Runs of the first model runner, whose columns are in a dict of the host, against those of the
second one, whose columns the kernels keep.

* `views_of_reachable`: the requests of the host are those of some run by slots;
* `host_agrees`: a step of the host is one by slots, with the same copies;
* `host_finds`: so the model of the host finds the states behind the tokens so far;
* `host_returns`: and the host raises nothing.
-/

namespace FlashNext.Mamba

open Python (Str)

namespace AlignConfig

variable {cfg : AlignConfig} {V : Type*} {h h' : HostRun V} {s : AlignRun V} {id : Str}

/-- The arrays when a request with the column `col` is admitted in the slot `p`. -/
def joined (s : AlignRun V) (p col : Int) : AlignCell → Int
  | .stateIdx q => if q = p then col else s.arrays (.stateIdx q)
  | .numAccepted q => if q = p then 1 else s.arrays (.numAccepted q)
  | k => s.arrays k

/-- The arrays before any request is admitted. -/
noncomputable def vacant (h : HostRun V) : AlignCell → Int
  | .numAccepted q => Function.extend slot h.numAccepted (fun _ => 0) q
  | _ => 0

/-- The slots before any request is admitted. -/
noncomputable def empty (h : HostRun V) : AlignRun V where
  memory := h.memory
  arrays := vacant h
  numComputed _ := 0
  table _ _ _ := 0
  live _ := False
  saved _ _ := False
  ideal _ := h.ideal []

/-- A request that is admitted by the host is so in its slot, also if there is an entry of an
    ended one with its id. -/
theorem Views.join (hcfg : cfg.Sound) (hv : cfg.Views h s) {col : Int} {shared : Int → Prop}
    (hstep : cfg.hostStep h (.join id col shared) h') :
    ∃ s', cfg.alignStep s (.join (slot id) col shared) s' ∧ cfg.Views h' s' := by
  obtain ⟨hnew, hlive, hfresh, hmemory, hdict, hothers, haccepted, hpos, hcomputed, hsaved, hlast,
    hprefix⟩ := hstep
  have hold : ∀ {id'}, h'.live id' ↔ h.live id' ∨ id' = id := fun {id'} => by rw [hlive]
  have hne : ∀ {id'}, id' ≠ id → slot id' ≠ slot id := fun h heq => h (slot_injective heq)
  have hlow : -1 ≤ col := by
    have := pos_of_mul_pos_left (b := cfg.blockSize) (a := col + 2) (by
      rw [show col + 2 = col + 1 + 1 by ring, add_mul, one_mul]
      have := hcfg.blockSize
      omega) hcfg.blockSize.le
    omega
  refine ⟨h'.over s (joined s (slot id) col), ⟨?_, ?_, ?_, fun q hq => ⟨?_, ?_, ?_, ?_, ?_, ?_⟩,
    if_pos rfl, if_pos rfl, ?_, ?_, ?_, hlast, fun w hw => ?_⟩, .over (fun id' => ?_)
      (fun id' hid' => ?_) fun id' hid' => ?_⟩
  · rintro hslot
    obtain ⟨id', heq, hid'⟩ := (hv.live _).1 hslot
    exact hnew (slot_injective heq ▸ hid')
  · funext q
    refine propext ⟨?_, fun hq => ?_⟩
    · rintro ⟨id', heq, hid'⟩
      rcases hold.1 hid' with hid' | rfl
      · exact .inl ((hv.live q).2 ⟨id', heq, hid'⟩)
      · exact .inr heq
    · rcases hq with hq | rfl
      · obtain ⟨id', heq, hid'⟩ := (hv.live q).1 hq
        exact ⟨id', heq, hold.2 (.inl hid')⟩
      · exact ⟨id, rfl, hold.2 (.inr rfl)⟩
  · exact hmemory.trans hv.memory.symm
  · exact extend_slot_of_ne (fun id' h => (hothers id' h).1) hv.table hq
  · exact extend_slot_of_ne (fun id' h => (hothers id' h).2.1) hv.ideal hq
  · exact extend_slot_of_ne (fun id' h => (hothers id' h).2.2.1) hv.computed hq
  · exact extend_slot_of_ne (fun id' h => (hothers id' h).2.2.2.1) hv.saved hq
  · exact if_neg hq
  · exact if_neg hq
  · exact hpos.trans (extend_slot _ _ _).ge
  · exact (extend_slot _ _ _).trans hcomputed
  · exact (extend_slot _ _ _).trans hsaved
  · obtain ⟨hle, id', hid', hw', hsame⟩ := hprefix w hw
    refine ⟨hle, slot id', (hv.live _).2 ⟨id', rfl, hid'⟩, (hv.saved id').symm ▸ hw',
      fun t ht => ?_⟩
    rw [hv.table, hv.ideal]
    change Function.extend slot h'.table s.table (slot id) _ w = _ ∧
      Function.extend slot h'.ideal s.ideal (slot id) t _ = _
    rw [extend_slot, extend_slot]
    exact hsame t ht
  · by_cases hid : id' = id
    · subst hid
      exact (if_pos rfl).trans haccepted.symm
    · exact (if_neg (hne hid)).trans ((hv.accepted id').trans (hothers id' hid).2.2.2.2.symm)
  · by_cases hid : id' = id
    · subst hid
      refine .inl ⟨hfresh ▸ .inr rfl, (if_pos rfl).trans ?_⟩
      rw [hcomputed]
      refine ((Int.ediv_emod_unique (r := cfg.blockSize - 1) hcfg.blockSize).2 ⟨?_, ?_, ?_⟩).1.symm
      · ring
      · have := hcfg.blockSize
        omega
      · omega
    · have hcol : joined s (slot id) col (.stateIdx (slot id')) = s.stateIdx (slot id') :=
        if_neg (hne hid)
      rw [hcol, HostColumn, hfresh, hdict, (hothers id' hid).2.2.1]
      simp only [hid, or_false]
      exact hv.column id' ((hold.1 hid').resolve_right hid)
  · by_cases hid : id' = id
    · subst hid
      exact hlow.trans (if_pos rfl).ge
    · have hlow := hv.le_column id' ((hold.1 hid').resolve_right hid)
      exact hlow.trans (if_neg (hne hid)).ge

/-- What the engine does to the requests of the host it does to their slots. -/
theorem Views.engine (hv : cfg.Views h s) {freed : Str → Int → Prop}
    (hstep : cfg.hostStep h (.engine freed) h') :
    ∃ s', cfg.alignStep s (.engine fun q w => ∃ id, q = slot id ∧ freed id w) s' ∧
      cfg.Views h' s' := by
  obtain ⟨hdict, haccepted, hcomputed, hfresh, hlive, hsaved, hideal, huse⟩ := hstep
  have hcolumn : ∀ {id w}, cfg.HostColumn h' id w ↔ cfg.HostColumn h id w := by
    intro id w
    rw [HostColumn, HostColumn, hfresh, hcomputed, hdict]
  have hviews : cfg.Views h' (h'.over s s.arrays) := by
    refine .over (fun id => ?_) (fun id hid => hcolumn.2 (hv.column id (hlive id hid)))
      fun id hid => hv.le_column id (hlive id hid)
    rw [haccepted]
    exact hv.accepted id
  refine ⟨h'.over s s.arrays, ⟨rfl, ?_, fun q hq => ?_, fun q w => ?_, fun q hq t n hn => ?_,
    fun q hq w hw t ht => ?_⟩, hviews⟩
  · funext q
    by_cases hslot : ∃ id, slot id = q
    · obtain ⟨id, rfl⟩ := hslot
      exact (extend_slot _ _ _).trans (hcomputed ▸ (hv.computed id).symm)
    · exact Function.extend_apply' _ _ _ hslot
  · obtain ⟨id, heq, hid⟩ := hq
    exact (hv.live q).2 ⟨id, heq, hlive id hid⟩
  · by_cases hslot : ∃ id, slot id = q
    · obtain ⟨id, rfl⟩ := hslot
      rw [hviews.saved, hv.saved, hsaved]
      refine and_congr_right fun _ => not_congr ⟨fun hfreed => ⟨id, rfl, hfreed⟩, ?_⟩
      rintro ⟨id', heq, hfreed⟩
      exact slot_injective heq ▸ hfreed
    · have hsame : (h'.over s s.arrays).saved q = s.saved q := Function.extend_apply' _ _ _ hslot
      rw [hsame]
      refine (and_iff_left ?_).symm
      rintro ⟨id, heq, -⟩
      exact hslot ⟨id, heq.symm⟩
  · obtain ⟨id, rfl, hid⟩ := (hv.live q).1 hq
    rw [hviews.ideal, hv.ideal]
    exact hideal id hid t n (hv.computed id ▸ hn)
  · obtain ⟨id, rfl, hid⟩ := hq
    rw [hviews.table, hv.table, hviews.memory, hv.memory]
    exact huse id hid w ((hviews.inUse hid).1 hw) t ht

/-- In every run of the host, its requests are those of some run by slots. -/
theorem views_of_reachable (hcfg : cfg.Sound) (hh : cfg.hostSystem.Reachable h) :
    ∃ s, cfg.alignSystem.Reachable s ∧ cfg.Views h s := by
  refine hh.simulates (fun h hinit => ?_) fun h l h' s hs hv hstep => ?_
  · have hno : ∀ id, ¬h.live id := hinit
    refine ⟨h.over (empty h) (vacant h), ?_, .over (extend_slot h.numAccepted fun _ => 0)
      (fun id hid => absurd hid (hno id)) fun id hid => absurd hid (hno id)⟩
    rintro q ⟨id, -, hid⟩
    exact hno id hid
  · cases l with
    | batch b sched =>
      obtain ⟨hran, rfl⟩ := hstep
      have hinv := invariant_of_reachable hcfg hs
      exact ⟨.batch b.align (sched.align cfg s b), _, ⟨ran_align hcfg hinv hv hran, rfl⟩,
        hv.after hcfg hinv hran⟩
    | join id col shared =>
      obtain ⟨s', hstep', hv'⟩ := hv.join hcfg hstep
      exact ⟨.join (slot id) col shared, s', hstep', hv'⟩
    | engine freed =>
      obtain ⟨s', hstep', hv'⟩ := hv.engine hstep
      exact ⟨.engine fun q w => ∃ id, q = slot id ∧ freed id w, s', hstep', hv'⟩

variable {b : HostBatch} {sched : HostSchedule V}

/-- Every step of the host is one of some run by slots, with the same memory, requests and
    columns before and behind it; what the two kernels copy is the same, and the model is
    given the same columns and accepted tokens. -/
theorem host_agrees (hcfg : cfg.Sound) (hocc : cfg.hostSystem.Occurs h (.batch b sched) h') :
    ∃ s s', cfg.alignSystem.Occurs s (.batch b.align (sched.align cfg s b)) s' ∧ cfg.Views h s ∧
      cfg.Views h' s' ∧ ∀ r < b.reqIds.length,
        (hostPrecopy sched).copy r = (cfg.precopy s b.align (sched.align cfg s b)).copy r ∧
        (Kernel.postprocess (cfg.hostPostprocess b sched)).copy r =
          (Kernel.postprocess (cfg.postprocessArgs s b.align (sched.align cfg s b))).copy r ∧
        column sched.rows (·.stateIdx) r =
          cfg.prepared s b.align (sched.align cfg s b) (.stateIdx (slot (b.reqId r))) ∧
        column sched.rows (·.numAcceptedTokens) r =
          cfg.prepared s b.align (sched.align cfg s b) (.numAccepted (slot (b.reqId r))) := by
  obtain ⟨hreach, hran, rfl⟩ := hocc
  obtain ⟨s, hs, hv⟩ := views_of_reachable hcfg hreach
  have hinv := invariant_of_reachable hcfg hs
  refine ⟨s, _, ⟨hs, ran_align hcfg hinv hv hran, rfl⟩, hv, hv.after hcfg hinv hran,
    fun r hr => ⟨precopy_align hcfg hinv hv hran hr, postprocess_align hcfg hinv hv hran hr, ?_⟩⟩
  obtain ⟨hstate, haccepted⟩ := prepared_align hcfg hinv hv hran hr
  exact ⟨hstate.symm, haccepted.symm⟩

/-- In every run of the host, the model finds for every request of a batch the states behind
    the tokens so far, and a saved column has the states of the end of its block. -/
theorem host_finds (hcfg : cfg.Sound) (hocc : cfg.hostSystem.Occurs h (.batch b sched) h') :
    (∀ r < b.reqIds.length, ∀ t < cfg.numStates, 0 < h.numComputed (b.reqId r) →
      cfg.At (runCopies h.memory sched.precopy) (h.table (b.reqId r)) t
        (column sched.rows (·.stateIdx) r) (column sched.rows (·.numAcceptedTokens) r - 1)
        (h.ideal (b.reqId r) t (h.numComputed (b.reqId r)))) ∧
    ∀ id, h'.live id → ∀ w, h'.saved id w → ∀ t < cfg.numStates,
      cfg.At h'.memory (h'.table id) t w 0 (h'.ideal id t ((w + 1) * cfg.blockSize)) := by
  obtain ⟨hreach, hran, rfl⟩ := hocc
  obtain ⟨s, hs, hv⟩ := views_of_reachable hcfg hreach
  have hinv := invariant_of_reachable hcfg hs
  have hran' := ran_align hcfg hinv hv hran
  have hv' := hv.after hcfg hinv hran
  refine ⟨fun r hr t ht hpos => ?_, fun id hid w hw t ht => ?_⟩
  · have hslot : b.align.idxMapping r = slot (b.reqId r) := rfl
    obtain ⟨hstate, haccepted⟩ := prepared_align hcfg hinv hv hran hr
    have hcol : 0 ≤ s.stateIdx (slot (b.reqId r)) := by
      by_contra hcol
      have := hinv.fresh _ (hran'.served.live r hr) (not_le.1 hcol)
      rw [hslot, hv.computed] at this
      omega
    have hfound := copied_running hcfg hinv hran' hr hcol ht
    rw [hslot, hstate, haccepted, hv.computed, hv.table, hv.ideal, copied, hv.memory] at hfound
    exact hfound
  · have hsaved := ((hinv.batch hcfg hran').saved _ ((hv'.live _).2 ⟨id, rfl, hid⟩) w
      ((hv'.saved id).symm ▸ hw)).2.2 t ht
    rw [hv'.memory, hv'.table, hv'.ideal] at hsaved
    exact hsaved.2

/-- In every run of the host, the preparation of a batch that is served returns, and so does
    the staging behind it: no assertion fails, and no entry is missing. -/
theorem host_returns (hcfg : cfg.Sound) (hreach : cfg.hostSystem.Reachable h)
    (hserved : cfg.HostServed h b) : ∃ idx rows staged,
      (cfg.hostArgs b).preprocessMamba h.mambaStateIdx (h.reqs b) = .ok (idx, rows) ∧
      (cfg.hostArgs b).stagePostprocessInputsToGpu idx b.reqIds = .ok staged ∧
      rows.length = b.reqIds.length ∧ staged.length = b.reqIds.length := by
  obtain ⟨s, hs, hv⟩ := views_of_reachable hcfg hreach
  have hinv := invariant_of_reachable hcfg hs
  exact ⟨_, _, _, prepared_of_served hinv hv hserved,
    HostArgs.stageRows_spec (fun id hid => hserved.knows hid) fun id hid => if_pos hid,
    by simp [HostRun.reqs], List.length_map _⟩

end AlignConfig

/-- The request of the sample. -/
def requestA : Str := Python.str "a"

/-- The request is admitted while there is an entry of an ended one with its id. -/
def hostRequest : HostRun Int where
  memory _ := 0
  mambaStateIdx _ := some 5
  numAccepted _ := 1
  numComputed _ := 0
  table _ _ w := w
  live id := id = requestA
  fresh id := id = requestA
  saved _ _ := False
  ideal _ _ n _ := n

/-- A step of some tokens of the request, which has its blocks in order. -/
def hostTokens (computed len : Int) (ended : List Str) : HostBatch where
  out := ⟨ended, none, [], fun _ => some len, fun _ => none⟩
  reqIds := [requestA]
  requests _ := some computed
  accepted _ := 1
  blockTable _ x := x

/-- What the host and the kernels do in a step, with a model that leaves the number of tokens
    in the column `w`. -/
def hostCounting (h : HostRun Int) (b : HostBatch) (w n : Int) : HostSchedule Int :=
  let prepared := ((oneByte.hostArgs b).preprocessMamba h.mambaStateIdx (h.reqs b)).toOption.getD
    (fun _ => none, [])
  let staged := ((oneByte.hostArgs b).stagePostprocessInputsToGpu prepared.1
    b.reqIds).toOption.getD []
  let precopy := ((Kernel.precopy (hostPrecopyArgs prepared.2)).groups (oneByte.hostLaunch b)
    oneByte.states oneByte.numStates).flatten.flatten
  { mambaStateIdx := prepared.1
    rows := prepared.2
    staged := staged
    precopy := precopy
    forward := fun a => if a = w then n else runCopies h.memory precopy a
    postprocess := ((Kernel.postprocess (hostPostprocessArgs staged
      (fun r => b.accepted (b.reqId r)) oneByte.blockSize)).groups (oneByte.hostLaunch b)
      oneByte.states oneByte.numStates).flatten.flatten }

theorem hostServed_hostTokens {h : HostRun Int} {computed len : Int} {ended : List Str}
    (hlen : 0 < len) (hlive : h.live = hostRequest.live) (htable : h.table = hostRequest.table)
    (hcomputed : h.numComputed requestA = computed)
    (hended : ∀ id ∈ ended, h.live id → h.fresh id) (hcleaned : h.fresh requestA → requestA ∈ ended)
    (hcols : ∀ w, oneByte.HostReached h (hostTokens computed len ended) requestA w →
      0 ≤ w ∧ w < 8) : oneByte.HostServed h (hostTokens computed len ended) := by
  have hid : ∀ id ∈ (hostTokens computed len ended).reqIds, id = requestA := fun id h =>
    List.mem_singleton.1 h
  have hout : (hostTokens computed len ended).out.ended = ended := by
    simp [hostTokens, SchedulerOutput.ended]
  refine ⟨fun id h => ?_, List.nodup_singleton _, fun id h => ?_, fun id _ => rfl, fun id _ => ?_,
    fun id _ => ⟨le_rfl, le_rfl⟩, fun id h => hended id (hout ▸ h), fun id h hfresh _ => ?_,
    fun r hr w _ t _ => ?_, fun id h w hw t _ => ?_, fun id h w _ id' hlive' w' _ t _ heq => ?_⟩
  · rw [hlive]
    exact hid id h
  · rw [hid id h, hcomputed]
    rfl
  · exact ⟨hlen, le_rfl⟩
  · rw [hout, hid id h]
    exact hcleaned (hid id h ▸ hfresh)
  · obtain rfl : r = 0 := Nat.lt_one_iff.1 hr
    rw [htable]
    exact Int.zero_add w
  · rw [htable]
    exact hcols w (hid id h ▸ hw)
  · rw [hlive] at hlive'
    rw [htable] at heq
    exact ⟨(hid id h).symm ▸ hlive', heq⟩

theorem hostForward_hostCounting {h : HostRun Int} {computed len w : Int} {ended : List Str}
    (htable : h.table = hostRequest.table) (hideal : h.ideal = hostRequest.ideal)
    (hcomputed : h.numComputed requestA = computed)
    (hw : column (hostCounting h (hostTokens computed len ended) w (computed + len)).rows
      (·.stateIdx) (0 : Nat) = w) :
    oneByte.HostForward h (hostTokens computed len ended)
      (hostCounting h (hostTokens computed len ended) w (computed + len)) := by
  have hrow : ∀ r < (hostTokens computed len ended).reqIds.length, r = 0 :=
    fun r hr => Nat.lt_one_iff.1 hr
  refine ⟨fun r hr t _ _ o ho hdrafts => ?_, fun a ha => ?_⟩
  · obtain rfl := hrow r hr
    obtain rfl : o = 0 := le_antisymm hdrafts ho
    rw [hideal, htable, hw]
    change ∀ pos, (∃ k < 1, pos = ((k : Nat) : Int)) → _
    rintro pos ⟨k, hk, rfl⟩
    obtain rfl : k = 0 := by omega
    have haddr : (oneByte.states t).blockAddr (oneByte.stateId (hostRequest.table requestA) t w 0) +
        (oneByte.states t).offsetBytes oneByte.layout 0 + (0 : Nat) = w := by
      simp [oneByte, AlignConfig.stateId, hostRequest, MambaState.blockAddr,
        MambaState.offsetBytes]
    have hfirst : h.first (hostTokens computed len ended) requestA + 0 = computed + len := by
      rw [HostRun.first, hcomputed]
      simp [HostBatch.scheduled, HostBatch.drafts, hostTokens]
    exact (if_pos haddr).trans hfirst.symm
  · refine if_neg fun heq => ha 0 Nat.one_pos 0 Nat.one_pos 0 le_rfl le_rfl ?_
    subst heq
    rw [hw, htable]
    have haddr : (oneByte.states 0).blockAddr (oneByte.stateId (hostRequest.table requestA) 0 a 0) =
        a := by
      simp [oneByte, AlignConfig.stateId, hostRequest, MambaState.blockAddr]
    change (oneByte.states 0).InBlock (oneByte.stateId (hostRequest.table requestA) 0 a 0) a
    rw [MambaState.InBlock, haddr]
    exact ⟨le_rfl, Int.lt_add_one_of_le le_rfl⟩

/-- Two tokens, which fill the first block. -/
def hostFirst : HostSchedule Int := hostCounting hostRequest (hostTokens 0 2 [requestA]) 0 2

/-- The request behind them. -/
def hostAfterFirst : HostRun Int :=
  oneByte.hostAfter hostRequest (hostTokens 0 2 [requestA]) hostFirst

/-- A third token. -/
def hostSecond : HostSchedule Int := hostCounting hostAfterFirst (hostTokens 2 1 []) 1 3

theorem hostRan_first : oneByte.HostRan hostRequest (hostTokens 0 2 [requestA]) hostFirst where
  served := hostServed_hostTokens (by decide) rfl rfl rfl (fun id h _ => List.mem_singleton.1 h)
    (fun _ => List.mem_singleton_self _) fun w hw => by
      rcases hw with (⟨hlow, hhigh⟩ | ⟨hlast, -⟩) | ⟨c, ⟨-, rfl⟩ | ⟨hold, -⟩, hpos, -⟩
      · change 0 ≤ w at hlow
        change w ≤ 0 + 0 at hhigh
        omega
      · change w = 0 at hlast
        omega
      · exact absurd hpos (by decide)
      · exact absurd rfl hold
  prepared := rfl
  staged := rfl
  precopy := Interleaving.flatten _
  forward := hostForward_hostCounting rfl rfl rfl rfl
  postprocess := Interleaving.flatten _

theorem hostRan_second : oneByte.HostRan hostAfterFirst (hostTokens 2 1 []) hostSecond where
  served := hostServed_hostTokens (by decide) rfl rfl rfl (fun _ h => by cases h)
    (fun h => absurd (List.mem_singleton_self _) h.2) fun w hw => by
      rcases hw with (⟨hlow, hhigh⟩ | ⟨hlast, -⟩) | ⟨c, ⟨h, -⟩ | ⟨-, hc⟩, -, hrun⟩
      · change 1 ≤ w at hlow
        change w ≤ 1 + 0 at hhigh
        omega
      · change w = 0 at hlast
        omega
      · exact absurd (List.mem_singleton_self _) h.2
      · obtain rfl : 0 = c := Option.some.inj hc
        change w = 0 ∨ w = 0 + (1 - 1) at hrun
        omega
  prepared := rfl
  staged := rfl
  precopy := Interleaving.flatten _
  forward := hostForward_hostCounting rfl rfl rfl rfl
  postprocess := Interleaving.flatten _

theorem reachable_hostRequest : oneByte.hostSystem.Reachable hostRequest := by
  have hstart : oneByte.hostSystem.Reachable
      { hostRequest with live := fun _ => False, fresh := fun _ => False } :=
    .init fun _ => not_false
  refine hstart.step (a := .join requestA (-1) fun _ => False) ⟨not_false, ?_, ?_, rfl, rfl,
    fun _ _ => ⟨rfl, rfl, rfl, rfl, rfl⟩, rfl, le_rfl, rfl, rfl, fun h => absurd h (by decide),
    fun _ h => h.elim⟩ <;>
  · funext id
    simp [hostRequest]

theorem reachable_hostAfterFirst : oneByte.hostSystem.Reachable hostAfterFirst :=
  reachable_hostRequest.step (a := .batch (hostTokens 0 2 [requestA]) hostFirst)
    ⟨hostRan_first, rfl⟩

namespace AlignConfig

/-- The third token is in the second block, to which its state is copied. -/
theorem host_finds_thirdToken : runCopies hostAfterFirst.memory hostSecond.precopy 1 = 2 :=
  (host_finds sound_oneByte (b := hostTokens 2 1 [])
    ⟨reachable_hostAfterFirst, hostRan_second, rfl⟩).1 0 Nat.one_pos 0 Nat.one_pos (by decide) 0
    ⟨0, by decide, rfl⟩

/-- The copy of the third token is the one that the kernels would decide on. -/
theorem host_agrees_thirdToken : ∃ s s', oneByte.alignSystem.Occurs s
    (.batch (hostTokens 2 1 []).align (hostSecond.align oneByte s (hostTokens 2 1 []))) s' ∧
      s.memory = hostAfterFirst.memory := by
  obtain ⟨s, s', hocc, hv, -⟩ := host_agrees sound_oneByte (b := hostTokens 2 1 [])
    ⟨reachable_hostAfterFirst, hostRan_second, rfl⟩
  exact ⟨s, s', hocc, hv.memory⟩

/-- The entry of the ended request is dropped. -/
theorem host_returns_firstStep : ∃ idx rows,
    (oneByte.hostArgs (hostTokens 0 2 [requestA])).preprocessMamba hostRequest.mambaStateIdx
      (hostRequest.reqs (hostTokens 0 2 [requestA])) = .ok (idx, rows) := by
  obtain ⟨idx, rows, -, h, -⟩ := host_returns sound_oneByte reachable_hostRequest
    hostRan_first.served
  exact ⟨idx, rows, h⟩

end AlignConfig

end FlashNext.Mamba
