import FlashNext.Mamba.AlignInvariant

/-!
# Runs with aligned states

* `invariant_of_reachable`: in every reachable state, the running states and the saved ones
  are where the arrays say;
* `forward_finds`: so the model finds the states behind the tokens so far;
* `saved_of_reachable` and `full_of_reachable`: a saved column has the state of the end of
  its block, and every full block is saved if no chunk goes beyond the end of a block.
-/

namespace FlashNext.Mamba

namespace AlignConfig

variable {V : Type*} {cfg : AlignConfig} {s : AlignRun V} {m m' : Int → V} {t : Nat}
  {q i off : Int} {x : Int → V}

/-- A state stays where it is if its block does, with what it holds. -/
theorem Has.congr (hcfg : cfg.Sound) (ht : t < cfg.numStates) {table table' : Nat → Int → Int}
    (h : cfg.Has m table t i off x) (hoff : 0 ≤ off) (hspec : off ≤ cfg.numSpec)
    (hid : cfg.stateId table' t i off = cfg.stateId table t i off)
    (hm : ∀ a, (cfg.states t).InBlock (cfg.stateId table t i off) a → m' a = m a) :
    cfg.Has m' table' t i off x := by
  refine ⟨hid ▸ h.1, ?_⟩
  rw [At, hid]
  intro pos hpos
  exact (hm _ (hpos.inBlock (hcfg.fits t ht) hoff (room hcfg ht hspec) _)).trans (h.2 pos hpos)

variable {s' : AlignRun V}

/-- A request is admitted with the saved columns of others. -/
theorem Invariant.join (hcfg : cfg.Sound) (hinv : cfg.Invariant s)
    {col : Int} {shared : Int → Prop} (hstep : cfg.alignStep s (.join q col shared) s') :
    cfg.Invariant s' := by
  obtain ⟨-, hlive, hmem, hothers, rfl, haccepted, hpos, hcomputed, rfl, hlast, hprefix⟩ := hstep
  have hbs := hcfg.blockSize
  -- A saved column of the request is one of another request.
  have hshared : ∀ w, s'.saved q w → 0 ≤ w ∧ ∀ t < cfg.numStates,
      cfg.Has s'.memory (s'.table q) t w 0 (s'.ideal q t ((w + 1) * cfg.blockSize)) := by
    intro w hw
    obtain ⟨-, q', hq', hsaved, hsame⟩ := hprefix w hw
    obtain ⟨hw, -, hhas⟩ := hinv.saved q' hq' w hsaved
    refine ⟨hw, fun t ht => ?_⟩
    obtain ⟨htable, hideal⟩ := hsame t ht
    rw [hideal, hmem]
    refine (hhas t ht).congr hcfg ht le_rfl (Int.natCast_nonneg _) ?_ fun _ _ => rfl
    rwa [stateId_zero, stateId_zero]
  have hold : ∀ {q'}, s'.live q' → q' ≠ q → s.live q' := fun h hne => by
    rw [hlive] at h
    exact h.resolve_right hne
  refine ⟨fun q' hq' => ?_, fun q' hq' hfresh => ?_, fun q' hq' => ?_, fun q' hq' hcol t ht => ?_,
    fun q' hq' w hw => ?_⟩ <;> by_cases hne : q' = q
  · exact hne ▸ hpos
  · rw [(hothers q' hne).2.2.1]
    exact hinv.computed q' (hold hq' hne)
  · subst hne
    have hcol : s'.stateIdx q' + 1 ≤ 0 := by omega
    have := mul_nonpos_of_nonpos_of_nonneg hcol hbs.le
    omega
  · obtain ⟨-, -, hc, -, hi, -⟩ := hothers q' hne
    rw [hc]
    exact hinv.fresh q' (hold hq' hne) (hi ▸ hfresh)
  · subst hne
    omega
  · rw [(hothers q' hne).2.2.2.2.2]
    exact hinv.accepted q' (hold hq' hne)
  · subst hne
    rw [haccepted, hcomputed]
    exact (hshared _ (hlast hcol)).2 t ht
  · obtain ⟨htable, hideal, hc, -, hi, ha⟩ := hothers q' hne
    rw [hmem, htable, hideal, hc, hi, ha]
    exact hinv.running q' (hold hq' hne) (hi ▸ hcol) t ht
  · subst hne
    obtain ⟨hle, -⟩ := hprefix w hw
    refine ⟨(hshared w hw).1, ?_, (hshared w hw).2⟩
    rw [hcomputed]
    exact mul_le_mul_of_nonneg_right (by omega) hbs.le
  · obtain ⟨htable, hideal, hc, hsaved, -, -⟩ := hothers q' hne
    rw [hmem, htable, hideal, hc]
    exact hinv.saved q' (hold hq' hne) w (hsaved ▸ hw)

/-- What the engine does leaves the columns in use. -/
theorem Invariant.engine (hcfg : cfg.Sound) (hinv : cfg.Invariant s)
    {freed : Int → Int → Prop} (hstep : cfg.alignStep s (.engine freed) s') : cfg.Invariant s' := by
  obtain ⟨harrays, hcomputed, hlive, hsaved, hideal, huse⟩ := hstep
  have hi : ∀ q, s'.stateIdx q = s.stateIdx q := fun q => congrFun harrays _
  have ha : ∀ q, s'.numAccepted q = s.numAccepted q := fun q => congrFun harrays _
  have hstays : ∀ q, s'.live q → ∀ t < cfg.numStates, ∀ (i off : Int) (x : Int → V), 0 ≤ off →
      off ≤ cfg.numSpec → s'.InUse q (if 0 < (cfg.states t).convWidth then i else i + off) →
      cfg.Has s.memory (s.table q) t i off x → cfg.Has s'.memory (s'.table q) t i off x :=
    fun q hq t ht i off x hoff hspec hcol h => by
      obtain ⟨htable, hm⟩ := huse q hq _ hcol t ht
      exact h.congr hcfg ht hoff hspec htable hm
  refine ⟨fun q hq => ?_, fun q hq hfresh => ?_, fun q hq => ?_, fun q hq hcol t ht => ?_,
    fun q hq w hw => ?_⟩
  · exact hcomputed ▸ hinv.computed q (hlive q hq)
  · exact hcomputed ▸ hinv.fresh q (hlive q hq) (hi q ▸ hfresh)
  · exact ha q ▸ hinv.accepted q (hlive q hq)
  · have hcol' : 0 ≤ s.stateIdx q := hi q ▸ hcol
    have haccepted := hinv.accepted q (hlive q hq)
    have hrun := hinv.running q (hlive q hq) hcol' t ht
    rw [← hideal q (hlive q hq) t _ le_rfl, ← hcomputed, ← hi q, ← ha q] at hrun
    refine hstays q hq t ht _ _ _ ?_ ?_ (.inr (running_col hcol)) hrun <;> rw [ha q] <;> omega
  · obtain ⟨hpos, hle, hhas⟩ := hinv.saved q (hlive q hq) w ((hsaved q w).1 hw).1
    refine ⟨hpos, hcomputed ▸ hle, fun t ht => ?_⟩
    have hcol : (if 0 < (cfg.states t).convWidth then w else w + 0) = w := by simp
    rw [hideal q (hlive q hq) t _ hle]
    exact hstays q hq t ht _ _ _ le_rfl (Int.natCast_nonneg _) (hcol.symm ▸ .inl hw) (hhas t ht)

/-- In every reachable state, the running states and the saved ones are where the arrays
    say. -/
theorem invariant_of_reachable (hcfg : cfg.Sound) (hs : cfg.alignSystem.Reachable s) :
    cfg.Invariant s := by
  refine hs.invariant (fun s hinit => ?_) fun s l s' hinv hstep => ?_
  · exact ⟨fun q hq => absurd hq (hinit q), fun q hq => absurd hq (hinit q),
      fun q hq => absurd hq (hinit q), fun q hq => absurd hq (hinit q),
      fun q hq => absurd hq (hinit q)⟩
  · cases l with
    | batch b sched =>
      obtain ⟨hran, rfl⟩ := hstep
      exact hinv.batch hcfg hran
    | join q col shared => exact hinv.join hcfg hstep
    | engine freed => exact hinv.engine hcfg hstep

/-- In every run, the model finds for every request of a batch the states behind the tokens
    so far: where the drafts of the last step were rejected, where the next step is in
    another block, and where others have had the same prefix. -/
theorem forward_finds {b : AlignBatch} {sched : AlignSchedule V} (hcfg : cfg.Sound)
    (h : cfg.alignSystem.Occurs s (.batch b sched) s') {r t : Nat} (hr : r < b.numReqs)
    (ht : t < cfg.numStates) (hpos : 0 < s.numComputed (b.idxMapping r)) :
    cfg.At (copied s sched) (s.table (b.idxMapping r)) t
      (cfg.prepared s b sched (.stateIdx (b.idxMapping r)))
      (cfg.prepared s b sched (.numAccepted (b.idxMapping r)) - 1)
      (s.ideal (b.idxMapping r) t (s.numComputed (b.idxMapping r))) := by
  obtain ⟨hreach, hran, -⟩ := h
  have hinv := invariant_of_reachable hcfg hreach
  refine copied_running hcfg hinv hran hr ?_ ht
  by_contra hcol
  have := hinv.fresh _ (hran.served.live r hr) (not_le.1 hcol)
  omega

/-- A saved column has the states of the end of its block, whatever has been done since. -/
theorem saved_of_reachable (hcfg : cfg.Sound) (hs : cfg.alignSystem.Reachable s) {q w : Int}
    (hlive : s.live q) (hsaved : s.saved q w) {t : Nat} (ht : t < cfg.numStates) :
    cfg.At s.memory (s.table q) t w 0 (s.ideal q t ((w + 1) * cfg.blockSize)) :=
  (((invariant_of_reachable hcfg hs).saved q hlive w hsaved).2.2 t ht).2

/-- The steps that leave no full block without its states: the first tokens of a chunk do not
    go beyond the end of the next block, there are less drafts than a block has tokens, a
    prefix is shared as a whole, and no saved column is freed. -/
def KeepsFull (s : AlignRun V) : AlignLabel V → Prop
  | .batch b _ => ∀ r < b.numReqs, b.drafts r < cfg.blockSize ∧
      b.first s r ≤ (s.numComputed (b.idxMapping r) / cfg.blockSize + 1) * cfg.blockSize
  | .join _ col shared => ∀ w, 0 ≤ w → w ≤ col → shared w
  | .engine freed => ∀ q w, ¬freed q w

/-- A block that gets full in such a step is the next one, and the last one that is full. -/
theorem lastFull_next (hcfg : cfg.Sound) {b : AlignBatch} (hserved : cfg.Served s b) {r : Nat}
    (hr : r < b.numReqs) (hdrafts : b.drafts r < cfg.blockSize)
    (hchunk : b.first s r ≤ (s.numComputed (b.idxMapping r) / cfg.blockSize + 1) * cfg.blockSize)
    {w : Int} (hold : s.numComputed (b.idxMapping r) < (w + 1) * cfg.blockSize)
    (hfull : (w + 1) * cfg.blockSize ≤ b.newComputed s r) :
    w = cfg.lastFull s b r ∧ b.first s r ≤ (w + 1) * cfg.blockSize := by
  have hbs := hcfg.blockSize
  have haccepted := hserved.accepted r hr
  have hlast := lastFull_spec (s := s) (b := b) hcfg r
  have hfloor := Int.ediv_mul_le (s.numComputed (b.idxMapping r)) hbs.ne'
  have hlow : s.numComputed (b.idxMapping r) / cfg.blockSize < w + 1 :=
    lt_of_mul_lt_mul_right (hfloor.trans_lt hold) hbs.le
  have hchunk : b.first s r ≤ (w + 1) * cfg.blockSize :=
    hchunk.trans (mul_le_mul_of_nonneg_right (by omega) hbs.le)
  refine ⟨?_, hchunk⟩
  have hlt : w + 1 < cfg.lastFull s b r + 2 :=
    lt_of_mul_lt_mul_right (hfull.trans_lt hlast.2) hbs.le
  have hle : cfg.lastFull s b r + 1 < w + 2 := by
    refine lt_of_mul_lt_mul_right (hlast.1.trans_lt ?_) hbs.le
    rw [show w + 2 = w + 1 + 1 by ring, add_mul _ 1, one_mul, AlignBatch.newComputed]
    omega
  omega

/-- In the runs of such steps, every full block of a request is saved. -/
theorem full_of_reachable (hcfg : cfg.Sound)
    (hs : (cfg.alignSystem.restrict cfg.KeepsFull).Reachable s) {q w : Int} (hlive : s.live q)
    (hw : 0 ≤ w) (hfull : (w + 1) * cfg.blockSize ≤ s.numComputed q) : s.saved q w := by
  have hbs := hcfg.blockSize
  refine (hs.invariant (P := fun s => cfg.alignSystem.Reachable s ∧ ∀ q, s.live q → ∀ w, 0 ≤ w →
    (w + 1) * cfg.blockSize ≤ s.numComputed q → s.saved q w) (fun s hinit => ?_)
    fun s l s' ⟨hreach, hsaved⟩ ⟨hkeeps, hstep⟩ => ⟨hreach.step hstep, ?_⟩).2 q hlive w hw hfull
  · exact ⟨.init hinit, fun q hq => absurd hq (hinit q)⟩
  · have hinv := invariant_of_reachable hcfg hreach
    cases l with
    | batch b sched =>
      obtain ⟨hran, rfl⟩ := hstep
      intro q hq w hw hfull
      by_cases hmem : ∃ r < b.numReqs, q = b.idxMapping r
      · obtain ⟨r, hr, rfl⟩ := hmem
        by_cases hold : (w + 1) * cfg.blockSize ≤ s.numComputed (b.idxMapping r)
        · exact .inl (hsaved _ hq w hw hold)
        · have hnew : computed s b (b.idxMapping r) = b.newComputed s r :=
            scatter_slot hran.served hr _ _
          have hnext := lastFull_next hcfg hran.served hr (hkeeps r hr).1 (hkeeps r hr).2
            (not_le.1 hold) (hfull.trans hnew.le)
          exact .inr ⟨r, hr, rfl, hnext⟩
      · obtain ⟨hc, -⟩ := step_other hcfg hinv hran hmem
        exact .inl (hsaved q hq w hw (hc ▸ hfull))
    | join q col shared =>
      obtain ⟨-, hlive, -, hothers, -, -, -, hcomputed, rfl, -⟩ := hstep
      intro q' hq' w hw hfull
      by_cases hne : q' = q
      · subst hne
        rw [hcomputed] at hfull
        have := le_of_mul_le_mul_right hfull hbs
        exact hkeeps w hw (by omega)
      · obtain ⟨-, -, hc, hsame, -⟩ := hothers q' hne
        rw [hsame]
        rw [hlive] at hq'
        exact hsaved q' (hq'.resolve_right hne) w hw (hc ▸ hfull)
    | engine freed =>
      obtain ⟨-, hcomputed, hlive, hiff, -⟩ := hstep
      intro q hq w hw hfull
      exact (hiff q w).2 ⟨hsaved q (hlive q hq) w hw (hcomputed ▸ hfull), hkeeps q w⟩

end AlignConfig

/-- A temporal state of one byte, in blocks of two tokens. -/
def oneByte : AlignConfig where
  states _ := ⟨0, 1, 1, 1, 0, 0, 0, 0, 8⟩
  numStates := 1
  layout := ⟨fun _ _ => 0, 4, 1, false, 1⟩
  lanes := 1
  blockSize := 2
  numSpec := 0

/-- A step of some tokens of the request `0`, which has its blocks in order. -/
def someTokens (len : Int) : AlignBatch where
  numReqs := 1
  idxMapping _ := 0
  queryStartLoc r := r * len
  drafts _ := 0
  accepted _ := 1
  blockTable _ x := x

/-- The model leaves the number of tokens in the column `w`. -/
def counting (w n : Int) (precopy : List (List (Int × Int))) (s : AlignRun Int) :
    AlignSchedule Int where
  order := [0]
  precopy := precopy
  forward a := if a = w then n else runCopies s.memory precopy a
  postprocess := []

/-- The request `0`, without a token. -/
def newRequest : AlignRun Int where
  memory _ := 0
  arrays
    | .numAccepted _ => 1
    | _ => -1
  numComputed _ := 0
  table _ _ w := w
  live q := q = 0
  saved _ _ := False
  ideal _ _ n _ := n

theorem sound_oneByte : oneByte.Sound where
  blockSize := by decide
  lanes := by decide
  block := by decide
  tiles := by decide
  states := by decide
  fits _ _ := show 1 * 1 ≤ 1 by decide
  rows _ _ h := by cases h
  pools t ht t' ht' hne := by
    change t < 1 at ht
    change t' < 1 at ht'
    omega
  spec _ _ h := absurd h (Nat.lt_irrefl 0)

theorem served_someTokens {s : AlignRun Int} {len : Int} (hlen : 0 < len)
    (hlive : s.live = newRequest.live) (htable : s.table = newRequest.table)
    (hcols : ∀ w, oneByte.Reached s (someTokens len) 0 w → 0 ≤ w ∧ w < 8) :
    oneByte.Served s (someTokens len) := by
  have hrow : ∀ r < (someTokens len).numReqs, r = 0 := fun r hr => Nat.lt_one_iff.1 hr
  refine ⟨fun r _ => ?_, fun r _ => le_rfl, fun r hr r' hr' _ => ?_, fun r hr => ?_,
    fun r _ => ⟨le_rfl, le_rfl⟩, fun r hr w _ t _ => ?_, fun r hr w hw t _ => ?_,
    fun r _ w _ q hq w' _ t _ heq => ?_⟩
  · rw [hlive]
    rfl
  · rw [hrow r hr, hrow r' hr']
  · obtain rfl := hrow r hr
    simpa [someTokens, AlignBatch.len] using hlen
  · obtain rfl := hrow r hr
    rw [htable]
    exact Int.zero_add w
  · obtain rfl := hrow r hr
    rw [htable]
    exact hcols w hw
  · rw [hlive] at hq
    rw [htable] at heq
    exact ⟨hq, heq⟩

theorem forward_counting {s : AlignRun Int} {len w : Int} {precopy : List (List (Int × Int))}
    (htable : s.table = newRequest.table) (hideal : s.ideal = newRequest.ideal)
    (hw : oneByte.prepared s (someTokens len) (counting w (s.numComputed 0 + len) precopy s)
      (.stateIdx 0) = w) :
    oneByte.Forward s (someTokens len) (counting w (s.numComputed 0 + len) precopy s) := by
  refine ⟨fun r hr t _ _ o ho hdrafts => ?_, fun a ha => ?_⟩
  · obtain rfl : r = 0 := Nat.lt_one_iff.1 hr
    obtain rfl : o = 0 := le_antisymm hdrafts ho
    rw [hideal, htable]
    change ∀ pos, (∃ k < 1, pos = ((k : Nat) : Int)) → _
    rintro pos ⟨k, hk, rfl⟩
    obtain rfl : k = 0 := by omega
    have haddr : (oneByte.states t).blockAddr (oneByte.stateId (newRequest.table 0) t
        (oneByte.prepared s (someTokens len) (counting w (s.numComputed 0 + len) precopy s)
          (.stateIdx 0)) 0) + (oneByte.states t).offsetBytes oneByte.layout 0 + (0 : Nat) = w := by
      rw [hw]
      simp [oneByte, AlignConfig.stateId, newRequest, MambaState.blockAddr, MambaState.offsetBytes]
    refine (if_pos haddr).trans ?_
    simp [newRequest, AlignBatch.first, AlignBatch.len, someTokens]
  · refine if_neg fun heq => ha 0 Nat.one_pos 0 Nat.one_pos 0 le_rfl le_rfl ?_
    subst heq
    change _ ∧ _
    have haddr : (oneByte.states 0).blockAddr (oneByte.stateId (s.table 0) 0
        (oneByte.prepared s (someTokens len) (counting a (s.numComputed 0 + len) precopy s)
          (.stateIdx 0)) 0) = a := by
      rw [hw, htable]
      simp [oneByte, AlignConfig.stateId, newRequest, MambaState.blockAddr]
    exact ⟨haddr.le, haddr ▸ Int.lt_add_one_of_le le_rfl⟩

/-- Two tokens, which fill the first block, and a third one. -/
def firstStep : AlignSchedule Int := counting 0 2 [] newRequest

/-- The requests behind the first step. -/
def afterFirst : AlignRun Int := oneByte.afterBatch newRequest (someTokens 2) firstStep

def secondStep : AlignSchedule Int :=
  counting 1 3 ((oneByte.precopy afterFirst (someTokens 1) firstStep).groups
    (oneByte.launch (someTokens 1)) oneByte.states oneByte.numStates).flatten.flatten afterFirst

theorem ran_firstStep : oneByte.Ran newRequest (someTokens 2) firstStep where
  served := served_someTokens (by decide) rfl rfl fun w hw => by
    rcases hw with (⟨hlow, hhigh⟩ | ⟨hlast, -⟩) | ⟨h, -⟩
    · change 0 ≤ w at hlow
      change w ≤ 0 + 0 at hhigh
      omega
    · change w = 0 at hlast
      omega
    · exact absurd h (by decide)
  order := .refl _
  precopy := .nil (by decide)
  forward := forward_counting rfl rfl rfl
  postprocess := .nil (by decide)

theorem ran_secondStep : oneByte.Ran afterFirst (someTokens 1) secondStep where
  served := served_someTokens (by decide) rfl rfl fun w hw => by
    rcases hw with (⟨hlow, hhigh⟩ | ⟨hlast, -⟩) | ⟨-, h⟩
    · change 1 ≤ w at hlow
      change w ≤ 1 + 0 at hhigh
      omega
    · change w = 0 at hlast
      omega
    · change w = 0 ∨ w = 0 + (1 - 1) at h
      omega
  order := .refl _
  precopy := Interleaving.flatten _
  forward := forward_counting rfl rfl rfl
  postprocess := .nil (by decide)

/-- The first step is one that keeps full blocks saved. -/
theorem reachable_afterFirst :
    (oneByte.alignSystem.restrict oneByte.KeepsFull).Reachable afterFirst := by
  have hstart : (oneByte.alignSystem.restrict oneByte.KeepsFull).Reachable
      { newRequest with live := fun _ => False } := .init fun _ => not_false
  have hadmit : (oneByte.alignSystem.restrict oneByte.KeepsFull).Reachable newRequest := by
    refine hstart.step (a := .join 0 (-1) fun _ => False) ⟨fun w hw hle => ?_, not_false, ?_, rfl,
      fun _ _ => ⟨rfl, rfl, rfl, rfl, rfl, rfl⟩, rfl, rfl, le_rfl, rfl, rfl,
      fun h => absurd h (by decide), fun _ h => h.elim⟩
    · omega
    · funext q
      simp [newRequest]
  refine hadmit.step (a := .batch (someTokens 2) firstStep) ⟨fun r hr => ?_, ran_firstStep, rfl⟩
  obtain rfl : r = 0 := Nat.lt_one_iff.1 hr
  decide

namespace AlignConfig

/-- The third token is in the second block, to which its state is copied. -/
theorem forward_finds_thirdToken : copied afterFirst secondStep 1 = 2 :=
  forward_finds (r := 0) (t := 0) sound_oneByte
    ⟨reachable_afterFirst.of_restrict, ran_secondStep, rfl⟩ Nat.one_pos Nat.one_pos (by decide)
    0 ⟨0, by decide, rfl⟩

/-- The first block has the state behind its two tokens. -/
theorem saved_of_reachable_firstBlock : afterFirst.memory 0 = 2 :=
  saved_of_reachable sound_oneByte reachable_afterFirst.of_restrict (q := 0) (w := 0) rfl
    (.inr ⟨0, Nat.one_pos, rfl, rfl, by decide⟩) (t := 0) Nat.one_pos 0 ⟨0, by decide, rfl⟩

theorem full_of_reachable_firstBlock : afterFirst.saved 0 0 :=
  full_of_reachable sound_oneByte reachable_afterFirst rfl le_rfl (by decide)

end AlignConfig

end FlashNext.Mamba
