import FlashNext.Ple.ConvLaunch
import FlashNext.Returns

/-!
# The batch of the short convolution

`_short_conv_dilated_dispatch` of `ple_layer.py`: a batch has requests with draft tokens,
requests with one token each and chunks of prompts, each kind in a launch of its own. When
there are draft tokens and others, the launches find their rows through lists of token
indices; else the rows of the prompts follow those of the single tokens.

* `dispatch_eq_ok`: what it does is to run the launches of the kinds that are there
  (`ConvMetadata.launches`), one after the other;
* `dispatch_spec`: launches that share no rows and no states serve their requests, as if
  each of them were alone.
-/

namespace FlashNext.Ple

/-- `PleShortConvAttentionMetadata`. -/
structure ConvMetadata where
  numActualTokens : Nat
  numPrefills : Nat
  numDecodes : Nat
  numDecodeTokens : Nat
  numPrefillTokens : Nat
  numSpecDecodes : Nat
  /-- `spec_sequence_masks is not None`. -/
  hasSpec : Bool
  specTokenIndx : Option (List Nat)
  nonSpecTokenIndx : Option (List Nat)
  specStateIndices : Option (List Int)
  specQueryStartLoc : Option (List Nat)
  numAcceptedTokens : Option (List Int)
  specQueryLen : Nat
  stateIndices : Option (List Int)
  hasInitialStatesD : Option (List Bool)
  hasInitialStatesP : Option (List Bool)
  nonSpecQueryStartLoc : Option (List Nat)

/-- The inputs of a batch, and the shape of the pool of states. -/
structure ConvBatch (V : Type*) where
  inputs : Nat → Nat → V
  stateChannels : Nat
  stateWindow : Nat

variable {V W A : Type*}

namespace ConvMetadata

variable (metadata : ConvMetadata) (b : ConvBatch V)

/-- `has_non_spec`. -/
def hasNonSpec : Bool := decide (0 < metadata.numPrefills) || decide (0 < metadata.numDecodes)

/-- `spec_token_indices`. -/
def specTokenIndices : Option (List Nat) :=
  if metadata.hasSpec && metadata.hasNonSpec then metadata.specTokenIndx else none

/-- `non_spec_token_indices`. -/
def nonSpecTokenIndices : Option (List Nat) :=
  if metadata.hasSpec && metadata.hasNonSpec then metadata.nonSpecTokenIndx else none

/-- The launch of the requests with draft tokens. -/
def specArgs : ConvArgs V where
  mode := .spec
  inputs := b.inputs
  firstRow := 0
  numInputs := metadata.numActualTokens
  stateChannels := b.stateChannels
  stateWindow := b.stateWindow
  stateIndices := (metadata.specStateIndices.getD []).take metadata.numSpecDecodes
  queryStartLoc := metadata.specQueryStartLoc
  numAcceptedTokens := metadata.numAcceptedTokens
  hasInitialStates := none
  specQueryLen := metadata.specQueryLen
  tokenIndices := metadata.specTokenIndices

/-- The launch of the requests with one token. Beside prompts it has the first tokens, and
    else all of them. -/
def decodeArgs : ConvArgs V where
  mode := .decode
  inputs := b.inputs
  firstRow := 0
  numInputs :=
    if 0 < metadata.numPrefills then metadata.numDecodeTokens else metadata.numActualTokens
  stateChannels := b.stateChannels
  stateWindow := b.stateWindow
  stateIndices :=
    if 0 < metadata.numPrefills then (metadata.stateIndices.getD []).take metadata.numDecodes
    else
      let numDecodeRows := match metadata.nonSpecTokenIndices with
        | some rows => rows.length
        | none => metadata.numActualTokens
      (metadata.stateIndices.getD []).take numDecodeRows
  queryStartLoc := none
  numAcceptedTokens := none
  hasInitialStates := metadata.hasInitialStatesD
  specQueryLen := 1
  tokenIndices :=
    if 0 < metadata.numPrefills then
      metadata.nonSpecTokenIndices.map (·.take metadata.numDecodeTokens)
    else metadata.nonSpecTokenIndices

/-- The launch of the chunks of prompts, behind the single tokens. -/
def prefillArgs : ConvArgs V where
  mode := .prefill
  inputs := b.inputs
  firstRow := if metadata.nonSpecTokenIndices.isSome then 0 else metadata.numDecodeTokens
  numInputs := metadata.numPrefillTokens
  stateChannels := b.stateChannels
  stateWindow := b.stateWindow
  stateIndices := (metadata.stateIndices.getD []).drop metadata.numDecodes
  queryStartLoc := metadata.nonSpecQueryStartLoc.map fun locs =>
    (locs.drop (locs.length - (metadata.numPrefills + 1))).map (· - metadata.numDecodeTokens)
  numAcceptedTokens := none
  hasInitialStates := metadata.hasInitialStatesP
  specQueryLen := 1
  tokenIndices := metadata.nonSpecTokenIndices.map (·.drop metadata.numDecodeTokens)

/-- The launches of a batch, in their order. -/
def launches : List (ConvArgs V) :=
  (if metadata.hasSpec then [metadata.specArgs b] else []) ++
  (if 0 < metadata.numDecodes then [metadata.decodeArgs b] else []) ++
  if 0 < metadata.numPrefills then [metadata.prefillArgs b] else []

/-- How many tokens `torch.split` finds to divide among single tokens and prompts. -/
def splitTokens : Nat :=
  match metadata.nonSpecTokenIndices with
  | some rows => rows.length
  | none => metadata.numActualTokens

end ConvMetadata

namespace ConvLayer

variable (self : ConvLayer V W A) (metadata : ConvMetadata) (b : ConvBatch V)

/-- The part for the requests with draft tokens. -/
def dispatchSpec (m : ConvCell → V) : Except ConvErr (ConvCell → V) :=
  if metadata.hasSpec then
    if metadata.specStateIndices.isNone ∨ metadata.specQueryStartLoc.isNone ∨
        metadata.numAcceptedTokens.isNone then .error .assertionError
    else self.pleConv (metadata.specArgs b) m
  else .ok m

/-- The part for the others. -/
def dispatchNonSpec (m : ConvCell → V) : Except ConvErr (ConvCell → V) :=
  if ¬metadata.hasNonSpec then .ok m
  else if metadata.stateIndices.isNone then .error .assertionError
  else if 0 < metadata.numPrefills then
    if (metadata.stateIndices.getD []).length ≠ metadata.numDecodes + metadata.numPrefills ∨
        metadata.splitTokens ≠ metadata.numDecodeTokens + metadata.numPrefillTokens then
      .error .runtimeError
    else
      (if 0 < metadata.numDecodes then self.pleConv (metadata.decodeArgs b) m else .ok m).bind
        fun m =>
          if metadata.nonSpecQueryStartLoc.isNone ∨ metadata.hasInitialStatesP.isNone then
            .error .valueError
          else self.pleConv (metadata.prefillArgs b) m
  else self.pleConv (metadata.decodeArgs b) m

/-- `_short_conv_dilated_dispatch`. -/
def dispatch (m : ConvCell → V) : Except ConvErr (ConvCell → V) :=
  if (metadata.hasSpec && metadata.hasNonSpec) ∧
      (metadata.specTokenIndx.isNone ∨ metadata.nonSpecTokenIndx.isNone) then
    .error .assertionError
  else (self.dispatchSpec metadata b m).bind (self.dispatchNonSpec metadata b)

/-- Some launches, one after the other. -/
def runLaunches (l : List (ConvArgs V)) (m : ConvCell → V) : ConvCell → V :=
  l.foldl (fun m a => self.launch a (self.grid a.numTokens) (self.grid a.numReqs) m) m

variable {self metadata b} {m m' : ConvCell → V} {a : ConvArgs V} {l : List (ConvArgs V)}

theorem runLaunches_append (l l' : List (ConvArgs V)) (m : ConvCell → V) :
    self.runLaunches (l ++ l') m = self.runLaunches l' (self.runLaunches l m) :=
  List.foldl_append

theorem pleConv_eq_ok (h : self.pleConv a m = .ok m') : m' = self.runLaunches [a] m := by
  rw [pleConv] at h
  split_ifs at h
  exact (Except.ok.inj h).symm

/-- A launch that is there under a condition. -/
theorem pleConv_ite_eq_ok {c : Prop} [Decidable c]
    (h : (if c then self.pleConv a m else .ok m) = .ok m') :
    m' = self.runLaunches (if c then [a] else []) m := by
  split_ifs at h ⊢
  · exact pleConv_eq_ok h
  · exact (Except.ok.inj h).symm

theorem dispatchSpec_eq_ok (h : self.dispatchSpec metadata b m = .ok m') :
    m' = self.runLaunches (if metadata.hasSpec then [metadata.specArgs b] else []) m := by
  refine pleConv_ite_eq_ok ?_
  rw [dispatchSpec] at h
  split_ifs at h ⊢ <;> assumption

/-- The others, with the single tokens before the prompts. -/
theorem dispatchNonSpec_eq_ok (h : self.dispatchNonSpec metadata b m = .ok m') :
    m' = self.runLaunches (if 0 < metadata.numPrefills then [metadata.prefillArgs b] else [])
      (self.runLaunches (if 0 < metadata.numDecodes then [metadata.decodeArgs b] else []) m) := by
  rw [dispatchNonSpec] at h
  by_cases hnon : metadata.hasNonSpec = true
  · rw [if_neg (not_not.2 hnon), ite_error_eq_ok] at h
    by_cases hprefill : 0 < metadata.numPrefills
    · rw [if_pos hprefill, ite_error_eq_ok] at h
      obtain ⟨m₂, hdecode, hlast⟩ := bind_eq_ok.1 h.2.2
      rw [if_pos hprefill, ← pleConv_ite_eq_ok hdecode]
      exact pleConv_eq_ok (ite_error_eq_ok.1 hlast).2
    · have hdecode : 0 < metadata.numDecodes := by
        simpa [ConvMetadata.hasNonSpec, hprefill] using hnon
      rw [if_neg hprefill] at h ⊢
      rw [if_pos hdecode]
      exact pleConv_eq_ok h.2
  · obtain ⟨hp, hd⟩ : metadata.numPrefills = 0 ∧ metadata.numDecodes = 0 := by
      simpa [ConvMetadata.hasNonSpec] using hnon
    rw [if_pos hnon] at h
    simp [hp, hd, runLaunches, Except.ok.inj h]

/-- A batch that raises nothing has run the launches of its kinds. -/
theorem dispatch_eq_ok (h : self.dispatch metadata b m = .ok m') :
    m' = self.runLaunches (metadata.launches b) m := by
  rw [dispatch, ite_error_eq_ok] at h
  obtain ⟨m₁, hspec, hrest⟩ := bind_eq_ok.1 h.2
  rw [ConvMetadata.launches, runLaunches_append, runLaunches_append, ← dispatchSpec_eq_ok hspec]
  exact dispatchNonSpec_eq_ok hrest

/-! ## Launches beside each other -/

/-- Two launches share no rows, and no states. -/
structure Apart (layer : ConvLayer V W A) (a a' : ConvArgs V) : Prop where
  rows : ∀ t < a.numTokens, ∀ t' < a'.numTokens, a.row t ≠ a'.row t'
  slots : ∀ r < a.numReqs, ∀ r' < a'.numReqs, layer.stateOk a r → a.sid r ≠ a'.sid r'

/-- The cells of a launch: the rows of its tokens, and the states of its requests. -/
def Touched (self : ConvLayer V W A) (a : ConvArgs V) (k : ConvCell) : Prop :=
  (∃ t < a.numTokens, ∃ c, k = .residual (a.row t) c) ∨
    ∃ r < a.numReqs, self.stateOk a r ∧ ∃ w c, k = .state (a.sid r) w c

theorem Sound.launch_untouched (h : Sound self a) {k : ConvCell} (hk : ¬self.Touched a k) :
    self.launch a (self.grid a.numTokens) (self.grid a.numReqs) m k = m k :=
  h.launch_frame (fun t ht c _ heq => hk (.inl ⟨t, ht, c, heq⟩))
    fun r hr hok w _ c _ heq => hk (.inr ⟨r, hr, hok, w, c, heq⟩)

theorem Apart.symm {a' : ConvArgs V} (h : Apart self a a') : Apart self a' a where
  rows t ht t' ht' heq := h.rows t' ht' t ht heq.symm
  slots r hr r' hr' hok heq := by
    refine h.slots r' hr' r hr ?_ heq.symm
    rwa [stateOk, ← heq]

/-- A launch leaves what another one touches. -/
theorem Apart.not_touched {a' : ConvArgs V} (h : Apart self a a') {k : ConvCell}
    (hk : self.Touched a k) : ¬self.Touched a' k := by
  rcases hk with ⟨t, ht, c, rfl⟩ | ⟨r, hr, hok, w, c, rfl⟩
  · rintro (⟨t', ht', c', heq⟩ | ⟨r', -, -, w', c', heq⟩)
    · exact h.rows t ht t' ht' (ConvCell.residual.inj heq).1
    · cases heq
  · rintro (⟨t', -, c', heq⟩ | ⟨r', hr', -, w', c', heq⟩)
    · cases heq
    · exact h.slots r hr r' hr' hok (ConvCell.state.inj heq).1

/-- A batch whose launches the caller may make, and which share no rows and no states. -/
structure SoundBatch (layer : ConvLayer V W A) (l : List (ConvArgs V)) : Prop where
  sound : ∀ a ∈ l, Sound layer a
  apart : l.Pairwise (Apart layer)

theorem runLaunches_untouched (hl : ∀ a ∈ l, Sound self a) {k : ConvCell}
    (hk : ∀ a ∈ l, ¬self.Touched a k) : self.runLaunches l m k = m k := by
  induction l generalizing m with
  | nil => rfl
  | cons a l ih =>
    rw [List.forall_mem_cons] at hl hk
    exact (ih hl.2 hk.2).trans (hl.1.launch_untouched hk.1)

/-- What a launch of a batch touches is as it leaves it, from a memory that has there what
    was there before the batch. -/
theorem SoundBatch.runLaunches_touched (h : SoundBatch self l) (ha : a ∈ l) (m : ConvCell → V) :
    ∃ m₁, (∀ k, self.Touched a k → m₁ k = m k) ∧ ∀ k, self.Touched a k →
      self.runLaunches l m k =
        self.launch a (self.grid a.numTokens) (self.grid a.numReqs) m₁ k := by
  obtain ⟨l₁, l₂, rfl⟩ := List.append_of_mem ha
  obtain ⟨-, hcons, hbefore⟩ := List.pairwise_append.1 h.apart
  have hafter := (List.pairwise_cons.1 hcons).1
  refine ⟨self.runLaunches l₁ m, fun k hk => ?_, fun k hk => ?_⟩
  · exact runLaunches_untouched (fun a' ha' => h.sound a' (List.mem_append_left _ ha'))
      fun a' ha' => (hbefore a' ha' a List.mem_cons_self).symm.not_touched hk
  · rw [runLaunches_append]
    exact runLaunches_untouched (fun a' ha' => h.sound a' (by simp [ha']))
      fun a' ha' => (hafter a' ha').not_touched hk

/-- A batch serves the requests of all its launches, as if each of them were alone, and
    changes nothing else. -/
theorem SoundBatch.dispatch_spec (h : SoundBatch self (metadata.launches b))
    (hok : self.dispatch metadata b m = .ok m') :
    (∀ a ∈ metadata.launches b, ∀ r < a.numReqs, self.Serves a m m' r) ∧
    ∀ k, (∀ a ∈ metadata.launches b, ¬self.Touched a k) → m' k = m k := by
  obtain rfl := dispatch_eq_ok hok
  refine ⟨fun a ha r hr c hc x p hwin hnew => ?_, fun k => runLaunches_untouched h.sound⟩
  obtain ⟨m₁, hbefore, hafter⟩ := h.runLaunches_touched ha m
  have hsound := h.sound a ha
  have hserves := (hsound.launch_spec (.refl _) (.refl _) m₁).1 r hr c hc x p
  have hstate : self.stateOk a r → ∀ w, self.Touched a (.state (a.sid r) w c) :=
    fun hok w => .inr ⟨r, hr, hok, w, c, rfl⟩
  have hwindow : self.window a m₁ r c = self.window a m r c := by
    funext w
    rw [window, window]
    split_ifs with hread
    · refine hbefore _ (hstate ?_ w)
      rw [readState] at hread
      split_ifs at hread with hspec
      · exact hread
      · exact (Bool.and_eq_true_iff.1 hread).1
    · rfl
  obtain ⟨hout, hwin'⟩ := hserves (hwindow ▸ hwin) hnew
  refine ⟨fun hok j hj => ?_, fun hok hq o hroom ho i hi => ?_⟩
  · have hrow : self.Touched a (.residual (a.row (a.qStart r + j)) c) :=
      .inl ⟨_, (hsound.lane_eq hr hj).2, c, rfl⟩
    rw [hafter _ hrow, hout hok j hj, hbefore _ hrow]
  · exact (hafter _ (hstate hok _)).trans (hwin' hok hq o hroom ho i hi)

end ConvLayer

end FlashNext.Ple
