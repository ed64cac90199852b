import FlashNext.Ple.Kernel
import FlashNext.System

/-!
# The context of the n-gram ids

`Qwen4ExpModelState` of `model_state.py`: before each step, it gathers the window
of the tokens before the step for every request of the batch, from the tokens
that the engine holds for the requests, and copies it to a buffer that the model
reads.

* A request is fed to a step (`Feeds`) when the engine holds its tokens up to
  `num_computed_tokens`, and the step has its tokens from there on. The engine may
  set `num_computed_tokens` back, and change what it holds, between two steps.
* `window_prepareInputs`: a token of a step has the window that it has in its
  request;
* `ids_unscheduled`: its ids are those of the request alone, in one step, however
  the request is cut into steps and whatever else is in the batch, and depend on
  the last `ngram_size` tokens only.
-/

namespace FlashNext.Ple

/-- What `_prepare_ngram_context` reads of the states of the requests. -/
structure RequestState where
  numComputedTokens : Nat → Nat
  allTokenIds : Nat → Nat → BitVec 32

/-- The batch of a step: `num_reqs` requests with `num_tokens` tokens, one request
    after the other, with padding requests and tokens behind them. -/
structure InputBatch where
  numReqs : Nat
  numReqsAfterPadding : Nat
  numTokens : Nat
  numTokensAfterPadding : Nat
  inputIds : List (BitVec 32)
  queryStartLoc : List Nat
  /-- The index of each request in the states. -/
  idxMapping : List Nat
  /-- `prefill_len_np`, if there is one. -/
  prefillLen : Option (List Nat)
  reqs_pos : 0 < numReqsAfterPadding
  reqs_le : numReqs ≤ numReqsAfterPadding
  tokens_le : numTokens ≤ numTokensAfterPadding
  inputIds_length : inputIds.length = numTokensAfterPadding
  locs_length : numReqsAfterPadding < queryStartLoc.length
  locs_start : queryStartLoc.getD 0 0 = 0
  locs_sorted : queryStartLoc.Pairwise (· ≤ ·)
  /-- The padding requests start at the end of the tokens. -/
  locs_padding : ∀ r, numReqs ≤ r → r ≤ numReqsAfterPadding → 0 < numReqs →
    queryStartLoc.getD r 0 = numTokens
  idx_length : numReqs ≤ idxMapping.length

/-- The starts of the requests of a batch, and what is behind them. -/
theorem InputBatch.allSegments (b : InputBatch) : Segments b.queryStartLoc where
  two_le := by
    have := b.reqs_pos
    have := b.locs_length
    omega
  start := b.locs_start
  sorted := b.locs_sorted

/-- The starts of the requests of a batch, with the padding requests. -/
theorem InputBatch.segments (b : InputBatch) :
    Segments (b.queryStartLoc.take (b.numReqsAfterPadding + 1)) :=
  b.allSegments.take b.reqs_pos

/-- What `Qwen4ExpModelState` takes from the configuration. -/
structure ModelState where
  /-- The n-gram embedding of a layer. -/
  embedding : NgramEmbedding
  ngramEosTokenId : BitVec 32
  maxNumReqs : Nat
  eos_eq : embedding.eosTokenId = ngramEosTokenId.signExtend 64

namespace ModelState

variable (self : ModelState)

/-- `ngram_context_len`. -/
abbrev ngramContextLen : Nat := self.embedding.contextLen

/-- A row of EOS. -/
def eosRow : List (BitVec 32) := List.replicate self.ngramContextLen self.ngramEosTokenId

/-- The window before the step, for the request with the index `idx`. -/
def contextRow (req : RequestState) (idx : Nat) : List (BitVec 32) :=
  (List.range self.ngramContextLen).map fun (c : Nat) =>
    let tokenIndex : Int := req.numComputedTokens idx + (c - self.ngramContextLen)
    if 0 ≤ tokenIndex then req.allTokenIds idx tokenIndex.toNat else self.ngramEosTokenId

/-- `_prepare_ngram_context`: the rows of the buffer that are returned. -/
def prepareNgramContext (req : RequestState) (b : InputBatch) : List (List (BitVec 32)) :=
  (b.idxMapping.take b.numReqs).map (self.contextRow req) ++
    List.replicate (b.numReqsAfterPadding - b.numReqs) self.eosRow

theorem length_prepareNgramContext (req : RequestState) (b : InputBatch) :
    (self.prepareNgramContext req b).length = b.numReqsAfterPadding := by
  have := b.idx_length
  have := b.reqs_le
  simp [prepareNgramContext]
  omega

theorem width_prepareNgramContext (req : RequestState) (b : InputBatch) :
    ∀ row ∈ self.prepareNgramContext req b, row.length = self.ngramContextLen := by
  intro row hrow
  rcases List.mem_append.1 hrow with h | h
  · obtain ⟨idx, -, rfl⟩ := List.mem_map.1 h
    simp [contextRow]
  · rw [List.eq_of_mem_replicate h]
    simp [eosRow]

/-- The tensors that `prepare_inputs` gives to the model, with the tokens of the
    batch, as int64 (`.long()`). -/
def prepareInputs (req : RequestState) (b : InputBatch) : NgramInputs self.ngramContextLen where
  inputIds := b.inputIds.map (·.signExtend 64)
  queryStartLoc := b.queryStartLoc.take (b.numReqsAfterPadding + 1)
  ngramContext := (self.prepareNgramContext req b).map fun row => row.map (·.signExtend 64)
  segments := b.segments
  height := by
    rw [List.length_map, self.length_prepareNgramContext, List.length_take]
    omega
  width := by
    simpa using self.width_prepareNgramContext req b

end ModelState

/-! ## Runs -/

/-- The buffers that the model reads, the inputs of the step that wrote them, and
    what the engine holds. -/
structure ContextState (len : Nat) where
  ngramContext : List (List (BitVec 32))
  pleQueryStartLoc : List Nat
  inputs : Option (NgramInputs len)
  req : RequestState

/-- What happens. -/
inductive ContextLabel
  | step (b : InputBatch)
  | dummy (numReqs numTokens : Nat)
  /-- The engine goes on: tokens are added, or taken back. -/
  | engine (req : RequestState)

/-- The starts of the requests of a dummy step: the last of them have one token
    more. -/
def dummyStartLoc (numReqs numTokens : Nat) : List Nat :=
  (List.range (numReqs + 1)).map fun r =>
    r * (numTokens / numReqs) + (r - (numReqs - numTokens % numReqs))

/-- What a copy to the first elements of a buffer leaves there. -/
def copyTo {α : Type*} (buffer xs : List α) : List α := xs ++ buffer.drop xs.length

namespace ModelState

variable (self : ModelState)

/-- One step of the model state. More requests than the buffers have raise. -/
def contextStep (s : ContextState self.ngramContextLen) :
    ContextLabel → Option (ContextState self.ngramContextLen)
  | .step b =>
    if self.maxNumReqs < b.numReqsAfterPadding then none
    else some { s with
      ngramContext := copyTo s.ngramContext (self.prepareNgramContext s.req b)
      pleQueryStartLoc :=
        copyTo s.pleQueryStartLoc (b.queryStartLoc.take (b.numReqsAfterPadding + 1))
      inputs := some (self.prepareInputs s.req b) }
  | .dummy numReqs numTokens =>
    if numReqs = 0 ∨ self.maxNumReqs < numReqs then none
    else some { s with
      ngramContext := copyTo s.ngramContext (List.replicate numReqs self.eosRow)
      pleQueryStartLoc := copyTo s.pleQueryStartLoc (dummyStartLoc numReqs numTokens)
      inputs := none }
  | .engine req => some { s with req := req }

/-- The buffers at the start. -/
def ContextInitial (s : ContextState self.ngramContextLen) : Prop :=
  s.ngramContext = List.replicate self.maxNumReqs self.eosRow ∧
    s.pleQueryStartLoc = List.replicate (self.maxNumReqs + 1) 0 ∧ s.inputs = none

/-- The runs of the model state. -/
def contextSystem : System (ContextState self.ngramContextLen) ContextLabel :=
  .ofStep self.ContextInitial self.contextStep

variable {self}

/-- A step leaves its inputs. -/
theorem inputs_of_contextStep {s s' : ContextState self.ngramContextLen} {b : InputBatch}
    (h : self.contextStep s (.step b) = some s') :
    s'.inputs = some (self.prepareInputs s.req b) := by
  rw [contextStep] at h
  split_ifs at h
  rw [← Option.some.inj h]

/-- The buffers hold the inputs of the last step, until they are written again. -/
theorem views_of_reachable {s : ContextState self.ngramContextLen}
    (hs : self.contextSystem.Reachable s) {i : NgramInputs self.ngramContextLen}
    (hi : s.inputs = some i) :
    (s.ngramContext.take i.ngramContext.length).map (fun row => row.map (·.signExtend 64)) =
      i.ngramContext ∧
    s.pleQueryStartLoc.take i.queryStartLoc.length = i.queryStartLoc := by
  refine hs.invariant (P := fun s => ∀ i, s.inputs = some i →
    (s.ngramContext.take i.ngramContext.length).map (fun row => row.map (·.signExtend 64)) =
      i.ngramContext ∧ s.pleQueryStartLoc.take i.queryStartLoc.length = i.queryStartLoc)
    (fun s h i hi => ?_) (fun s a s' ih h => ?_) i hi
  · rw [h.2.2] at hi
    cases hi
  · cases a with
    | step b =>
      simp only [contextSystem, System.ofStep, contextStep] at h
      split_ifs at h
      obtain rfl := Option.some.inj h
      rintro i ⟨⟩
      simp [copyTo, prepareInputs]
    | dummy numReqs numTokens =>
      simp only [contextSystem, System.ofStep, contextStep] at h
      split_ifs at h
      obtain rfl := Option.some.inj h
      intro i hi
      cases hi
    | engine req =>
      obtain rfl := Option.some.inj h
      exact ih

end ModelState

/-! ## Requests -/

/-- The request `r` of a batch is fed with its tokens: the engine holds those
    before `num_computed_tokens`, and the batch has those from there on. -/
structure Feeds (req : RequestState) (b : InputBatch) (r : Nat) (tokens : List (BitVec 32)) :
    Prop where
  row : r < b.numReqs
  held : ∀ p < req.numComputedTokens (b.idxMapping.getD r 0),
    tokens[p]? = some (req.allTokenIds (b.idxMapping.getD r 0) p)
  fed : ∀ q, b.queryStartLoc.getD r 0 ≤ q → q < b.queryStartLoc.getD (r + 1) 0 →
    tokens[req.numComputedTokens (b.idxMapping.getD r 0) + (q - b.queryStartLoc.getD r 0)]? =
      b.inputIds[q]?

/-- The window of the token `p` of a request: before its first token, it is EOS. -/
def requestWindow (eos : BitVec 64) (tokens : List (BitVec 32)) (p k : Nat) : BitVec 64 :=
  if k ≤ p then (tokens.getD (p - k) 0).signExtend 64 else eos

section Feeds

variable {self : ModelState} {req : RequestState} {b : InputBatch} {r q : Nat}
  {tokens : List (BitVec 32)}

/-- A position of a real request is in its segment. -/
theorem inSegment_prepareInputs (self : ModelState) (req : RequestState) (hr : r < b.numReqs)
    (hq : b.queryStartLoc.getD r 0 ≤ q) (hq' : q < b.queryStartLoc.getD (r + 1) 0) :
    InSegment (self.prepareInputs req b).queryStartLoc r q := by
  have hle := b.reqs_le
  have hlen := b.locs_length
  have hall : InSegment b.queryStartLoc r q := ⟨by omega, hq, fun _ => hq'⟩
  exact hall.take (by omega)

/-- The real requests end where the padding starts. -/
theorem lt_numTokens (hr : r < b.numReqs) (hq' : q < b.queryStartLoc.getD (r + 1) 0) :
    q < b.numTokens := by
  have hle := b.reqs_le
  have hlen := b.locs_length
  rw [← b.locs_padding b.numReqs le_rfl hle (by omega)]
  exact hq'.trans_le (b.allSegments.getD_le hr (by omega))

/-- The row of a real request in the context. -/
theorem context_prepareInputs (hr : r < b.numReqs) {c : Nat} (hc : c < self.ngramContextLen) :
    (self.prepareInputs req b).context r c =
      if self.ngramContextLen ≤ req.numComputedTokens (b.idxMapping.getD r 0) + c then
        (req.allTokenIds (b.idxMapping.getD r 0)
          (req.numComputedTokens (b.idxMapping.getD r 0) + c - self.ngramContextLen)).signExtend 64
      else self.embedding.eosTokenId := by
  have hidx := b.idx_length
  have hrow : (self.prepareNgramContext req b)[r]? =
      some (self.contextRow req (b.idxMapping.getD r 0)) := by
    rw [ModelState.prepareNgramContext, List.getElem?_append_left (by simp; omega),
      List.getElem?_map, List.getElem?_take_of_lt hr, List.getElem?_eq_getElem (by omega),
      List.getD_eq_getElem]
    rfl
  -- A cell is a token of the request, or the end of a text before its first token.
  have hcell : (self.contextRow req (b.idxMapping.getD r 0))[c]? =
      some (if self.ngramContextLen ≤ req.numComputedTokens (b.idxMapping.getD r 0) + c then
        req.allTokenIds (b.idxMapping.getD r 0)
          (req.numComputedTokens (b.idxMapping.getD r 0) + c - self.ngramContextLen)
      else self.ngramEosTokenId) := by
    rw [ModelState.contextRow, List.getElem?_map, List.getElem?_range hc, Option.map_some]
    simp only
    split_ifs with hpos hle hle
    · congr 2
      omega
    · omega
    · omega
    · rfl
  rw [NgramInputs.context, ModelState.prepareInputs]
  simp only [List.getD_eq_getElem?_getD, List.getElem?_map, hrow, Option.map_some, Option.getD_some]
  rw [← List.getD_eq_getElem?_getD, hcell, Option.map_some, Option.getD_some, self.eos_eq]
  split_ifs <;> rfl

/-- A real token is one of a real request. -/
theorem exists_request (hreqs : 0 < b.numReqs) (hq : q < b.numTokens) :
    ∃ r < b.numReqs, b.queryStartLoc.getD r 0 ≤ q ∧ q < b.queryStartLoc.getD (r + 1) 0 := by
  have hlen := List.length_take (i := b.numReqsAfterPadding + 1) (l := b.queryStartLoc)
  have hlocs := b.locs_length
  obtain ⟨r, hlt, hle, hnext⟩ :
      ∃ r, InSegment (b.queryStartLoc.take (b.numReqsAfterPadding + 1)) r q :=
    ⟨_, inSegment_searchsorted b.segments q⟩
  rw [getD_take_of_lt (by omega)] at hle
  have hr : r < b.numReqs := by
    -- A padding request starts at the end of the tokens.
    by_contra hge
    have := b.locs_padding r (not_lt.1 hge) (by omega) hreqs
    omega
  refine ⟨r, hr, hle, ?_⟩
  by_cases hlast : r + 1 < b.numReqs
  · have hreq := b.reqs_le
    rw [getD_take_of_lt (by omega)] at hnext
    exact hnext (by omega)
  · rw [b.locs_padding (r + 1) (by omega) (by omega) hreqs]
    exact hq

/-- A token of a step has the window that it has in its request. -/
theorem window_prepareInputs (h : Feeds req b r tokens) (hq : b.queryStartLoc.getD r 0 ≤ q)
    (hq' : q < b.queryStartLoc.getD (r + 1) 0) {k : Nat} (hk : k ≤ self.ngramContextLen) :
    (self.prepareInputs req b).window r q k =
      requestWindow self.embedding.eosTokenId tokens
        (req.numComputedTokens (b.idxMapping.getD r 0) + (q - b.queryStartLoc.getD r 0)) k := by
  have hle := b.reqs_le
  have hlen := b.locs_length
  have hr := h.row
  have hloc : (self.prepareInputs req b).queryStartLoc.getD r 0 = b.queryStartLoc.getD r 0 :=
    getD_take_of_lt (by omega) 0
  rw [NgramInputs.window, hloc, requestWindow]
  split_ifs with hin hp hp
  · -- A token of the step.
    have hfed := h.fed (q - k) (by omega) (by omega)
    rw [NgramInputs.token, List.getD_eq_getElem?_getD, List.getD_eq_getElem?_getD,
      show req.numComputedTokens (b.idxMapping.getD r 0) + (q - b.queryStartLoc.getD r 0) - k =
        req.numComputedTokens (b.idxMapping.getD r 0) + (q - k - b.queryStartLoc.getD r 0) by omega,
      hfed, ModelState.prepareInputs, List.getElem?_map]
    have hlt := b.inputIds_length
    have := lt_numTokens hr hq'
    have := b.tokens_le
    rw [List.getElem?_eq_getElem (by omega)]
    rfl
  · omega
  · -- A token that the engine holds.
    have hheld := h.held (req.numComputedTokens (b.idxMapping.getD r 0) +
      (q - b.queryStartLoc.getD r 0) - k) (by omega)
    rw [context_prepareInputs hr (by omega), if_pos (by omega),
      List.getD_eq_getElem?_getD (l := tokens), hheld, Option.getD_some]
    congr 2
    omega
  · -- Before the first token of the request.
    rw [context_prepareInputs hr (by omega), if_neg (by omega)]

end Feeds

/-! ## A request alone -/

/-- The batch of one request, with all its tokens. -/
def alone (tokens : List (BitVec 32)) : InputBatch where
  numReqs := 1
  numReqsAfterPadding := 1
  numTokens := tokens.length
  numTokensAfterPadding := tokens.length
  inputIds := tokens
  queryStartLoc := [0, tokens.length]
  idxMapping := [0]
  prefillLen := some [tokens.length]
  reqs_pos := Nat.one_pos
  reqs_le := le_rfl
  tokens_le := le_rfl
  inputIds_length := rfl
  locs_length := by simp
  locs_start := rfl
  locs_sorted := by simp
  locs_padding r hr hr' _ := by
    obtain rfl := le_antisymm hr' hr
    rfl
  idx_length := le_rfl

/-- A request that the engine has just taken. -/
def RequestState.fresh (tokens : List (BitVec 32)) : RequestState where
  numComputedTokens _ := 0
  allTokenIds _ p := tokens.getD p 0

/-- The ids of a request alone, in one step. -/
def ModelState.aloneIds (self : ModelState) (device : Device) (tokens : List (BitVec 32)) :
    List (List (BitVec 64)) :=
  self.embedding.computeNgramIds device (self.prepareInputs (.fresh tokens) (alone tokens))

theorem feeds_alone (tokens : List (BitVec 32)) :
    Feeds (.fresh tokens) (alone tokens) 0 tokens where
  row := Nat.one_pos
  held p hp := absurd hp (Nat.not_lt_zero p)
  fed q _ _ := by simp [RequestState.fresh, alone]

section Unscheduled

variable {self : ModelState} {req : RequestState} {b : InputBatch} {r q : Nat}
  {tokens tokens' : List (BitVec 32)}

/-- The ids of a token of a step are those of its window in its request. -/
theorem ids_prepareInputs (self : ModelState) (device : Device) (h : Feeds req b r tokens)
    (hq : b.queryStartLoc.getD r 0 ≤ q) (hq' : q < b.queryStartLoc.getD (r + 1) 0) :
    (self.embedding.computeNgramIds device (self.prepareInputs req b))[q]? =
      some (self.embedding.hash (requestWindow self.embedding.eosTokenId tokens
        (req.numComputedTokens (b.idxMapping.getD r 0) + (q - b.queryStartLoc.getD r 0)))) := by
  have hlen := b.inputIds_length
  have hle := b.tokens_le
  have hlt := lt_numTokens h.row hq'
  have hctx := self.embedding.contextLen_succ
  rw [self.embedding.computeNgramIds_eq_hash device _
    (inSegment_prepareInputs self req h.row hq hq')]
  · congr 1
    exact self.embedding.hash_congr fun k hk _ =>
      window_prepareInputs h hq hq' (show k ≤ self.embedding.contextLen by omega)
  · change q < (b.inputIds.map (·.signExtend 64)).length
    rw [List.length_map]
    omega

/-- The ids of a token of a request alone. -/
theorem aloneIds_eq (device : Device) {p : Nat} (hp : p < tokens.length) :
    (self.aloneIds device tokens)[p]? =
      some (self.embedding.hash (requestWindow self.embedding.eosTokenId tokens p)) := by
  have := ids_prepareInputs self device (feeds_alone tokens) (q := p) (Nat.zero_le p) hp
  simpa [RequestState.fresh, alone, ModelState.aloneIds] using this

/-- The ids of a token do not need the padding. -/
theorem ids_truncate (device device' : Device) (hr : r < b.numReqs)
    (hq : b.queryStartLoc.getD r 0 ≤ q) (hq' : q < b.queryStartLoc.getD (r + 1) 0)
    (hreqs : 0 < b.numReqs) :
    (self.embedding.computeNgramIds device
      ((self.prepareInputs req b).truncate b.numReqs b.numTokens hreqs))[q]? =
    (self.embedding.computeNgramIds device' (self.prepareInputs req b))[q]? := by
  have hseg := inSegment_prepareInputs self req hr hq hq'
  have hlt := lt_numTokens hr hq'
  have hle := b.tokens_le
  have hlen : (self.prepareInputs req b).inputIds.length = b.numTokensAfterPadding :=
    (List.length_map _).trans b.inputIds_length
  rw [self.embedding.computeNgramIds_eq_hash device _ (hseg.take hr),
    self.embedding.computeNgramIds_eq_hash device' _ hseg (by rw [NgramInputs.numTokens]; omega)]
  · congr 2
    funext k
    exact NgramInputs.window_truncate _ hreqs hr hlt k
  · change q < ((self.prepareInputs req b).inputIds.take b.numTokens).length
    rw [List.length_take]
    omega

/-- A token that is fed is one of the request. -/
theorem Feeds.lt_length (h : Feeds req b r tokens) (hq : b.queryStartLoc.getD r 0 ≤ q)
    (hq' : q < b.queryStartLoc.getD (r + 1) 0) :
    req.numComputedTokens (b.idxMapping.getD r 0) + (q - b.queryStartLoc.getD r 0) <
      tokens.length := by
  have hlen := b.inputIds_length
  have hle := b.tokens_le
  have hlt := lt_numTokens h.row hq'
  have hfed := h.fed q hq hq'
  rw [List.getElem?_eq_getElem (l := b.inputIds) (by omega)] at hfed
  exact (List.getElem?_eq_some_iff.1 hfed).1

/-- The ids of a token alone depend on the last `ngram_size` tokens, back to the
    last EOS before it. -/
theorem aloneIds_congr (device : Device) {p : Nat} (hp : p < tokens.length)
    (hp' : p < tokens'.length)
    (h : ∀ j ≤ p, p < j + self.embedding.ngramSize →
      (∀ e, j < e → e < p → tokens[e]? ≠ some self.ngramEosTokenId) → tokens'[j]? = tokens[j]?) :
    (self.aloneIds device tokens')[p]? = (self.aloneIds device tokens)[p]? := by
  rw [aloneIds_eq device hp, aloneIds_eq device hp']
  congr 1
  refine (self.embedding.hash_congr fun k hk heos => ?_).symm
  by_cases hkp : k ≤ p
  · have hsame := h (p - k) (by omega) (by omega) fun e he hlt htok => by
      refine heos (p - e) (by omega) (by omega) ?_
      rw [requestWindow, if_pos (by omega), show p - (p - e) = e by omega,
        List.getD_eq_getElem?_getD, htok, Option.getD_some, self.eos_eq]
    rw [requestWindow, requestWindow, if_pos hkp, if_pos hkp, List.getD_eq_getElem?_getD,
      List.getD_eq_getElem?_getD, hsame]
  · rw [requestWindow, requestWindow, if_neg hkp, if_neg hkp]

/-- Ids do not depend on the schedule. In a step of any run that has a request in
    its batch, the ids of a token are those of the request alone in one step, with
    the padding or without it, and on either device; and they depend on the last
    `ngram_size` tokens of the request only, back to the last EOS. -/
theorem ids_unscheduled {s s' : ContextState self.ngramContextLen}
    (h : self.contextSystem.Occurs s (.step b) s') (hfeeds : Feeds s.req b r tokens)
    (hq : b.queryStartLoc.getD r 0 ≤ q) (hq' : q < b.queryStartLoc.getD (r + 1) 0) {p : Nat}
    (hp : p = s.req.numComputedTokens (b.idxMapping.getD r 0) + (q - b.queryStartLoc.getD r 0)) :
    p < tokens.length ∧
    (∃ i, s'.inputs = some i ∧ ∀ device device',
      (self.embedding.computeNgramIds device i)[q]? = (self.aloneIds device' tokens)[p]? ∧
      ∀ hreqs,
        (self.embedding.computeNgramIds device (i.truncate b.numReqs b.numTokens hreqs))[q]? =
          (self.aloneIds device' tokens)[p]?) ∧
    ∀ device tokens', p < tokens'.length →
      (∀ j ≤ p, p < j + self.embedding.ngramSize →
        (∀ e, j < e → e < p → tokens[e]? ≠ some self.ngramEosTokenId) → tokens'[j]? = tokens[j]?) →
      (self.aloneIds device tokens')[p]? = (self.aloneIds device tokens)[p]? := by
  have hlt : p < tokens.length := hp ▸ hfeeds.lt_length hq hq'
  refine ⟨hlt, ⟨self.prepareInputs s.req b, ModelState.inputs_of_contextStep h.2,
    fun device device' => ?_⟩, fun device tokens' hlt' => aloneIds_congr device hlt hlt'⟩
  have hids : ∀ device, (self.embedding.computeNgramIds device (self.prepareInputs s.req b))[q]? =
      (self.aloneIds device' tokens)[p]? := by
    intro device
    rw [ids_prepareInputs self device hfeeds hq hq', aloneIds_eq device' hlt, hp]
  exact ⟨hids device, fun hreqs =>
    (ids_truncate device device hfeeds.row hq hq' hreqs).trans (hids device)⟩

end Unscheduled

/-! ## A sample -/

/-- A bigram embedding with one head, and EOS `0`. -/
def bigram : NgramEmbedding where
  ngramSize := 2
  headsPerNgram := 1
  eosTokenId := 0
  layerMultipliers k := if k = 0 then 1 else 3
  ngramHeadsVocabSizes _ := 3
  ngramHeadsOffsets _ := 0
  two_le := le_rfl
  heads_pos := Nat.one_pos
  sizes_pos _ := by decide

/-- Its model state, for two requests. -/
def bigramState : ModelState where
  embedding := bigram
  ngramEosTokenId := 0
  maxNumReqs := 2
  eos_eq := by decide

/-- A step with two requests: the token `5` of one, and the tokens `8` and `9` of
    another, which is at its second token. -/
def twoRequests : InputBatch where
  numReqs := 2
  numReqsAfterPadding := 2
  numTokens := 3
  numTokensAfterPadding := 4
  inputIds := [5, 8, 9, 0]
  queryStartLoc := [0, 1, 3]
  idxMapping := [1, 0]
  prefillLen := none
  reqs_pos := by decide
  reqs_le := le_rfl
  tokens_le := by decide
  inputIds_length := rfl
  locs_length := by decide
  locs_start := rfl
  locs_sorted := by decide
  locs_padding r hr hr' _ := by
    obtain rfl := le_antisymm hr' hr
    rfl
  idx_length := le_rfl

/-- The second request has the token `7` before it. -/
def atSecond : RequestState where
  numComputedTokens idx := if idx = 0 then 1 else 0
  allTokenIds idx p := if idx = 0 ∧ p = 0 then 7 else 0

/-- The initial state. -/
def twoRequestsStart : ContextState bigramState.ngramContextLen where
  ngramContext := List.replicate bigramState.maxNumReqs bigramState.eosRow
  pleQueryStartLoc := List.replicate (bigramState.maxNumReqs + 1) 0
  inputs := none
  req := ⟨fun _ => 0, fun _ _ => 0⟩

/-- The token `8` of the second request, behind the `7` of an earlier step. -/
theorem ids_unscheduled_twoRequests : ∃ s s' : ContextState bigramState.ngramContextLen,
    s'.inputs = some (bigramState.prepareInputs atSecond twoRequests) ∧
    bigramState.contextSystem.Occurs s (.step twoRequests) s' ∧
    (bigram.computeNgramIds .cuda (bigramState.prepareInputs atSecond twoRequests))[1]? =
      (bigramState.aloneIds .cpu [7, 8, 9])[1]? := by
  have hreach : bigramState.contextSystem.Reachable { twoRequestsStart with req := atSecond } :=
    .step (.init ⟨rfl, rfl, rfl⟩) (a := .engine atSecond) rfl
  have hocc : bigramState.contextSystem.Occurs { twoRequestsStart with req := atSecond }
      (.step twoRequests) _ := ⟨hreach, rfl⟩
  have hfeeds : Feeds atSecond twoRequests 1 [7, 8, 9] := by
    refine ⟨by decide, fun p hp => ?_, fun q hq hq' => ?_⟩
    · obtain rfl : p = 0 := Nat.lt_one_iff.1 hp
      rfl
    · obtain rfl | rfl : q = 1 ∨ q = 2 := by
        simp only [twoRequests, List.getD_cons_succ, List.getD_cons_zero] at hq hq'
        omega
      · rfl
      · rfl
  obtain ⟨-, ⟨i, hi, hids⟩, -⟩ := ids_unscheduled hocc hfeeds (q := 1) (by decide) (by decide) rfl
  obtain rfl := Option.some.inj hi
  exact ⟨_, _, rfl, hocc, (hids .cuda .cpu).1⟩

end FlashNext.Ple
