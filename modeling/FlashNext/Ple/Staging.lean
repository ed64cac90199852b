import FlashNext.Ple.Context
import FlashNext.Ple.Gather

/-!
# Staged rows

The staged mode of the n-gram embedding (`_ple_stage_rows` of `ple_layer.py`,
called by `prepare_inputs` of `model_state.py`): before each step, the rows of
its tokens are gathered into a buffer that the model reads, from the tokens and
requests of the step without its padding. The buffer is flat: the bytes of the
rows of all heads, token by token.

* `GatherTable` is a table that gathers as it should; the tables on disk all of
  whose rows can be read are (`Table.gatherTable`);
* `StagedModel.take_stageRows`: what a step leaves in the buffer;
* `forward_eq_direct`: after any run, the staged rows of a step are those of the
  direct lookup on the padded inputs, with zeros for the padding.

The copies to the buffer are ordered on one stream, and are taken to be done when
the step has run.
-/

namespace FlashNext.Ple

open Python

/-- A table of rows that is gathered by row ids. -/
structure GatherTable where
  rowBytes : Nat
  rowsTotal : Nat
  row : Nat → List UInt8
  gatherCpu : List Int → Except Err (List (List UInt8))
  length_row : ∀ id < rowsTotal, (row id).length = rowBytes
  gatherCpu_eq : ∀ ids : List Int, (∀ id ∈ ids, 0 ≤ id ∧ id < rowsTotal) →
    gatherCpu ids = .ok (ids.map fun id => row id.toNat)

/-- What `hasattr(input_batch, "prefill_len_np")` and the lengths of the prompts
    say of a batch: it has real requests. -/
def InputBatch.real (b : InputBatch) : Bool :=
  match b.prefillLen with
  | some lens => 0 < b.numReqs && (lens.take b.numReqs).any (0 < ·)
  | none => 0 < b.numReqs

theorem InputBatch.reqs_of_real {b : InputBatch} (h : b.real = true) : 0 < b.numReqs := by
  unfold real at h
  split at h <;> simp_all

/-- `bytes[a:b].zero_()`. -/
def zeroSlice (bytes : List UInt8) (a b : Nat) : List UInt8 :=
  bytes.take a ++ List.replicate (min b bytes.length - min a bytes.length) 0 ++ bytes.drop b

theorem length_zeroSlice (bytes : List UInt8) {a b : Nat} (h : a ≤ b) :
    (zeroSlice bytes a b).length = bytes.length := by
  simp [zeroSlice]
  omega

/-- What is before the end of a slice that has been set to zero. -/
theorem take_zeroSlice {bytes : List UInt8} {a b : Nat} (h : a ≤ b) (hb : b ≤ bytes.length) :
    (zeroSlice bytes a b).take b = bytes.take a ++ List.replicate (b - a) 0 := by
  rw [zeroSlice, Nat.min_eq_left hb, Nat.min_eq_left (h.trans hb)]
  exact List.take_left' (by simp; omega)

/-- A model state with an n-gram embedding that has its rows on disk. -/
structure StagedModel where
  model : ModelState
  table : GatherTable
  headDim : Nat
  /-- The bytes of a number of `_ple_dtype`. -/
  itemsize : Nat
  maxNumTokens : Nat
  device : Device
  rowsTotal_lt : table.rowsTotal < 2 ^ 63
  in_table : ∀ h < model.embedding.ngramHeads,
    0 ≤ (model.embedding.ngramHeadsOffsets h).toInt ∧
      (model.embedding.ngramHeadsOffsets h).toInt + (model.embedding.ngramHeadsVocabSizes h).toInt ≤
        table.rowsTotal

/-- The state of the model, and the staging buffer. -/
structure StagedState (len : Nat) where
  context : ContextState len
  staging : List UInt8

namespace StagedModel

variable (self : StagedModel)

/-- `ngram_heads`. -/
abbrev heads : Nat := self.model.embedding.ngramHeads

/-- The bytes of the rows of a token. -/
def tokenBytes : Nat := self.heads * self.table.rowBytes

/-- `_ple_stage_zero`. -/
def stageZero (staging : List UInt8) (numTokens : Nat) : List UInt8 :=
  zeroSlice staging 0 (numTokens * self.tokenBytes)

/-- The row ids of the tokens, one token after the other. -/
def rowIds (i : NgramInputs self.model.ngramContextLen) : List Int :=
  (self.model.embedding.computeNgramIds self.device i).flatten.map (·.toInt)

/-- `_ple_stage_rows`, with the inputs of the step. -/
def stageRows (b : InputBatch) (i : NgramInputs self.model.ngramContextLen) (staging : List UInt8) :
    Except Err (List UInt8) :=
  if h : b.real = true ∧ 0 < b.numTokens then do
    let rows ← self.table.gatherCpu
      (self.rowIds (i.truncate b.numReqs b.numTokens (b.reqs_of_real h.1)))
    -- `copy_` needs as many rows in the slice of the buffer.
    if rows.length ≠ min (b.numTokens * self.heads) (self.maxNumTokens * self.heads) then
      throw .runtimeError
    let staging := copyTo staging rows.flatten
    return if b.numTokens < b.numTokensAfterPadding then
      zeroSlice staging (b.numTokens * self.tokenBytes) (b.numTokensAfterPadding * self.tokenBytes)
    else staging
  else .ok (self.stageZero staging b.numTokensAfterPadding)

/-- `bytes.view(dtype).view(n, h * head_dim)`, of the bytes of `rows` rows: the
    bytes of every token. -/
def viewTokens (rows n : Nat) (bytes : List UInt8) : Except Err (List (List UInt8)) :=
  if self.table.rowBytes % self.itemsize ≠ 0 ∨
      rows * (self.table.rowBytes / self.itemsize) ≠ n * (self.heads * self.headDim) then
    .error .runtimeError
  else .ok ((List.range n).map fun t =>
    (bytes.drop (t * self.tokenBytes)).take self.tokenBytes)

/-- `forward` of `n` tokens, in staged mode. -/
def forward (s : StagedState self.model.ngramContextLen) (n : Nat) :
    Except Err (List (List UInt8)) :=
  self.viewTokens (min (n * self.heads) (self.maxNumTokens * self.heads)) n
    (s.staging.take (n * self.tokenBytes))

/-- `compute_ngram_ids` and `_ple_mmap_lookup`: the direct lookup. -/
def direct (i : NgramInputs self.model.ngramContextLen) : Except Err (List (List UInt8)) := do
  let rows ← self.table.gatherCpu (self.rowIds i)
  self.viewTokens (self.rowIds i).length i.numTokens rows.flatten

/-- One step of the model state, with the staging buffer. -/
def stagedStep (s : StagedState self.model.ngramContextLen) (a : ContextLabel) :
    Option (StagedState self.model.ngramContextLen) := do
  let context ← self.model.contextStep s.context a
  match a with
  | .step b =>
    let staging ← (self.stageRows b (self.model.prepareInputs s.context.req b) s.staging).toOption
    return ⟨context, staging⟩
  | .dummy _ numTokens => return ⟨context, self.stageZero s.staging numTokens⟩
  | .engine _ => return ⟨context, s.staging⟩

/-- The runs of the model state, with the staging buffer. -/
def stagedSystem : System (StagedState self.model.ngramContextLen) ContextLabel :=
  .ofStep (fun s => self.model.ContextInitial s.context ∧
    s.staging = List.replicate (self.maxNumTokens * self.tokenBytes) 0) self.stagedStep

/-! ## The rows of a batch -/

/-- The bytes of a token with the ids `ids`. -/
def tokenRow (ids : List (BitVec 64)) : List UInt8 :=
  (ids.map fun id => self.table.row id.toInt.toNat).flatten

/-- The bytes of every token of a batch. -/
def tokenRows (i : NgramInputs self.model.ngramContextLen) : List (List UInt8) :=
  (self.model.embedding.computeNgramIds self.device i).map self.tokenRow

variable {self}

/-- The rows of a window are in the table. -/
theorem hash_in_table (window : Nat → BitVec 64) :
    (self.model.embedding.hash window).length = self.heads ∧
    ∀ id ∈ self.model.embedding.hash window, 0 ≤ id.toInt ∧ id.toInt < self.table.rowsTotal := by
  refine ⟨by simp [NgramEmbedding.hash], fun id hid => ?_⟩
  obtain ⟨h, hh, rfl⟩ := List.mem_map.1 hid
  obtain ⟨hoff, hend⟩ := self.in_table h (List.mem_range.1 hh)
  have hlt := self.rowsTotal_lt
  have hin := NgramEmbedding.headId_inSlice (h := h) hoff (by omega)
  exact ⟨hoff.trans (hin _).1, (hin _).2.trans_le hend⟩

/-- Every token has the ids of a window. -/
theorem exists_hash {i : NgramInputs self.model.ngramContextLen} {ids : List (BitVec 64)}
    (h : ids ∈ self.model.embedding.computeNgramIds self.device i) :
    ∃ window, ids = self.model.embedding.hash window := by
  obtain ⟨p, hp, rfl⟩ := List.mem_iff_getElem.1 h
  rw [NgramEmbedding.length_computeNgramIds] at hp
  have := self.model.embedding.computeNgramIds_eq_hash self.device i
    (inSegment_searchsorted i.segments p) hp
  exact ⟨_, (List.getElem?_eq_some_iff.1 this).2⟩

/-- Every token has an id for every head, of a row of the table. -/
theorem ids_in_table {i : NgramInputs self.model.ngramContextLen} :
    ∀ ids ∈ self.model.embedding.computeNgramIds self.device i, ids.length = self.heads ∧
      ∀ id ∈ ids, 0 ≤ id.toInt ∧ id.toInt < self.table.rowsTotal := by
  intro ids hids
  obtain ⟨window, rfl⟩ := exists_hash hids
  exact hash_in_table window

theorem length_rowIds (i : NgramInputs self.model.ngramContextLen) :
    (self.rowIds i).length = i.numTokens * self.heads := by
  rw [rowIds, List.length_map, length_flatten_uniform fun ids hids => (ids_in_table ids hids).1,
    NgramEmbedding.length_computeNgramIds]

/-- The rows of a token have the bytes of its heads. -/
theorem length_tokenRow {i : NgramInputs self.model.ngramContextLen} :
    ∀ row ∈ self.tokenRows i, row.length = self.tokenBytes := by
  intro row hrow
  obtain ⟨ids, hids, rfl⟩ := List.mem_map.1 hrow
  obtain ⟨hlen, hin⟩ := ids_in_table ids hids
  rw [tokenRow, length_flatten_uniform (n := self.table.rowBytes), List.length_map, hlen,
    tokenBytes]
  intro row hrow
  obtain ⟨id, hid, rfl⟩ := List.mem_map.1 hrow
  have := hin id hid
  exact self.table.length_row _ (by omega)

/-- The rows of a batch are gathered. -/
theorem gatherCpu_rowIds (i : NgramInputs self.model.ngramContextLen) :
    ∃ rows, self.table.gatherCpu (self.rowIds i) = .ok rows ∧
      rows.length = i.numTokens * self.heads ∧ rows.flatten = (self.tokenRows i).flatten := by
  have hin : ∀ id ∈ self.rowIds i, 0 ≤ id ∧ id < self.table.rowsTotal := fun id hid => by
    obtain ⟨id, hmem, rfl⟩ := List.mem_map.1 hid
    obtain ⟨ids, hids, hid⟩ := List.mem_flatten.1 hmem
    exact (ids_in_table ids hids).2 id hid
  refine ⟨_, self.table.gatherCpu_eq _ hin, (List.length_map _).trans (length_rowIds i), ?_⟩
  rw [rowIds, List.map_map, List.map_flatten, List.flatten_flatten, List.map_map]
  rfl

/-- The tokens of a step without the padding have the rows that they have with it. -/
theorem tokenRows_truncate {req : RequestState} {b : InputBatch} (hreqs : 0 < b.numReqs) :
    self.tokenRows ((self.model.prepareInputs req b).truncate b.numReqs b.numTokens hreqs) =
      (self.tokenRows (self.model.prepareInputs req b)).take b.numTokens := by
  rw [tokenRows, tokenRows, ← List.map_take]
  congr 1
  refine List.ext_getElem? fun q => ?_
  by_cases hq : q < b.numTokens
  · -- A real token is hashed with the same window.
    obtain ⟨r, hr, hle, hlt⟩ := exists_request hreqs hq
    rw [List.getElem?_take_of_lt hq, ids_truncate self.device self.device hr hle hlt hreqs]
  · rw [List.getElem?_take_eq_none (not_lt.1 hq), List.getElem?_eq_none]
    rw [NgramEmbedding.length_computeNgramIds]
    change ((self.model.prepareInputs req b).inputIds.take b.numTokens).length ≤ q
    rw [List.length_take]
    omega

/-- What a step with real tokens does, in terms of the rows of its tokens. -/
theorem stageRows_of_real {b : InputBatch} {i : NgramInputs self.model.ngramContextLen}
    {staging : List UInt8} (h : b.real = true ∧ 0 < b.numTokens) :
    let t := i.truncate b.numReqs b.numTokens (b.reqs_of_real h.1)
    let copied := copyTo staging (self.tokenRows t).flatten
    self.stageRows b i staging =
      if t.numTokens * self.heads ≠
          min (b.numTokens * self.heads) (self.maxNumTokens * self.heads) then .error .runtimeError
      else .ok (if b.numTokens < b.numTokensAfterPadding then
        zeroSlice copied (b.numTokens * self.tokenBytes) (b.numTokensAfterPadding * self.tokenBytes)
      else copied) := by
  intro t copied
  obtain ⟨rows, hrows, hlen, hflat⟩ := gatherCpu_rowIds t
  rw [stageRows, dif_pos h, hrows]
  simp only [bind, Except.bind, hlen, hflat]
  split_ifs <;> rfl

/-- The heads are there. -/
theorem heads_pos : 0 < self.heads := by
  have := self.model.embedding.two_le
  exact Nat.mul_pos (by omega) self.model.embedding.heads_pos

theorem length_tokenRows (i : NgramInputs self.model.ngramContextLen) :
    (self.tokenRows i).length = i.numTokens := by
  rw [tokenRows, List.length_map, NgramEmbedding.length_computeNgramIds]

/-- A copy within a buffer leaves its length. -/
theorem length_copyTo {α : Type*} {buffer xs : List α} (h : xs.length ≤ buffer.length) :
    (copyTo buffer xs).length = buffer.length := by
  simp [copyTo]
  omega

/-- A step keeps the size of the buffer. -/
theorem length_stageRows {b : InputBatch} {i : NgramInputs self.model.ngramContextLen}
    {staging staging' : List UInt8} (hlen : staging.length = self.maxNumTokens * self.tokenBytes)
    (h : self.stageRows b i staging = .ok staging') : staging'.length = staging.length := by
  by_cases hreal : b.real = true ∧ 0 < b.numTokens
  · rw [stageRows_of_real hreal] at h
    by_cases hrows :
        (i.truncate b.numReqs b.numTokens (b.reqs_of_real hreal.1)).numTokens * self.heads =
        min (b.numTokens * self.heads) (self.maxNumTokens * self.heads)
    swap
    · rw [if_pos hrows] at h
      cases h
    rw [if_neg (not_not.2 hrows)] at h
    have hfit : (self.tokenRows (i.truncate b.numReqs b.numTokens
        (b.reqs_of_real hreal.1))).flatten.length ≤ staging.length := by
      rw [length_flatten_uniform length_tokenRow, length_tokenRows, hlen]
      refine Nat.mul_le_mul_right _ (Nat.le_of_mul_le_mul_right ?_ self.heads_pos)
      rw [hrows]
      exact Nat.min_le_right _ _
    have hle := Nat.mul_le_mul_right self.tokenBytes b.tokens_le
    rw [← Except.ok.inj h]
    split_ifs
    · rw [length_zeroSlice _ hle, length_copyTo hfit]
    · exact length_copyTo hfit
  · rw [stageRows, dif_neg hreal] at h
    obtain rfl := Except.ok.inj h
    exact length_zeroSlice staging (Nat.zero_le _)

/-- What a step leaves at the start of the buffer: the rows of its tokens, and
    zeros for its padding. -/
theorem take_stageRows {req : RequestState} {b : InputBatch} {staging : List UInt8}
    (hlen : staging.length = self.maxNumTokens * self.tokenBytes) (hreal : b.real = true)
    (hcap : b.numTokensAfterPadding ≤ self.maxNumTokens) :
    ∃ staging', self.stageRows b (self.model.prepareInputs req b) staging = .ok staging' ∧
      staging'.take (b.numTokensAfterPadding * self.tokenBytes) =
        ((self.tokenRows (self.model.prepareInputs req b)).take b.numTokens ++
          List.replicate (b.numTokensAfterPadding - b.numTokens)
            (List.replicate self.tokenBytes 0)).flatten := by
  -- The buffer has room for the rows and the padding.
  have hle := Nat.mul_le_mul_right self.tokenBytes b.tokens_le
  have hfit := Nat.mul_le_mul_right self.tokenBytes hcap
  rw [List.flatten_append, List.flatten_replicate_replicate]
  by_cases hpos : 0 < b.numTokens
  · have hlt : b.numTokens ≤ (self.model.prepareInputs req b).inputIds.length :=
      b.tokens_le.trans_eq ((List.length_map _).trans b.inputIds_length).symm
    have htokens : ((self.model.prepareInputs req b).truncate b.numReqs b.numTokens
        (b.reqs_of_real hreal)).numTokens = b.numTokens :=
      List.length_take.trans (Nat.min_eq_left hlt)
    have hrows :
        ((self.tokenRows (self.model.prepareInputs req b)).take b.numTokens).flatten.length =
          b.numTokens * self.tokenBytes := by
      rw [length_flatten_uniform fun row hrow => length_tokenRow row (List.mem_of_mem_take hrow),
        List.length_take, length_tokenRows]
      exact congrArg (· * _) (Nat.min_eq_left hlt)
    rw [stageRows_of_real ⟨hreal, hpos⟩, tokenRows_truncate, htokens, Nat.min_eq_left
      (Nat.mul_le_mul_right _ (b.tokens_le.trans hcap)), if_neg (not_not.2 rfl)]
    generalize ((self.tokenRows (self.model.prepareInputs req b)).take b.numTokens).flatten = rows
      at hrows ⊢
    refine ⟨_, rfl, ?_⟩
    have hcopied : (copyTo staging rows).take (b.numTokens * self.tokenBytes) = rows :=
      List.take_left' hrows
    split_ifs with hpad
    · -- What an earlier step has left behind the rows is set to zero.
      rw [take_zeroSlice hle (by rw [length_copyTo (by omega)]; omega), hcopied, Nat.sub_mul]
    · have heq : b.numTokensAfterPadding = b.numTokens := le_antisymm (not_lt.1 hpad) b.tokens_le
      rw [heq, hcopied]
      simp
  · -- Without tokens, all of it is padding.
    rw [stageRows, dif_neg (fun h => hpos h.2)]
    refine ⟨_, rfl, ?_⟩
    rw [stageZero, take_zeroSlice (Nat.zero_le _) (by omega)]
    simp [Nat.eq_zero_of_not_pos hpos]

/-! ## Runs -/

/-- What a step leaves in the staging buffer. -/
def Stages (self : StagedModel) (s : StagedState self.model.ngramContextLen)
    (staging : List UInt8) : ContextLabel → Prop
  | .step b => self.stageRows b (self.model.prepareInputs s.context.req b) s.staging = .ok staging
  | .dummy _ numTokens => self.stageZero s.staging numTokens = staging
  | .engine _ => s.staging = staging

/-- What a step does: a step of the model state, and the staging of it. -/
theorem stagedStep_eq_some {s s' : StagedState self.model.ngramContextLen} {a : ContextLabel}
    (h : self.stagedStep s a = some s') :
    self.model.contextStep s.context a = some s'.context ∧ self.Stages s s'.staging a := by
  rw [stagedStep] at h
  cases hcontext : self.model.contextStep s.context a with
  | none => simp [hcontext] at h
  | some context =>
    cases a with
    | step b =>
      cases hrows : self.stageRows b (self.model.prepareInputs s.context.req b) s.staging with
      | error e => simp [hcontext, hrows, Except.toOption] at h
      | ok staging =>
        obtain rfl : StagedState.mk context staging = s' := by
          simpa [hcontext, hrows, Except.toOption] using h
        exact ⟨rfl, hrows⟩
    | dummy numReqs numTokens =>
      obtain rfl : StagedState.mk context (self.stageZero s.staging numTokens) = s' := by
        simpa [hcontext] using h
      exact ⟨rfl, rfl⟩
    | engine req =>
      obtain rfl : StagedState.mk context s.staging = s' := by simpa [hcontext] using h
      exact ⟨rfl, rfl⟩

/-- A run with the staging buffer is a run of the model state. -/
theorem reachable_context {s : StagedState self.model.ngramContextLen}
    (hs : self.stagedSystem.Reachable s) : self.model.contextSystem.Reachable s.context := by
  induction hs with
  | init h => exact .init h.1
  | step _ h ih => exact .step ih (stagedStep_eq_some h).1

/-- The staging buffer keeps its size. -/
theorem length_staging {s : StagedState self.model.ngramContextLen}
    (hs : self.stagedSystem.Reachable s) :
    s.staging.length = self.maxNumTokens * self.tokenBytes := by
  refine hs.invariant (P := fun s => s.staging.length = self.maxNumTokens * self.tokenBytes)
    (fun s h => by rw [h.2, List.length_replicate]) fun s a s' hlen h => ?_
  have hstep := (stagedStep_eq_some h).2
  cases a with
  | step b => rw [length_stageRows hlen hstep, hlen]
  | dummy numReqs numTokens =>
    rw [← show self.stageZero s.staging numTokens = s'.staging from hstep, stageZero,
      length_zeroSlice _ (Nat.zero_le _), hlen]
  | engine req => rw [← show s.staging = s'.staging from hstep, hlen]

/-- The view of the rows of some tokens has them back, or fails whatever they are. -/
theorem viewTokens_flatten {xss : List (List UInt8)} (h : ∀ xs ∈ xss, xs.length = self.tokenBytes)
    {rows n : Nat} (hn : xss.length = n) (hrows : rows = n * self.heads) :
    self.viewTokens rows n xss.flatten =
      if self.table.rowBytes % self.itemsize ≠ 0 ∨
        n * self.heads * (self.table.rowBytes / self.itemsize) ≠ n * (self.heads * self.headDim)
      then .error .runtimeError
      else .ok xss := by
  subst hn hrows
  rw [viewTokens]
  congr 2
  refine List.ext_getElem (by simp) fun t ht ht' => ?_
  rw [List.getElem_map, List.getElem_range, take_drop_flatten h ht']

/-- The forward pass on a buffer that starts with the rows of the tokens of a
    batch, and zeros for its padding. -/
theorem forward_of_take {s : StagedState self.model.ngramContextLen} {req : RequestState}
    {b : InputBatch} (hcap : b.numTokensAfterPadding ≤ self.maxNumTokens)
    (htake : s.staging.take (b.numTokensAfterPadding * self.tokenBytes) =
      ((self.tokenRows (self.model.prepareInputs req b)).take b.numTokens ++
        List.replicate (b.numTokensAfterPadding - b.numTokens)
          (List.replicate self.tokenBytes 0)).flatten) :
    self.forward s b.numTokensAfterPadding =
      (fun rows => rows.take b.numTokens ++
        List.replicate (b.numTokensAfterPadding - b.numTokens)
          (List.replicate self.tokenBytes 0)) <$> self.direct (self.model.prepareInputs req b) := by
  have htokens : (self.model.prepareInputs req b).numTokens = b.numTokensAfterPadding :=
    (List.length_map _).trans b.inputIds_length
  have hlen := length_tokenRows (self.model.prepareInputs req b)
  have hle := b.tokens_le
  rw [htokens] at hlen
  obtain ⟨rows, hrows, hcount, hflat⟩ := gatherCpu_rowIds (self.model.prepareInputs req b)
  have hids := length_rowIds (self.model.prepareInputs req b)
  rw [htokens] at hids
  -- The view of the buffer and the rows that are gathered have the same shape.
  have hmin : min (b.numTokensAfterPadding * self.heads) (self.maxNumTokens * self.heads) =
      b.numTokensAfterPadding * self.heads := Nat.min_eq_left (Nat.mul_le_mul_right _ hcap)
  rw [forward, htake, viewTokens_flatten _ _ hmin, direct, hrows]
  · simp only [bind, Except.bind, hflat, hids, htokens]
    rw [viewTokens_flatten length_tokenRow hlen rfl]
    split_ifs <;> rfl
  · intro row hrow
    rcases List.mem_append.1 hrow with h | h
    · exact length_tokenRow row (List.mem_of_mem_take h)
    · rw [List.eq_of_mem_replicate h, List.length_replicate]
  · simp [hlen]
    omega

end StagedModel

/-- Staged mode refines the direct lookup. After any run, a step with real
    requests and no more tokens than the buffer has can be staged, if the buffers
    have its requests; the forward pass then returns the rows of the direct lookup
    on the padded inputs for its tokens, and zeros for its padding. -/
theorem forward_eq_direct {self : StagedModel} {s : StagedState self.model.ngramContextLen}
    (hs : self.stagedSystem.Reachable s) {b : InputBatch} (hreal : b.real = true)
    (hcap : b.numTokensAfterPadding ≤ self.maxNumTokens) :
    (b.numReqsAfterPadding ≤ self.model.maxNumReqs →
      ∃ s', self.stagedSystem.Occurs s (.step b) s') ∧
    ∀ s', self.stagedSystem.Occurs s (.step b) s' →
      s'.context.inputs = some (self.model.prepareInputs s.context.req b) ∧
      self.forward s' b.numTokensAfterPadding =
        (fun rows => rows.take b.numTokens ++
          List.replicate (b.numTokensAfterPadding - b.numTokens)
            (List.replicate self.tokenBytes 0)) <$>
          self.direct (self.model.prepareInputs s.context.req b) := by
  obtain ⟨staging, hstage, htake⟩ : ∃ staging,
      self.stageRows b (self.model.prepareInputs s.context.req b) s.staging = .ok staging ∧ _ :=
    StagedModel.take_stageRows (StagedModel.length_staging hs) hreal hcap
  refine ⟨fun hreqs => ?_, fun s' hocc => ?_⟩
  · obtain ⟨context, hcontext⟩ :
        ∃ context, self.model.contextStep s.context (.step b) = some context := by
      rw [ModelState.contextStep, if_neg (not_lt.2 hreqs)]
      exact ⟨_, rfl⟩
    refine ⟨⟨context, staging⟩, hs, ?_⟩
    change self.stagedStep s (.step b) = _
    simp [StagedModel.stagedStep, hcontext, hstage, Except.toOption]
  · obtain ⟨hcontext, hstaged⟩ := StagedModel.stagedStep_eq_some hocc.2
    obtain rfl : staging = s'.staging := Except.ok.inj (hstage.symm.trans hstaged)
    exact ⟨ModelState.inputs_of_contextStep hcontext, StagedModel.forward_of_take hcap htake⟩

/-! ## Tables on disk -/

/-- A table on disk all of whose rows can be read gathers as it should, whatever
    is in its host buffer. -/
def Table.gatherTable (t : Table) (ht : t.Accepted) (hbytes : t.rowBytes ≠ 0)
    (hchunk : 0 < t.chunkRows) (hread : ∀ id : Nat, id < t.rowsTotal → t.Readable id)
    (buf : Rows t.rowBytes) : GatherTable where
  rowBytes := t.rowBytes
  rowsTotal := t.rowsTotal
  row id := t.row id
  gatherCpu ids := (t.gatherCpu buf ids).2
  length_row id hid := by
    have hin : t.InTable (id : Int) := ⟨by omega, by exact_mod_cast hid⟩
    have hrow := rowAt_eq ht hin (hread id hid).2.1
    rw [Int.toNat_natCast] at hrow
    rw [← hrow, (pread_of_readable (hread id hid)).2]
  gatherCpu_eq ids hids := by
    have hread' : ∀ id ∈ ids, t.Readable id := fun id hid => by
      obtain ⟨h0, hlt⟩ := hids id hid
      have := hread id.toNat (by omega)
      rwa [Int.toNat_of_nonneg h0] at this
    obtain ⟨rows, hrows⟩ : ∃ rows, (t.gatherCpu buf ids).2 = .ok rows :=
      gatherCpu_ok_iff.2 (.inr ⟨hbytes, .inr ⟨hchunk, hread'⟩⟩)
    rw [hrows, gatherCpu_rows hrows, if_neg (by omega)]
    congr 1
    exact List.map_congr_left fun id hid => rowAt_eq ht (hids id hid) (hread' id hid).2.1

/-- A bigram embedding with its three rows on disk. -/
def bigramStaged : StagedModel where
  model := bigramState
  table := threeRows.gatherTable (Table.init_accepted threeRows_init).1 (by decide) (by decide)
    threeRows_readable (Rows.zero 2)
  headDim := 2
  itemsize := 1
  maxNumTokens := 4
  device := .cuda
  rowsTotal_lt := by decide
  in_table _ _ := show (0 : Int) ≤ (0 : BitVec 64).toInt ∧
    (0 : BitVec 64).toInt + (3 : BitVec 64).toInt ≤ (threeRows.rowsTotal : Int) by decide

/-- A step with two requests and one token of padding, after a dummy step. -/
theorem bigramStaged_forward : ∃ s s',
    bigramStaged.stagedSystem.Occurs s (.step twoRequests) s' ∧
    bigramStaged.forward s' 4 =
      (fun rows => rows.take 3 ++ [[0, 0]]) <$>
        bigramStaged.direct (bigramState.prepareInputs atSecond twoRequests) := by
  have hinit : bigramStaged.stagedSystem.Reachable
      ⟨twoRequestsStart, List.replicate (bigramStaged.maxNumTokens * bigramStaged.tokenBytes) 0⟩ :=
    .init ⟨⟨rfl, rfl, rfl⟩, rfl⟩
  have hdummy : bigramStaged.stagedSystem.Reachable _ :=
    hinit.step (a := .dummy 2 4) (show bigramStaged.stagedStep _ _ = some ⟨_, _⟩ from rfl)
  obtain ⟨hstep, hforward⟩ := forward_eq_direct (hdummy.step (a := .engine atSecond) rfl)
    (b := twoRequests) rfl (by decide)
  obtain ⟨s', hocc⟩ := hstep (by decide)
  exact ⟨_, s', hocc, (hforward s' hocc).2⟩

end FlashNext.Ple
