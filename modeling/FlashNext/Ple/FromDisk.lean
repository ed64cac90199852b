import FlashNext.Ple.Slices
import FlashNext.Ple.Staging
import FlashNext.Ple.Stock

/-!
# The embedding from disk

The n-gram embedding of a layer, from its configuration and a checkpoint to the rows that the
model reads. The constructor makes the hash tensors, the loader opens the table, and the model
state stages the rows of every step; the stock embedding has its weight in memory, and looks up
the ids of a step.

* `built_of_init`: whatever the constructor returns has the tensors of its configuration;
* `loadWeights_of_holds`: the loader accepts a checkpoint with all rows in full shards;
* `DiskModel` is a model that the constructor and the loader have made, and `exists_diskModel`
  says that there is one for every such checkpoint;
* `rows_of_reachable`: in every run, a token of a request has the bytes that the stock embedding
  gives it for the request alone.
-/

namespace FlashNext.Ple

open Python Safetensors

/-! ## The constructor -/

/-- `padded_vocab_size`, of a layer. -/
def TextConfig.paddedVocabSize (config : TextConfig) (pleDenseLayerId : Nat) : Int :=
  let divisor := config.makeNgramVocabSizeDivisibleBy
  ((config.layout pleDenseLayerId).offset + divisor - 1) / divisor * divisor

/-- Whatever the constructor returns has the tensors of its configuration. -/
theorem built_of_init {config : TextConfig} {embeddingDim : Int} {pleDenseLayerId : Nat}
    {self : NgramEmbedding} {paddedVocabSize : Int}
    (h : NgramEmbedding.init config embeddingDim pleDenseLayerId = .ok (self, paddedVocabSize)) :
    config.Valid embeddingDim ∧ self.eosTokenId = BitVec.ofInt 64 config.eosTokenId ∧
      paddedVocabSize = config.paddedVocabSize pleDenseLayerId ∧
      ∃ multipliers, self.Built config pleDenseLayerId paddedVocabSize multipliers := by
  rw [NgramEmbedding.init] at h
  split_ifs at h with hsize hheads hdim hparts
  obtain ⟨multipliers, hmade, h⟩ := bind_eq_ok.1 h
  obtain ⟨layerMultipliers, -, h⟩ := bind_eq_ok.1 h
  obtain ⟨sizes, -, h⟩ := bind_eq_ok.1 h
  obtain ⟨offsets, -, h⟩ := bind_eq_ok.1 h
  dsimp only at h
  split_ifs at h with hdivisor
  · cases h
  obtain ⟨rfl, rfl⟩ := Prod.mk.inj (Except.ok.inj h)
  have hvalid : config.Valid embeddingDim :=
    ⟨not_lt.1 hsize, not_le.1 hheads, not_not.1 hdim, not_le.1 hparts, Nat.pos_of_ne_zero hdivisor⟩
  have hlen : multipliers.length = config.ngramSize.toNat := by
    rw [makeLayerMultipliers] at hmade
    split_ifs at hmade
    obtain rfl := Except.ok.inj hmade
    rw [List.length_map, List.length_range]
  exact ⟨hvalid, rfl, rfl, multipliers, hmade, hlen, fun k m hm => layerMultipliers.toInt_getD hm 0,
    hvalid.toNat_ngramHeads.symm, fun h size hs => sizes.toInt_getD hs 1,
    fun h offset ho => offsets.toInt_getD ho 0, le_padded _ hvalid.divisor⟩

/-- The table of the first head has rows. -/
theorem NgramEmbedding.Built.padded_pos {self : NgramEmbedding} {config : TextConfig}
    {pleDenseLayerId : Nat} {paddedVocabSize : Int} {multipliers : List Int}
    (hb : self.Built config pleDenseLayerId paddedVocabSize multipliers) : 0 < paddedVocabSize := by
  have htwo := self.two_le
  have hheads : 0 < self.ngramHeads := Nat.mul_pos (by omega) self.heads_pos
  obtain ⟨hpos, hle, -⟩ := hb.slices hheads
  have := hb.padded
  have := self.sizes_pos 0
  omega

/-! ## The loader -/

/-- A loop without a result returns when all of its rounds do. -/
theorem forM_of_ok {ε α : Type} {f : α → Except ε Unit} {xs : List α}
    (h : ∀ x ∈ xs, f x = .ok ()) : xs.forM f = .ok () := by
  induction xs with
  | nil => rfl
  | cons x xs ih =>
    rw [List.forall_mem_cons] at h
    exact bind_eq_ok.2 ⟨(), h.1, ih h.2⟩

variable {g : Geometry} {dir : Checkpoint}

/-- The embedding that the loader fills, with the rows of a checkpoint. -/
def Geometry.embedding (g : Geometry) (chunkRows : Int) : Embedding :=
  ⟨g.layer, g.vocab, g.parts, g.width, chunkRows⟩

/-- Every tensor of a file passes the check of the loader. -/
theorem checkShard_of_holds (h : g.Holds dir) (chunkRows : Int) {name : Str} {file : File}
    (hname : name ∈ dir.selected
      (fun name => (shardNumber (shardPrefix g.layer) name).isSome) true)
    (hfile : dir.open name = .ok file) :
    ∀ entry ∈ file.header, (g.embedding chunkRows).checkShard entry = .ok () := by
  intro entry hentry
  rw [Embedding.checkShard]
  split
  · rfl
  · rename_i i hnum
    have hmem : (⟨i, file, entry.2⟩ : ShardTensor) ∈ shardTensors g.layer dir := by
      refine List.mem_flatMap.2 ⟨name, hname, ?_⟩
      rw [fileTensors, hfile]
      exact List.mem_filterMap.2 ⟨entry, hentry, congrArg (Option.map _) hnum⟩
    have hpart : i < g.parts := List.mem_range.1 (h.numbers.mem_iff.1 (List.mem_map_of_mem hmem))
    have hshape : entry.2.shape = [expectedRows g.vocab g.parts i, g.width] := (h.fits _ hmem).shape
    exact (if_neg (not_le.2 hpart)).trans (if_neg (not_not.2 hshape))

/-- The loader accepts a checkpoint that has all rows in full shards. -/
theorem loadWeights_of_holds (h : g.Holds dir) (hvocab : 0 < g.vocab) (hparts : 0 < g.parts)
    (hfull : g.FullShards) (chunkRows : Int) :
    ∃ t, (g.embedding chunkRows).loadWeights dir = .ok t := by
  obtain ⟨t, -, hsorted, hinit⟩ := init_of_holds h hparts chunkRows
  rw [if_pos ((rows_eq_iff hvocab hparts hsorted).2 hfull)] at hinit
  refine ⟨t, ?_⟩
  have hchecks := forM_of_ok fun name hname => by
    obtain ⟨file, hfile⟩ := h.opens name hname
    exact bind_eq_ok.2 ⟨file, hfile, forM_of_ok (checkShard_of_holds h chunkRows hname hfile)⟩
  exact bind_eq_ok.2 ⟨(), hchecks, Embedding.mmapTable_eq_ok.2
    ⟨hinit, rowsTotal_eq hparts hsorted⟩⟩

/-- The table that the loader opens has the shards of the checkpoint, in their order. -/
theorem sorted_of_loadWeights (h : g.Holds dir) (hparts : 0 < g.parts) {chunkRows : Int} {t : Table}
    (hload : (g.embedding chunkRows).loadWeights dir = .ok t) : g.Sorted dir t.shards := by
  obtain ⟨⟨⟩, -, hload⟩ := bind_eq_ok.1 hload
  obtain ⟨t', -, hsorted, hinit⟩ := init_of_holds h hparts chunkRows
  have heq := hinit.symm.trans (Embedding.mmapTable_eq_ok.1 hload).1
  split_ifs at heq
  exact Except.ok.inj heq ▸ hsorted

/-! ## The model -/

/-- The direct lookup, of rows that are `head_dim` numbers. -/
theorem StagedModel.direct_of_shape {self : StagedModel}
    (hmod : self.table.rowBytes % self.itemsize = 0)
    (hdim : self.table.rowBytes / self.itemsize = self.headDim)
    (i : NgramInputs self.model.ngramContextLen) : self.direct i = .ok (self.tokenRows i) := by
  obtain ⟨rows, hrows, -, hflat⟩ := gatherCpu_rowIds i
  rw [direct, hrows]
  simp only [bind, Except.bind, hflat]
  rw [viewTokens_flatten length_tokenRow (length_tokenRows i) (length_rowIds i), if_neg]
  simp [hmod, hdim, Nat.mul_assoc]

/-- A model whose n-gram embedding the constructor has made for a configuration, and whose rows
    the loader has opened in a checkpoint. -/
structure DiskModel where
  config : TextConfig
  embeddingDim : Int
  pleDenseLayerId : Nat
  dir : Checkpoint
  geometry : Geometry
  /-- `QWEN4EXP_PLE_MMAP_CHUNK`. -/
  chunkRows : Int
  embedding : NgramEmbedding
  table : Table
  maxNumReqs : Nat
  maxNumTokens : Nat
  device : Device
  /-- What is in the buffer of the table at first. -/
  buffer : Rows table.rowBytes
  init_eq : NgramEmbedding.init config embeddingDim pleDenseLayerId =
    .ok (embedding, geometry.vocab)
  parts_eq : (geometry.parts : Int) = config.splitNgramParts.getD 512
  /-- `head_dim`. -/
  width_eq : (geometry.width : Int) = embeddingDim / config.ngramHeads
  width_pos : 0 < geometry.width
  chunkRows_pos : 0 < chunkRows
  loadWeights_eq : (geometry.embedding chunkRows).loadWeights dir = .ok table
  /-- The checkpoint has each shard once, with its bytes. -/
  holds : geometry.Holds dir
  vocab_lt : geometry.vocab < 2 ^ 63
  /-- The end of a text is a token of 32 bits. -/
  eos_le : -2 ^ 31 ≤ config.eosTokenId
  eos_lt : config.eosTokenId < 2 ^ 31

/-- There is such a model for every configuration whose tables fit, and every checkpoint that has
    all of its rows in full shards. -/
theorem exists_diskModel {config : TextConfig} {embeddingDim : Int} {pleDenseLayerId : Nat}
    (hvalid : config.Valid embeddingDim) (hpos : 1 ≤ config.vocabSize)
    (hlt : config.vocabSize < 2 ^ 63) (heos : -2 ^ 31 ≤ config.eosTokenId)
    (heos' : config.eosTokenId < 2 ^ 31)
    (hvocab : (g.vocab : Int) = config.paddedVocabSize pleDenseLayerId) (hfits : g.vocab < 2 ^ 63)
    (hparts : (g.parts : Int) = config.splitNgramParts.getD 512)
    (hwidth : (g.width : Int) = embeddingDim / config.ngramHeads) (hwidth' : 0 < g.width)
    (h : g.Holds dir) (hfull : g.FullShards) {chunkRows : Int} (hchunk : 0 < chunkRows)
    (maxNumReqs maxNumTokens : Nat) (device : Device) :
    ∃ self : DiskModel, self.config = config ∧ self.pleDenseLayerId = pleDenseLayerId ∧
      self.dir = dir ∧ self.geometry = g ∧ self.maxNumReqs = maxNumReqs ∧
      self.maxNumTokens = maxNumTokens ∧ self.device = device := by
  have htotal : (config.layout pleDenseLayerId).offset < 2 ^ 63 := by
    have := le_padded (config.layout pleDenseLayerId).offset hvalid.divisor
    rw [TextConfig.paddedVocabSize] at hvocab
    omega
  obtain ⟨embedding, paddedVocabSize, multipliers, hinit, hb⟩ :=
    init_eq_ok hvalid hpos hlt htotal
  obtain rfl : paddedVocabSize = g.vocab := (built_of_init hinit).2.2.1.trans hvocab.symm
  have hparts' : 0 < g.parts := by
    have := hvalid.splitNgramParts
    omega
  obtain ⟨table, hload⟩ := loadWeights_of_holds h (Int.natCast_pos.1 hb.padded_pos) hparts' hfull
    chunkRows
  exact ⟨⟨config, embeddingDim, pleDenseLayerId, dir, g, chunkRows, embedding, table, maxNumReqs,
    maxNumTokens, device, Rows.zero _, hinit, hparts, hwidth, hwidth', hchunk, hload, h, hfits,
    heos, heos'⟩, rfl, rfl, rfl, rfl, rfl, rfl, rfl⟩

namespace DiskModel

variable (self : DiskModel)

theorem valid : self.config.Valid self.embeddingDim := (built_of_init self.init_eq).1

theorem parts_pos : 0 < self.geometry.parts := by
  have := self.valid.splitNgramParts
  have := self.parts_eq
  omega

/-- The slices of the heads are in the rows. -/
theorem slices {h : Nat} (hh : h < self.embedding.ngramHeads) :
    0 ≤ (self.embedding.ngramHeadsOffsets h).toInt ∧
      (self.embedding.ngramHeadsOffsets h).toInt + (self.embedding.ngramHeadsVocabSizes h).toInt ≤
        self.geometry.vocab := by
  obtain ⟨-, -, -, multipliers, hb⟩ := built_of_init self.init_eq
  obtain ⟨hpos, hle, -⟩ := hb.slices hh
  exact ⟨hpos, hle.trans hb.padded⟩

theorem vocab_pos : 0 < self.geometry.vocab := by
  obtain ⟨-, -, -, multipliers, hb⟩ := built_of_init self.init_eq
  exact Int.natCast_pos.1 hb.padded_pos

theorem loaded : Loaded (self.geometry.embedding self.chunkRows) self.table :=
  Embedding.loaded self.loadWeights_eq

theorem sorted : self.geometry.Sorted self.dir self.table.shards :=
  sorted_of_loadWeights self.holds self.parts_pos self.loadWeights_eq

theorem rowBytes_eq : self.table.rowBytes = self.geometry.width * self.geometry.size :=
  self.sorted.rowBytes List.mem_cons_self

theorem rowBytes_pos : 0 < self.table.rowBytes :=
  self.rowBytes_eq ▸ Nat.mul_pos self.width_pos (dtypeBytes_pos self.geometry.size_eq)

/-- The model state. -/
def modelState : ModelState where
  embedding := self.embedding
  ngramEosTokenId := BitVec.ofInt 32 self.config.eosTokenId
  maxNumReqs := self.maxNumReqs
  eos_eq := by
    have hle := self.eos_le
    have hlt := self.eos_lt
    rw [(built_of_init self.init_eq).2.1]
    refine BitVec.eq_of_toInt_eq ?_
    rw [BitVec.toInt_signExtend_of_le (by decide), BitVec.toInt_ofInt_eq_self (by decide),
      BitVec.toInt_ofInt_eq_self (by decide) hle hlt] <;> omega

/-- The model with the rows on disk. -/
def staged : StagedModel where
  model := self.modelState
  table := self.table.gatherTable self.loaded.toAccepted self.rowBytes_pos.ne'
    (self.loaded.chunkRows.symm ▸ self.chunkRows_pos)
    (fun id hid => Table.readable_of_inTable self.loaded (whole_of_holds self.holds self.sorted)
      ⟨Int.natCast_nonneg id, by exact_mod_cast hid⟩) self.buffer
  headDim := self.geometry.width
  itemsize := self.geometry.size
  maxNumTokens := self.maxNumTokens
  device := self.device
  rowsTotal_lt := self.loaded.vocab.trans_lt self.vocab_lt
  in_table h hh := by
    change 0 ≤ _ ∧ _ ≤ (self.table.rowsTotal : Int)
    rw [self.loaded.vocab]
    exact self.slices hh

/-! ## The stock embedding -/

/-- A row of the stock embedding, which has its weight in memory, for a token with the ids
    `ids`. -/
def stockRow (ids : List (BitVec 64)) : List UInt8 :=
  (ids.map fun id => self.geometry.stockWeight (shardTensors self.geometry.layer self.dir)
    id.toInt.toNat).flatten

/-- `forward` of the stock embedding. -/
def stockForward (i : NgramInputs self.staged.model.ngramContextLen) : List (List UInt8) :=
  (self.staged.model.embedding.computeNgramIds self.staged.device i).map self.stockRow

/-- `forward` of the stock embedding for a request alone, in one step. -/
def aloneRows (tokens : List (BitVec 32)) : List (List UInt8) :=
  self.stockForward (self.staged.model.prepareInputs (.fresh tokens) (alone tokens))

variable {self}

/-- The rows on disk are those of the stock embedding. -/
theorem tokenRows_eq (i : NgramInputs self.staged.model.ngramContextLen) :
    self.staged.tokenRows i = self.stockForward i := by
  refine List.map_congr_left fun ids hids => ?_
  refine congrArg List.flatten (List.map_congr_left fun id hid => ?_)
  obtain ⟨h0, hlt⟩ := (@StagedModel.ids_in_table self.staged i ids hids).2 id hid
  have hvocab : self.staged.table.rowsTotal = self.geometry.vocab := self.loaded.vocab
  exact row_eq_stockWeight self.vocab_pos self.parts_pos self.sorted self.holds self.loaded
    (by omega)

/-- The direct lookup returns the rows of the stock embedding. -/
theorem direct_eq (i : NgramInputs self.staged.model.ngramContextLen) :
    self.staged.direct i = .ok (self.stockForward i) := by
  have hsize := dtypeBytes_pos self.geometry.size_eq
  have hshape : self.staged.table.rowBytes = self.geometry.width * self.geometry.size :=
    self.rowBytes_eq
  refine (StagedModel.direct_of_shape (hshape ▸ Nat.mul_mod_left _ _) ?_ i).trans
    (congrArg Except.ok (tokenRows_eq i))
  exact (congrArg (· / _) hshape).trans (Nat.mul_div_cancel _ hsize)

/-- The stock embedding gives a token of a step what it gives the request alone. -/
theorem stockForward_eq {req : RequestState} {b : InputBatch} {r q : Nat}
    {tokens : List (BitVec 32)} (h : Feeds req b r tokens) (hq : b.queryStartLoc.getD r 0 ≤ q)
    (hq' : q < b.queryStartLoc.getD (r + 1) 0) :
    (self.stockForward (self.staged.model.prepareInputs req b))[q]? = (self.aloneRows tokens)[
      req.numComputedTokens (b.idxMapping.getD r 0) + (q - b.queryStartLoc.getD r 0)]? := by
  have hids := ids_prepareInputs self.staged.model self.staged.device h hq hq'
  have halone := @aloneIds_eq self.staged.model _ self.staged.device _ (h.lt_length hq hq')
  rw [stockForward, aloneRows, stockForward, List.getElem?_map, List.getElem?_map]
  exact congrArg (Option.map _) (hids.trans halone.symm)

end DiskModel

/-- The model from disk is the stock model. After any run, a step with real requests that the
    buffers have room for returns, and so does the forward pass: it gives every token of every
    request what the stock embedding, with its weight in memory, gives it for the request alone,
    in one step, and zeros to the padding. -/
theorem rows_of_reachable {self : DiskModel} {s : StagedState self.staged.model.ngramContextLen}
    (hs : self.staged.stagedSystem.Reachable s) {b : InputBatch} (hreal : b.real = true)
    (hreqs : b.numReqsAfterPadding ≤ self.maxNumReqs)
    (hcap : b.numTokensAfterPadding ≤ self.maxNumTokens) :
    ∃ s' rows, self.staged.stagedSystem.Occurs s (.step b) s' ∧
      self.staged.forward s' b.numTokensAfterPadding = .ok rows ∧
      rows.length = b.numTokensAfterPadding ∧
      (∀ r tokens, Feeds s.context.req b r tokens → ∀ q, b.queryStartLoc.getD r 0 ≤ q →
        q < b.queryStartLoc.getD (r + 1) 0 → ∃ row, rows[q]? = some row ∧
          (self.aloneRows tokens)[s.context.req.numComputedTokens (b.idxMapping.getD r 0) +
            (q - b.queryStartLoc.getD r 0)]? = some row) ∧
      ∀ q, b.numTokens ≤ q → q < b.numTokensAfterPadding →
        rows[q]? = some (List.replicate self.staged.tokenBytes 0) := by
  obtain ⟨hstep, hforward⟩ := forward_eq_direct hs hreal hcap
  obtain ⟨s', hocc⟩ := hstep hreqs
  have hrows := (hforward s' hocc).2.trans (congrArg (Functor.map _) (DiskModel.direct_eq _))
  have hle := b.tokens_le
  -- The stock embedding has a row for every token.
  have hlen : (self.stockForward (self.staged.model.prepareInputs s.context.req b)).length =
      b.numTokensAfterPadding := by
    rw [← DiskModel.tokenRows_eq]
    exact (StagedModel.length_tokenRows _).trans ((List.length_map _).trans b.inputIds_length)
  have htake : ((self.stockForward (self.staged.model.prepareInputs s.context.req b)).take
      b.numTokens).length = b.numTokens := by
    rw [List.length_take]
    omega
  refine ⟨s', _, hocc, hrows, ?_, fun r tokens hfeeds q hq hq' => ?_, fun q hq hq' => ?_⟩
  · rw [List.length_append, htake, List.length_replicate]
    omega
  · have hlt := lt_numTokens hfeeds.row hq'
    refine ⟨(self.stockForward (self.staged.model.prepareInputs s.context.req b))[q], ?_, ?_⟩
    · rw [List.getElem?_append_left (by omega), List.getElem?_take_of_lt hlt,
        List.getElem?_eq_getElem]
    · rw [← DiskModel.stockForward_eq hfeeds hq hq', List.getElem?_eq_getElem]
  · rw [List.getElem?_append_right (by omega), htake, List.getElem?_replicate, if_pos (by omega)]

/-- Bigrams with one head, in a table of three rows. -/
def bigramConfig : TextConfig where
  ngramSize := 2
  headsPerNgram := 1
  eosTokenId := 0
  vocabSize := 10
  splitNgramParts := some 2
  seed := none
  ngramVocabSizeBase := 3
  makeNgramVocabSizeDivisibleBy := 1

/-- The model before it has taken any request. -/
def DiskModel.start (self : DiskModel) : StagedState self.staged.model.ngramContextLen where
  context :=
    { ngramContext := List.replicate self.staged.model.maxNumReqs self.staged.model.eosRow
      pleQueryStartLoc := List.replicate (self.staged.model.maxNumReqs + 1) 0
      inputs := none
      req := ⟨fun _ => 0, fun _ _ => 0⟩ }
  staging := List.replicate (self.staged.maxNumTokens * self.staged.tokenBytes) 0

/-- The second request has the tokens `8` and `9` behind the `7` that the engine holds. -/
theorem feeds_twoRequests : Feeds atSecond twoRequests 1 [7, 8, 9] := by
  refine ⟨by decide, fun p hp => ?_, fun q hq hq' => ?_⟩
  · obtain rfl : p = 0 := Nat.lt_one_iff.1 hp
    rfl
  · obtain rfl | rfl : q = 1 ∨ q = 2 := by
      simp only [twoRequests, List.getD_cons_succ, List.getD_cons_zero] at hq hq'
      omega
    · rfl
    · rfl

/-- The token `8` of the second request has the row that it has behind the `7` alone. -/
theorem rows_of_reachable_twoRequests : ∃ (self : DiskModel)
    (s s' : StagedState self.staged.model.ngramContextLen) (rows : List (List UInt8))
    (row : List UInt8),
    self.dir = ⟨none, [threeRowsFile]⟩ ∧ self.staged.stagedSystem.Occurs s (.step twoRequests) s' ∧
    self.staged.forward s' 4 = .ok rows ∧ rows[1]? = some row ∧
    (self.aloneRows [7, 8, 9])[1]? = some row := by
  obtain ⟨self, -, -, hdir, -, hreqs, htokens, -⟩ :=
    @exists_diskModel threeRowsGeometry ⟨none, [threeRowsFile]⟩ bigramConfig 2 0
      ⟨by decide, by decide, by decide, by decide, by decide⟩ (by decide) (by decide) (by decide)
      (by decide) (by decide +kernel) (by decide) rfl rfl (by decide) threeRows_holds (by decide)
      8 (by decide) 2 4 .cuda
  have hstart : self.staged.stagedSystem.Reachable self.start := .init ⟨⟨rfl, rfl, rfl⟩, rfl⟩
  obtain ⟨s', rows, hocc, hforward, -, hrows, -⟩ := rows_of_reachable
    (hstart.step (a := .engine atSecond) rfl) (b := twoRequests) rfl (hreqs ▸ by decide)
    (htokens ▸ by decide)
  obtain ⟨row, hrow, halone⟩ := hrows 1 [7, 8, 9] feeds_twoRequests 1 (by decide) (by decide)
  exact ⟨self, _, s', rows, row, hdir, hocc, hforward, hrow, halone⟩

end FlashNext.Ple
