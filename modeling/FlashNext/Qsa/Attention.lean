import Mathlib.Data.Nat.Size
import FlashNext.Qsa.Compress
import FlashNext.Qsa.Launch

/-!
# The sparse attention over paged caches

`qsa_sparse_paged_attention` of `ops_qsa.py`: its checks, its profile of tiles and splits
(`AttentionCall.blockN`, `numSplits`) and its launches.

* `splits_of_check` and `shaped_of_check`: no split is without a tile, and the sizes fit
  together;
* `sparse_of_ok`: every row of a call that returns has the softmax over the tokens that are
  selected for it and that its request has a page for;
* `isolated`: nothing else has an influence on a row;
* `packed_of_ok`: the attention over packed NVFP4 caches is that over the numbers packed.
-/

namespace FlashNext.Qsa

open FloatFormat (bfloat16)

/-! ## Calls -/

/-- A tensor. -/
structure Tensor (A : Type*) where
  shape : List Nat
  stride : List Int
  dtype : Dtype
  device : Nat
  data : A

/-- Bits, by block, token, head, and dimension or byte. -/
abbrev Pages := Int → Nat → Nat → Nat → Nat

/-- The arguments of `qsa_sparse_paged_attention`. -/
structure AttentionCall where
  /-- `q.is_cuda and HAS_TRITON`. -/
  cuda : Bool
  q : Tensor (Nat → Nat → Nat → ℝ)
  kCache : Tensor Pages
  vCache : Tensor Pages
  logicalIndices : Tensor (Nat → Nat → Int)
  blockTable : Tensor (Int → Int → Int)
  tokenToReq : Tensor (Nat → Int)
  out : Option (Tensor Unit)
  kScale : Option (Tensor ℝ)
  vScale : Option (Tensor ℝ)
  kScaleCache : Option (Tensor Pages)
  vScaleCache : Option (Tensor Pages)
  vScaleSwizzled : Bool

namespace AttentionCall

variable (c : AttentionCall)

/-- `use_nvfp4`. -/
def useNvfp4 : Bool := c.kScaleCache.isSome

/-- `use_fp8`. -/
def useFp8 : Bool := c.kCache.dtype == .float8E4m3fn

/-- `quantized`. -/
def quantized : Bool := c.useFp8 || c.useNvfp4

/-- `head_dim`. -/
def headDim : Nat := c.q.shape.getD 2 0

/-- `row_width`. -/
def rowWidth : Nat := if c.useNvfp4 then c.headDim / 2 else c.headDim

/-- The checks of the block scales. -/
def checkScalePages : Except QsaErr Unit :=
  match c.kScaleCache with
  | none =>
    if c.kCache.dtype = .uint8 then
      .error (.valueError "QSA uint8 K/V cache without block scales is not nvfp4")
    else .ok ()
  | some ks =>
    if c.kCache.dtype ≠ .uint8 then
      .error (.valueError "QSA nvfp4 KV cache must be stored as uint8")
    else match c.vScaleCache with
    | none => .error (.valueError "QSA nvfp4 KV cache requires both scale pages")
    | some vs =>
      if ks.dtype ≠ .uint8 ∨ vs.dtype ≠ .uint8 then
        .error (.valueError "QSA nvfp4 block scales must be raw uint8 bits")
      else if ks.shape.getD 3 0 ≠ c.headDim / 16 then
        .error (.valueError "QSA nvfp4 block-scale page has the wrong width")
      else if ks.shape.take 3 ≠ c.kCache.shape.take 3 then
        .error (.valueError "QSA nvfp4 data and scale pages disagree in shape")
      else if ks.stride.getD 3 0 ≠ 1 ∨ vs.stride.getD 3 0 ≠ 1 then
        .error (.valueError "QSA nvfp4 block scales must be contiguous per row")
      else .ok ()

/-- The checks of the scales of the layer. -/
def checkScales : Except QsaErr Unit :=
  if c.quantized then
    match c.kScale, c.vScale with
    | some ks, some vs =>
      if ks.shape.prod ≠ 1 ∨ vs.shape.prod ≠ 1 then
        .error (.valueError "QSA quantized KV cache expects scalar per-layer scales")
      else if ks.device ≠ c.q.device ∨ vs.device ≠ c.q.device then
        .error (.valueError "QSA KV scales must live on the query device")
      else .ok ()
    | _, _ => .error (.valueError "QSA quantized KV cache requires k_scale and v_scale")
  else .ok ()

/-- The checks of the shapes. -/
def checkShapes : Except QsaErr Unit :=
  if c.cuda = false then
    .error (.runtimeError "paged QSA sparse attention requires CUDA and Triton")
  else if c.q.shape.length ≠ 3 ∨ c.kCache.shape.length ≠ 4 ∨ c.vCache.shape ≠ c.kCache.shape then
    .error (.valueError "QSA sparse attention received invalid Q/K/V shapes")
  else if c.logicalIndices.shape.length ≠ 2 ∨
      c.logicalIndices.shape.getD 0 0 ≠ c.q.shape.getD 0 0 then
    .error (.valueError "QSA indices must have one row per query")
  else if c.tokenToReq.shape ≠ [c.q.shape.getD 0 0] ∨ c.blockTable.shape.length ≠ 2 then
    .error (.valueError "QSA sparse attention metadata has invalid shapes")
  else if 0 ∈ c.kCache.shape.take 3 ∨ 0 ∈ c.blockTable.shape then
    .error (.valueError "QSA sparse attention cache and block table must be nonempty")
  else if c.logicalIndices.shape.getD 1 0 = 0 then
    .error (.valueError "QSA sparse attention requires a positive selection width")
  else if c.rowWidth ≠ c.kCache.shape.getD 3 0 ∨
      c.q.shape.getD 1 0 % c.kCache.shape.getD 2 0 ≠ 0 then
    .error (.valueError "QSA sparse attention requires valid grouped-query heads")
  else if ¬(16 ≤ c.headDim ∧ c.headDim &&& (c.headDim - 1) = 0) then .error .assertionError
  else if ¬(c.q.dtype = .bfloat16 ∧ c.kCache.dtype = c.vCache.dtype ∧
      c.kCache.dtype ∈ [.bfloat16, .float8E4m3fn, .uint8]) then .error .assertionError
  else .ok ()

/-- The checks of the metadata, and those of the output. -/
def checkMetadata : Except QsaErr Unit :=
  if ¬(c.logicalIndices.dtype = .int32 ∧ c.blockTable.dtype = .int32 ∧
      c.tokenToReq.dtype = .int32) then .error .assertionError
  else if ¬(∀ device ∈ [c.kCache.device, c.vCache.device, c.logicalIndices.device,
      c.blockTable.device, c.tokenToReq.device], c.q.device = device) then .error .assertionError
  else if ¬(c.q.stride.getD 2 0 = 1 ∧ c.kCache.stride.getD 3 0 = 1 ∧ c.vCache.stride.getD 3 0 = 1 ∧
      c.logicalIndices.stride.getD 1 0 = 1 ∧ c.blockTable.stride.getD 1 0 = 1 ∧
      c.tokenToReq.stride.getD 0 0 = 1) then .error .assertionError
  else if ∃ out ∈ c.out, out.shape ≠ c.q.shape then
    .error (.valueError "QSA sparse output must match its query")
  else if ∃ out ∈ c.out, ¬(out.dtype = c.q.dtype ∧ out.device = c.q.device ∧
      out.stride.getD 2 0 = 1) then .error .assertionError
  else .ok ()

/-- All checks, in order. -/
def check : Except QsaErr Unit :=
  c.checkShapes.bind fun _ => c.checkScalePages.bind fun _ => c.checkScales.bind fun _ =>
    c.checkMetadata

/-! ## Profiles -/

/-- `group_size`. -/
def groupSize : Nat := c.q.shape.getD 1 0 / c.kCache.shape.getD 2 0

/-- `base_programs`. -/
def basePrograms : Nat := c.q.shape.getD 0 0 * c.kCache.shape.getD 2 0

/-- `small_profile_limit`. -/
def smallProfileLimit : Nat := if nextPowerOf2 c.groupSize ≤ 8 then 8 else 4

/-- `block_n` and `target_splits`, for BF16 caches. -/
def profile : Nat × Nat :=
  if c.basePrograms ≤ c.smallProfileLimit then (16, 64)
  else if c.basePrograms < 32 then (16, 32)
  else if c.basePrograms ≤ 256 then (64, 8)
  else if c.basePrograms ≤ 512 then (64, 4)
  else (64, 1)

/-- `block_n`. -/
def blockN : Nat :=
  if c.quantized ∧ 16 < c.profile.1 ∧ c.useNvfp4 then 32 else c.profile.1

/-- `num_tiles`. -/
def numTiles : Nat := (c.logicalIndices.shape.getD 1 0 + c.blockN - 1) / c.blockN

/-- `max_useful_splits`. -/
def maxUsefulSplits : Nat := 1 <<< (c.numTiles.size - 1)

/-- `num_splits`. -/
def numSplits : Nat := min c.maxUsefulSplits c.profile.2

noncomputable section

/-- The caches, as the kernel reads them. -/
def caches : KvCaches :=
  let kScale := c.kScale.elim 0 Tensor.data
  let vScale := c.vScale.elim 0 Tensor.data
  let bytes (pages : Pages) (block : Int) (token head byte : Nat) :=
    BitVec.ofNat 8 (pages block token head byte)
  let number (pages : Pages) (block : Int) (token head dim : Nat) : ℝ :=
    bfloat16.value 15 (pages block token head dim)
  match c.kScaleCache, c.vScaleCache with
  | some ks, some vs =>
    .nvfp4 ⟨bytes c.kCache.data, bytes ks.data⟩ ⟨bytes c.vCache.data, bytes vs.data⟩ kScale vScale
      c.vScaleSwizzled
  | _, _ =>
    if c.useFp8 then .fp8 (bytes c.kCache.data) (bytes c.vCache.data) kScale vScale
    else .bfloat16 (number c.kCache.data) (number c.vCache.data)

/-- The arguments of the launches. -/
def args : AttentionArgs where
  q := c.q.data
  caches := c.caches
  indices := c.logicalIndices.data
  blockTable := c.blockTable.data
  tokenToReq := c.tokenToReq.data
  numRows := c.q.shape.getD 0 0
  numCacheBlocks := c.kCache.shape.getD 0 0
  numRequests := c.blockTable.shape.getD 0 0
  topk := c.logicalIndices.shape.getD 1 0
  pageSize := c.kCache.shape.getD 1 0
  pageTableWidth := c.blockTable.shape.getD 1 0
  groupSize := c.groupSize
  headDim := c.headDim
  numKvHeads := c.kCache.shape.getD 2 0
  numQueryHeads := c.q.shape.getD 1 0
  numSplits := c.numSplits
  numTiles := c.numTiles
  blockM := nextPowerOf2 c.groupSize
  blockN := c.blockN
  blockSplits := nextPowerOf2 c.numSplits

end

end AttentionCall

noncomputable section

/-- `qsa_sparse_paged_attention`, with the programs of its launches in some orders. -/
def qsaSparsePagedAttention (c : AttentionCall) (order : List SplitProgram)
    (mergeOrder : List (Nat × Nat)) (m : OutCell → WithBot ℝ) :
    Except QsaErr (OutCell → WithBot ℝ) :=
  c.check.bind fun _ =>
    if c.q.shape.getD 0 0 = 0 then .ok m else .ok (c.args.launch order mergeOrder m)

end

namespace AttentionCall

variable {c : AttentionCall}

/-! ## Sizes -/

/-- What has passed the checks of the shapes. -/
theorem shapes_of_check (h : c.check = .ok ()) :
    0 ∉ c.kCache.shape.take 3 ∧ c.logicalIndices.shape.getD 1 0 ≠ 0 ∧ c.kCache.shape.length = 4 ∧
      c.q.shape.getD 1 0 % c.kCache.shape.getD 2 0 = 0 ∧ 16 ≤ c.headDim ∧
      c.headDim &&& (c.headDim - 1) = 0 := by
  obtain ⟨_, hshapes, -⟩ := bind_eq_ok.1 h
  simp only [checkShapes, ite_error_eq_ok] at hshapes
  obtain ⟨-, hranks, -, -, hcache, hwidth, hheads, hdim, -⟩ := hshapes
  push Not at hranks hcache hheads
  exact ⟨hcache.1, hwidth, hranks.2.1, hheads.2, (not_not.1 hdim).1, (not_not.1 hdim).2⟩

theorem blockN_pos : 0 < c.blockN := by
  unfold blockN profile
  split_ifs <;> decide

/-- The tiles cover the selection. -/
theorem topk_le_tiles : c.logicalIndices.shape.getD 1 0 ≤ c.numTiles * c.blockN :=
  le_chunks_mul blockN_pos _

theorem numTiles_pos (h : c.check = .ok ()) : 0 < c.numTiles := by
  obtain ⟨-, hwidth, -⟩ := shapes_of_check h
  refine Nat.pos_of_ne_zero fun hzero => hwidth ?_
  have hle := c.topk_le_tiles
  rw [hzero, Nat.zero_mul] at hle
  exact Nat.le_zero.1 hle

theorem maxUsefulSplits_le (h : c.check = .ok ()) : c.maxUsefulSplits ≤ c.numTiles := by
  rw [maxUsefulSplits, Nat.one_shiftLeft]
  have hpos := Nat.size_pos.2 (numTiles_pos h)
  exact Nat.lt_size.1 (Nat.sub_lt hpos Nat.one_pos)

/-- The number of splits is a power of two. -/
theorem exists_numSplits_eq (c : AttentionCall) : ∃ k, c.numSplits = 2 ^ k := by
  have htarget : ∃ k, c.profile.2 = 2 ^ k := by
    unfold profile
    split_ifs
    exacts [⟨6, rfl⟩, ⟨5, rfl⟩, ⟨3, rfl⟩, ⟨2, rfl⟩, ⟨0, rfl⟩]
  rw [numSplits, maxUsefulSplits, Nat.one_shiftLeft]
  rcases min_choice (2 ^ (c.numTiles.size - 1)) c.profile.2 with hmin | hmin <;> rw [hmin]
  · exact ⟨_, rfl⟩
  · exact htarget

theorem numSplits_pos : 0 < c.numSplits := by
  obtain ⟨k, hk⟩ := c.exists_numSplits_eq
  rw [hk]
  exact Nat.two_pow_pos k

/-- The sizes of a call that passes the checks fit together. -/
theorem shaped_of_check (h : c.check = .ok ()) : c.args.Shaped where
  heads := by
    obtain ⟨-, -, -, hheads, -⟩ := shapes_of_check h
    exact (Nat.mul_div_cancel' (Nat.dvd_of_mod_eq_zero hheads)).symm
  lanes := le_nextPowerOf2 _
  block := blockN_pos
  splits := numSplits_pos
  merge := le_nextPowerOf2 _

/-- Every split has a tile, the splits are as many as the lanes of the merge, and the tiles
    end less than a tile after the selection. -/
theorem splits_of_check (h : c.check = .ok ()) :
    (∀ i < c.numSplits, i * c.numTiles / c.numSplits < (i + 1) * c.numTiles / c.numSplits) ∧
      nextPowerOf2 c.numSplits = c.numSplits ∧
      c.logicalIndices.shape.getD 1 0 ≤ c.numTiles * c.blockN ∧
      c.numTiles * c.blockN < c.logicalIndices.shape.getD 1 0 + c.blockN := by
  have hsplits := c.numSplits_pos
  refine ⟨fun i _ => ?_, ?_, topk_le_tiles, ?_⟩
  · have hle : c.numSplits ≤ c.numTiles := (min_le_left _ _).trans (maxUsefulSplits_le h)
    calc i * c.numTiles / c.numSplits
      _ < i * c.numTiles / c.numSplits + 1 := Nat.lt_succ_self _
      _ = (i * c.numTiles + c.numSplits) / c.numSplits := (Nat.add_div_right _ hsplits).symm
      _ ≤ (i + 1) * c.numTiles / c.numSplits := by
        rw [Nat.succ_mul]
        exact Nat.div_le_div_right (Nat.add_le_add_left hle _)
  · obtain ⟨k, hk⟩ := c.exists_numSplits_eq
    rw [nextPowerOf2, if_neg hsplits.ne', hk, Nat.clog_pow 2 k Nat.one_lt_two]
  · have hpos := c.blockN_pos
    have hle := Nat.div_mul_le_self (c.logicalIndices.shape.getD 1 0 + c.blockN - 1) c.blockN
    rw [numTiles]
    omega

/-- A call that returns has passed the checks and has run its launches. -/
theorem launch_of_ok {order : List SplitProgram} {mergeOrder : List (Nat × Nat)}
    {m m' : OutCell → WithBot ℝ} (h : qsaSparsePagedAttention c order mergeOrder m = .ok m')
    (horder : order.Perm c.args.splitGrid) (hmerge : mergeOrder.Perm c.args.mergeGrid) :
    c.check = .ok () ∧ m' = c.args.launch order mergeOrder m := by
  obtain ⟨_, hcheck, h⟩ := bind_eq_ok.1 h
  refine ⟨hcheck, ?_⟩
  split_ifs at h with hrows
  · -- Without rows there are no programs.
    have hgrid : c.args.splitGrid = [] ∧ c.args.mergeGrid = [] := by
      have hnum : c.args.numRows = 0 := hrows
      rw [AttentionArgs.splitGrid, AttentionArgs.mergeGrid, hnum]
      exact ⟨rfl, rfl⟩
    rw [hgrid.1, List.perm_nil] at horder
    rw [hgrid.2, List.perm_nil] at hmerge
    rw [← Except.ok.inj h, horder, hmerge, AttentionArgs.launch]
    simp
  · exact (Except.ok.inj h).symm

end AttentionCall

/-! ## The attention of a row -/

noncomputable section

/-- The attention of a head only depends on its valid columns. -/
theorem Head.attention_congr {D : Nat} {h : Head D} {f : Scaling} {columns : Columns D}
    (hvalid : ∀ c, columns.valid c = h.columns.valid c)
    (hkeys : ∀ c, h.columns.valid c = true → columns.keys c = h.columns.keys c)
    (hvalues : ∀ c, h.columns.valid c = true → columns.values c = h.columns.values c)
    (numSplits blockSplits : Nat) :
    { h with columns := columns }.attention f numSplits blockSplits =
      h.attention f numSplits blockSplits := by
  have hkey : ∀ c, { h with columns := columns }.key f c = h.key f c := by
    intro c
    simp only [Head.key, hvalid]
    split_ifs with hc
    · rw [hkeys c hc]
    · rfl
  have hvalue : ∀ c, { h with columns := columns }.value f c = h.value f c := by
    intro c
    simp only [Head.value, hvalid]
    split_ifs with hc
    · rw [hvalues c hc]
    · rfl
  have hscore : ∀ c, { h with columns := columns }.score f c = h.score f c := by
    intro c
    simp only [Head.score, hvalid, hkey]
    rfl
  have htile : { h with columns := columns }.tile f = h.tile f := by
    funext st tile
    simp only [Head.tile, hvalid, hvalue, hscore]
  have hsplit : ∀ i n, { h with columns := columns }.split f i n = h.split f i n := by
    intro i n
    simp only [Head.split, htile]
  simp only [Head.attention, hsplit]
  rfl

namespace AttentionArgs

variable (a : AttentionArgs) (row head column : Nat)

/-- The block and the token of a selected column, if the request of the row has a page of
    the caches for it. -/
def location : Option (Int × Nat) :=
  let request := a.tokenToReq row
  let token := a.indices row column
  let block := a.blockTable request (token / a.pageSize)
  if 0 ≤ request ∧ request < a.numRequests ∧ 0 ≤ token ∧ token / a.pageSize < a.pageTableWidth ∧
      0 ≤ block ∧ block < a.numCacheBlocks then
    some (block, (token % a.pageSize).toNat)
  else none

/-- The columns of a row that have a location. -/
def selected : Finset Nat :=
  (Finset.range a.topk).filter fun column => (a.location row column).isSome

/-- A row of the keys. -/
def rowKey : Fin a.headDim → ℝ := fun dim =>
  (a.location row column).elim 0 fun x => a.caches.key a.headDim x.1 x.2 (head / a.groupSize) dim

/-- A row of the values. -/
def rowValue : Fin a.headDim → ℝ := fun dim =>
  (a.location row column).elim 0 fun x => a.caches.value a.headDim x.1 x.2 (head / a.groupSize) dim

/-- The score of a column, to base 2. -/
def rowScore : ℝ :=
  (∑ dim : Fin a.headDim, a.q row head dim * a.rowKey row head column dim) *
    ((a.headDim : ℝ) ^ (-0.5 : ℝ) * 1.4426950408889634)

/-- The softmax over the selected tokens. -/
def sparseAttention : Fin a.headDim → ℝ :=
  softmaxMean (a.selected row) (a.rowScore row head) (a.rowValue row head)

variable {a row head column}

/-- The location of a column that is gathered. -/
theorem location_of_valid {kvHead : Nat} (h : (a.gather row kvHead).columns.valid column = true) :
    column < a.topk ∧ a.location row column =
      some (max ((a.gather row kvHead).physicalPage column) 0,
        ((a.gather row kvHead).pageOffset column).toNat) := by
  simp only [Gather.columns, Bool.and_eq_true, decide_eq_true_eq] at h
  obtain ⟨⟨hpage, hblock⟩, hcache⟩ := h
  have hphysical : (a.gather row kvHead).physicalPage column =
      (a.gather row kvHead).blockTable
        (min (max (a.gather row kvHead).request 0) ((a.gather row kvHead).numRequests - 1))
        (min ((a.gather row kvHead).logicalPage column)
          ((a.gather row kvHead).pageTableWidth - 1)) := if_pos hpage
  simp only [Gather.hasPage, Bool.and_eq_true, decide_eq_true_eq] at hpage
  obtain ⟨⟨⟨hrequest, hnum⟩, htoken⟩, hwidth⟩ := hpage
  have htopk : column < a.topk := by
    by_contra hge
    have hnone : (a.gather row kvHead).logicalToken column = -1 := if_neg hge
    omega
  have hlogical : (a.gather row kvHead).logicalToken column = a.indices row column := if_pos htopk
  rw [min_eq_left (by omega), min_eq_left (by omega), max_eq_left hrequest] at hphysical
  rw [Gather.logicalPage, max_eq_left htoken, hlogical] at hphysical hwidth
  rw [hlogical] at htoken
  rw [hphysical] at hblock hcache
  refine ⟨htopk, ?_⟩
  rw [location, hphysical, max_eq_left hblock, Gather.pageOffset, hlogical, max_eq_left htoken]
  exact if_pos ⟨hrequest, hnum, htoken, hwidth, hblock, hcache⟩

/-- A column with a location is gathered. -/
theorem valid_of_location (kvHead : Nat) (htopk : column < a.topk)
    (h : (a.location row column).isSome) :
    (a.gather row kvHead).columns.valid column = true := by
  rw [location] at h
  have hcond := Option.isSome_ite.1 h
  obtain ⟨hrequest, hnum, htoken, hwidth, hblock, hcache⟩ := hcond
  have hlogical : (a.gather row kvHead).logicalToken column = a.indices row column := if_pos htopk
  have hlogicalPage :
      (a.gather row kvHead).logicalPage column = a.indices row column / a.pageSize := by
    rw [Gather.logicalPage, hlogical, max_eq_left htoken]
    rfl
  have hpage : (a.gather row kvHead).hasPage column = true := by
    simp only [Gather.hasPage, Bool.and_eq_true, decide_eq_true_eq, hlogical, hlogicalPage]
    exact ⟨⟨⟨hrequest, hnum⟩, htoken⟩, hwidth⟩
  have hphysical : (a.gather row kvHead).physicalPage column =
      a.blockTable (a.tokenToReq row) (a.indices row column / a.pageSize) := by
    rw [Gather.physicalPage, if_pos hpage, hlogicalPage, gather]
    dsimp only
    rw [max_eq_left hrequest, min_eq_left (by omega), min_eq_left (by omega)]
  simp only [Gather.columns, hpage, hphysical, Bool.true_and, Bool.and_eq_true, decide_eq_true_eq]
  exact ⟨hblock, hcache⟩

/-- A column is valid if it is selected and has a location. -/
theorem valid_iff {kvHead : Nat} : (a.gather row kvHead).columns.valid column = true ↔
    column < a.topk ∧ (a.location row column).isSome := by
  refine ⟨fun h => ?_, fun h => valid_of_location _ h.1 h.2⟩
  obtain ⟨htopk, heq⟩ := location_of_valid h
  exact ⟨htopk, heq ▸ rfl⟩

theorem keys_of_location (kvHead : Nat) {l : Int × Nat} (htopk : column < a.topk)
    (hl : a.location row column = some l) : (a.gather row kvHead).columns.keys column =
      fun dim : Fin a.headDim => a.caches.key a.headDim l.1 l.2 kvHead dim := by
  obtain ⟨-, heq⟩ := location_of_valid 
    (valid_of_location kvHead htopk (Option.isSome_of_mem hl))
  obtain rfl := Option.some.inj (hl.symm.trans heq)
  rfl

theorem values_of_location (kvHead : Nat) {l : Int × Nat} (htopk : column < a.topk)
    (hl : a.location row column = some l) : (a.gather row kvHead).columns.values column =
      fun dim : Fin a.headDim => a.caches.value a.headDim l.1 l.2 kvHead dim := by
  obtain ⟨-, heq⟩ := location_of_valid 
    (valid_of_location kvHead htopk (Option.isSome_of_mem hl))
  obtain rfl := Option.some.inj (hl.symm.trans heq)
  rfl

/-- The rows of a head are those of the locations. -/
theorem head_eq (h : a.Shaped) (hhead : head < a.numQueryHeads)
    (hcolumn : column ∈ a.selected row) :
    (a.head row (head / a.groupSize) (head % a.groupSize)).scaledScore column =
      a.rowScore row head column ∧
    (a.head row (head / a.groupSize) (head % a.groupSize)).scaledValue column =
      a.rowValue row head column := by
  obtain ⟨htopk, hlocation⟩ := Finset.mem_filter.1 hcolumn
  obtain ⟨l, hl⟩ := Option.isSome_iff_exists.1 hlocation
  have hkeys := keys_of_location (head / a.groupSize) (Finset.mem_range.1 htopk) hl
  have hvalues := values_of_location (head / a.groupSize) (Finset.mem_range.1 htopk) hl
  obtain ⟨-, -, hhead⟩ := exists_lane h hhead
  constructor
  · simp only [Head.scaledScore, rowScore, rowKey, hl, Option.elim_some, AttentionArgs.head, hhead,
      mul_one, hkeys]
  · funext dim
    simp only [Head.scaledValue, rowValue, hl, Option.elim_some, AttentionArgs.head, mul_one,
      hvalues]

/-- The attention of a row is the softmax over its selected tokens. -/
theorem attention_eq (h : a.Shaped) (htiles : a.topk ≤ a.numTiles * a.blockN)
    (hhead : head < a.numQueryHeads)
    (hscore : ∀ column ∈ a.selected row, -1.0e20 < a.rowScore row head column) :
    a.attention row head = a.sparseAttention row head := by
  have hvalid : (a.head row (head / a.groupSize) (head % a.groupSize)).validIn 0
      (a.numTiles * a.blockN) = a.selected row := by
    ext column
    rw [Head.mem_validIn, selected, Finset.mem_filter, Finset.mem_range, ← valid_iff]
    refine and_iff_right_of_imp fun hvalid => ⟨Nat.zero_le _, ?_⟩
    exact (valid_iff.1 hvalid).1.trans_le htiles
  have hreference := Head.attention_eq_reference (f := .inLoop)
    (h := a.head row (head / a.groupSize) (head % a.groupSize)) h.block (fun column hcolumn => by
      have hmem := hvalid ▸ hcolumn
      rw [(head_eq h hhead hmem).1]
      exact hscore column hmem) h.splits h.merge
  rw [attention, hreference, Head.reference]
  exact (congrArg (fun S => softmaxMean S _ _) hvalid).trans
    (softmaxMean_congr (fun column hcolumn => (head_eq h hhead hcolumn).1)
      fun column hcolumn => (head_eq h hhead hcolumn).2)

/-! ## Isolation -/

/-- The launches on other contents of the tensors. -/
abbrev withData (a : AttentionArgs) (x : AttentionData) : AttentionArgs :=
  { a with toAttentionData := x }

/-- Other contents of the tensors, that are the same for a row: its query and its selection,
    the pages of its request, and the cells of the caches that are selected. -/
structure SameRow (a : AttentionArgs) (x : AttentionData) (row : Nat) : Prop where
  query : ∀ head dim, x.q row head dim = a.q row head dim
  indices : ∀ column < a.topk, x.indices row column = a.indices row column
  request : x.tokenToReq row = a.tokenToReq row
  pages : ∀ page : Int, 0 ≤ page → page < a.pageTableWidth →
    x.blockTable (a.tokenToReq row) page = a.blockTable (a.tokenToReq row) page
  keys : ∀ column < a.topk, ∀ l ∈ a.location row column, ∀ head, ∀ dim < a.headDim,
    x.caches.key a.headDim l.1 l.2 head dim = a.caches.key a.headDim l.1 l.2 head dim
  values : ∀ column < a.topk, ∀ l ∈ a.location row column, ∀ head, ∀ dim < a.headDim,
    x.caches.value a.headDim l.1 l.2 head dim = a.caches.value a.headDim l.1 l.2 head dim

theorem SameRow.location_eq {x : AttentionData} (h : a.SameRow x row)
    (hcolumn : column < a.topk) :
    (a.withData x).location row column = a.location row column := by
  simp only [location, h.request, h.indices column hcolumn]
  by_cases htoken : 0 ≤ a.indices row column ∧ a.indices row column / a.pageSize < a.pageTableWidth
  · rw [h.pages _ (Int.ediv_nonneg htoken.1 (Int.natCast_nonneg _)) htoken.2]
  · rw [if_neg fun hc => htoken ⟨hc.2.2.1, hc.2.2.2.1⟩,
      if_neg fun hc => htoken ⟨hc.2.2.1, hc.2.2.2.1⟩]

/-- A row has the same attention. -/
theorem SameRow.attention_eq {x : AttentionData} (h : a.SameRow x row) (head : Nat) :
    (a.withData x).attention row head = a.attention row head := by
  have hquery : (fun dim : Fin a.headDim =>
      x.q row (head / a.groupSize * a.groupSize + head % a.groupSize) dim) =
      fun dim : Fin a.headDim =>
        a.q row (head / a.groupSize * a.groupSize + head % a.groupSize) dim :=
    funext fun dim => h.query _ dim
  have hhead : (a.withData x).head row (head / a.groupSize) (head % a.groupSize) =
      { a.head row (head / a.groupSize) (head % a.groupSize) with
        columns := ((a.withData x).gather row (head / a.groupSize)).columns } := by
    simp only [AttentionArgs.head]
    exact congrArg (fun query => Head.mk query _ _ _ _ _) hquery
  refine (congrArg (fun h => Head.attention h .inLoop a.numSplits a.blockSplits) hhead).trans ?_
  refine Head.attention_congr (fun c => Bool.eq_iff_iff.2 ?_) (fun c hc => ?_) (fun c hc => ?_) _ _
  · refine valid_iff.trans (.trans ?_ valid_iff.symm)
    exact and_congr_right fun hlt => by rw [h.location_eq hlt]
  all_goals
    obtain ⟨hlt, hsome⟩ := valid_iff.1 hc
    obtain ⟨l, hl⟩ := Option.isSome_iff_exists.1 hsome
    have hl' := (h.location_eq hlt).trans hl
  · refine (keys_of_location (a := a.withData x) _ hlt hl').trans
      (.trans ?_ (keys_of_location _ hlt hl).symm)
    exact funext fun dim => h.keys c hlt l hl _ dim dim.2
  · refine (values_of_location (a := a.withData x) _ hlt hl').trans
      (.trans ?_ (values_of_location _ hlt hl).symm)
    exact funext fun dim => h.values c hlt l hl _ dim dim.2

/-- A row of the output depends on its query and its selection, the pages of its request, and
    the cells of the caches that are selected, and on nothing else: on no other row or
    request, and not on what the output and the workspaces hold, or on the orders. -/
theorem isolated (h : a.Shaped) {x : AttentionData} (hsame : a.SameRow x row)
    {order order' : List SplitProgram} (horder : order.Perm a.splitGrid)
    (horder' : order'.Perm a.splitGrid) {mergeOrder mergeOrder' : List (Nat × Nat)}
    (hmerge : mergeOrder.Perm a.mergeGrid) (hmerge' : mergeOrder'.Perm a.mergeGrid)
    (m m' : OutCell → WithBot ℝ) :
    ∀ head < a.numQueryHeads, ∀ dim < a.headDim, row < a.numRows →
      (a.withData x).launch order' mergeOrder' m' (.output row head dim) =
        a.launch order mergeOrder m (.output row head dim) := by
  intro head hhead dim hdim hrow
  obtain ⟨hrun, -⟩ := attention_spec h horder hmerge m
  have hshaped : (a.withData x).Shaped := ⟨h.heads, h.lanes, h.block, h.splits, h.merge⟩
  obtain ⟨hrun', -⟩ := attention_spec hshaped horder' hmerge' m'
  refine (hrun' row hrow head hhead ⟨dim, hdim⟩).trans ?_
  rw [hrun row hrow head hhead ⟨dim, hdim⟩, ← hsame.attention_eq]

end AttentionArgs

/-! ## Calls that return -/

/-- Packed keys are read as their numbers. -/
theorem KvCaches.key_pack (x : Nvfp4Rows) (v : Nvfp4Cache) (kScale vScale : ℝ) (swizzled : Bool)
    {headDim dim : Nat} (hgroups : 16 ∣ headDim) (hdim : dim < headDim) (block : Int)
    (token head : Nat) :
    (KvCaches.nvfp4 (x.pack false headDim) v kScale vScale swizzled).key headDim block token head
      dim = x.number kScale block token head dim := by
  rw [KvCaches.key, Nvfp4Rows.number_pack,
    Nvfp4Rows.blockScale_pack x (fun h => by cases h) hdim hgroups, Nvfp4Rows.number]

/-- So are packed values. -/
theorem KvCaches.value_pack (k : Nvfp4Cache) (x : Nvfp4Rows) (kScale vScale : ℝ) {swizzled : Bool}
    {headDim dim : Nat} (hswizzled : swizzled = true → 64 ∣ headDim) (hgroups : 16 ∣ headDim)
    (hdim : dim < headDim) (block : Int) (token head : Nat) :
    (KvCaches.nvfp4 k (x.pack swizzled headDim) kScale vScale swizzled).value headDim block token
      head dim = x.number vScale block token head dim := by
  rw [KvCaches.value, Nvfp4Rows.number_pack, Nvfp4Rows.blockScale_pack x hswizzled hdim hgroups,
    Nvfp4Rows.number]

namespace AttentionCall

variable {c : AttentionCall}

/-- A greater power of two is a multiple. -/
theorem dvd_headDim (h : c.check = .ok ()) {k : Nat} (hle : 2 ^ k ≤ c.headDim) :
    2 ^ k ∣ c.headDim := by
  obtain ⟨-, -, -, -, hdim, hpow⟩ := shapes_of_check h
  obtain ⟨n, hn⟩ := (Nat.and_sub_one_eq_zero_iff_isPowerOfTwo (by omega)).1 hpow
  rw [hn] at hle ⊢
  exact pow_dvd_pow 2 ((Nat.pow_le_pow_iff_right Nat.one_lt_two).1 hle)

/-- The heads of a call have their attention. -/
theorem output_of_ok {order : List SplitProgram} {mergeOrder : List (Nat × Nat)}
    {m m' : OutCell → WithBot ℝ} (h : qsaSparsePagedAttention c order mergeOrder m = .ok m')
    (horder : order.Perm c.args.splitGrid) (hmerge : mergeOrder.Perm c.args.mergeGrid) :
    (∀ row < c.args.numRows, ∀ head < c.args.numQueryHeads, ∀ dim : Fin c.headDim,
      m' (.output row head dim) = (c.args.attention row head dim : ℝ)) ∧
    ∀ row head dim, ¬(row < c.args.numRows ∧ head < c.args.numQueryHeads ∧ dim < c.headDim) →
      m' (.output row head dim) = m (.output row head dim) := by
  obtain ⟨hcheck, rfl⟩ := launch_of_ok h horder hmerge
  exact AttentionArgs.attention_spec (shaped_of_check hcheck) horder hmerge m

/-- The output of a call that returns: every row has the softmax over the tokens that are
    selected for it and have a location, and nothing else of the output is changed. -/
theorem sparse_of_ok {order : List SplitProgram} {mergeOrder : List (Nat × Nat)}
    {m m' : OutCell → WithBot ℝ} (h : qsaSparsePagedAttention c order mergeOrder m = .ok m')
    (horder : order.Perm c.args.splitGrid) (hmerge : mergeOrder.Perm c.args.mergeGrid)
    (hscore : ∀ row < c.args.numRows, ∀ head < c.args.numQueryHeads,
      ∀ column ∈ c.args.selected row, -1.0e20 < c.args.rowScore row head column) :
    (∀ row < c.args.numRows, ∀ head < c.args.numQueryHeads, ∀ dim : Fin c.headDim,
      m' (.output row head dim) = (c.args.sparseAttention row head dim : ℝ)) ∧
    ∀ row head dim, ¬(row < c.args.numRows ∧ head < c.args.numQueryHeads ∧ dim < c.headDim) →
      m' (.output row head dim) = m (.output row head dim) := by
  obtain ⟨hcheck, -⟩ := launch_of_ok h horder hmerge
  obtain ⟨hrun, hframe⟩ := output_of_ok h horder hmerge
  refine ⟨fun row hrow head hhead dim => ?_, hframe⟩
  rw [hrun row hrow head hhead dim, AttentionArgs.attention_eq (shaped_of_check hcheck)
    topk_le_tiles hhead (hscore row hrow head hhead)]

/-- The launches on caches with the numbers of packed rows. -/
def unpacked (c : AttentionCall) (x y : Nvfp4Rows) (kScale vScale : ℝ) : AttentionArgs :=
  c.args.withData { c.args with caches := .bfloat16 (x.number kScale) (y.number vScale) }

/-- A row of packed caches is that of the caches with the numbers. -/
theorem sameRow_unpacked (h : c.check = .ok ()) {x y : Nvfp4Rows} {kScale vScale : ℝ}
    (hcaches : c.caches = .nvfp4 (x.pack false c.headDim) (y.pack c.vScaleSwizzled c.headDim)
      kScale vScale c.vScaleSwizzled)
    (hswizzled : c.vScaleSwizzled = true → 64 ≤ c.headDim) (row : Nat) :
    c.args.SameRow (c.unpacked x y kScale vScale).toAttentionData row where
  query _ _ := rfl
  indices _ _ := rfl
  request := rfl
  pages _ _ _ := rfl
  keys column _ l _ head dim hdim := by
    have hgroups : 16 ∣ c.headDim := dvd_headDim (k := 4) h (shapes_of_check h).2.2.2.2.1
    have hkey := KvCaches.key_pack x (y.pack c.vScaleSwizzled c.headDim) kScale vScale
      c.vScaleSwizzled hgroups hdim l.1 l.2 head
    rw [← hcaches] at hkey
    exact hkey.symm
  values column _ l _ head dim hdim := by
    have hgroups : 16 ∣ c.headDim := dvd_headDim (k := 4) h (shapes_of_check h).2.2.2.2.1
    have hvalue := KvCaches.value_pack (x.pack false c.headDim) y kScale vScale
      (fun hs => dvd_headDim (k := 6) h (hswizzled hs)) hgroups hdim l.1 l.2 head
    rw [← hcaches] at hvalue
    exact hvalue.symm

/-- A call that returns on packed NVFP4 caches has the softmax over the numbers that were
    packed, each with its scale and that of the layer. -/
theorem packed_of_ok {order : List SplitProgram} {mergeOrder : List (Nat × Nat)}
    {m m' : OutCell → WithBot ℝ} (h : qsaSparsePagedAttention c order mergeOrder m = .ok m')
    (horder : order.Perm c.args.splitGrid) (hmerge : mergeOrder.Perm c.args.mergeGrid)
    {x y : Nvfp4Rows} {kScale vScale : ℝ}
    (hcaches : c.caches = .nvfp4 (x.pack false c.headDim) (y.pack c.vScaleSwizzled c.headDim)
      kScale vScale c.vScaleSwizzled)
    (hswizzled : c.vScaleSwizzled = true → 64 ≤ c.headDim)
    (hscore : ∀ row < c.args.numRows, ∀ head < c.args.numQueryHeads,
      ∀ column ∈ c.args.selected row,
        -1.0e20 < (c.unpacked x y kScale vScale).rowScore row head column) :
    ∀ row < c.args.numRows, ∀ head < c.args.numQueryHeads, ∀ dim : Fin c.headDim,
      m' (.output row head dim) =
        ((c.unpacked x y kScale vScale).sparseAttention row head dim : ℝ) := by
  intro row hrow head hhead dim
  obtain ⟨hcheck, -⟩ := launch_of_ok h horder hmerge
  obtain ⟨hrun, -⟩ := output_of_ok h horder hmerge
  obtain ⟨hheads, hlanes, hblock, hsplits, hmergeSplits⟩ := shaped_of_check hcheck
  have hshaped : (c.unpacked x y kScale vScale).Shaped :=
    ⟨hheads, hlanes, hblock, hsplits, hmergeSplits⟩
  have hsame := (sameRow_unpacked hcheck hcaches hswizzled row).attention_eq head
  have hsparse := AttentionArgs.attention_eq (a := c.unpacked x y kScale vScale) hshaped
    topk_le_tiles hhead (hscore row hrow head hhead)
  rw [hrun row hrow head hhead dim, ← hsame]
  exact congrArg _ (congrFun hsparse dim)

/-- Rows with the code and the scale of one. -/
def ones : Nvfp4Rows where
  code _ _ _ _ := 2#4
  scale _ _ _ _ := 0x38#8

/-- Pages of bytes. -/
def bytePages (shape : List Nat) (byte : Int → Nat → Nat → Nat → BitVec 8) : Tensor Pages where
  shape := shape
  stride := [1, 1, 1, 1]
  dtype := .uint8
  device := 0
  data block token head dim := (byte block token head dim).toNat

/-- A call with packed caches of one block of four tokens, of which one query selects two. -/
def twoTokens : AttentionCall where
  cuda := true
  q := ⟨[1, 1, 64], [1, 1, 1], .bfloat16, 0, fun _ _ _ => 0⟩
  kCache := bytePages [1, 4, 1, 32] (ones.pack false 64).data
  vCache := bytePages [1, 4, 1, 32] (ones.pack true 64).data
  logicalIndices := ⟨[1, 32], [1, 1], .int32, 0, fun _ column => if column < 2 then column else -1⟩
  blockTable := ⟨[1, 1], [1, 1], .int32, 0, fun _ _ => 0⟩
  tokenToReq := ⟨[1], [1], .int32, 0, fun _ => 0⟩
  out := none
  kScale := some ⟨[], [], .other, 0, 1⟩
  vScale := some ⟨[1], [1], .other, 0, 1⟩
  kScaleCache := some (bytePages [1, 4, 1, 4] (ones.pack false 64).scale)
  vScaleCache := some (bytePages [1, 4, 1, 4] (ones.pack true 64).scale)
  vScaleSwizzled := true

theorem check_twoTokens : twoTokens.check = .ok () := by
  rfl

theorem twoTokens_eq_ok (m : OutCell → WithBot ℝ) :
    qsaSparsePagedAttention twoTokens twoTokens.args.splitGrid twoTokens.args.mergeGrid m =
      .ok (twoTokens.args.launch twoTokens.args.splitGrid twoTokens.args.mergeGrid m) := by
  rw [qsaSparsePagedAttention, check_twoTokens]
  rfl

theorem rowScore_twoTokens (caches : KvCaches) (row head column : Nat) :
    -1.0e20 < (twoTokens.args.withData { twoTokens.args with caches := caches }).rowScore row head
      column := by
  simp only [AttentionArgs.rowScore, args, twoTokens, zero_mul, Finset.sum_const_zero]
  norm_num

theorem sparse_of_ok_twoTokens :
    twoTokens.args.launch twoTokens.args.splitGrid twoTokens.args.mergeGrid (fun _ => ⊥)
      (.output 0 0 5) = (twoTokens.args.sparseAttention 0 0 ⟨5, by decide⟩ : ℝ) := by
  obtain ⟨hrun, -⟩ := sparse_of_ok (twoTokens_eq_ok fun _ => ⊥) (.refl _) (.refl _)
    fun row _ head _ column _ => rowScore_twoTokens twoTokens.caches row head column
  exact hrun 0 (by decide) 0 (by decide) ⟨5, by decide⟩

theorem splits_of_check_twoTokens : twoTokens.numSplits = 2 ∧
    1 * twoTokens.numTiles / twoTokens.numSplits <
      (1 + 1) * twoTokens.numTiles / twoTokens.numSplits :=
  ⟨by decide, (splits_of_check check_twoTokens).1 1 (by decide)⟩

theorem packed_of_ok_twoTokens :
    twoTokens.args.launch twoTokens.args.splitGrid twoTokens.args.mergeGrid (fun _ => ⊥)
      (.output 0 0 5) =
        ((twoTokens.unpacked ones ones 1 1).sparseAttention 0 0 ⟨5, by decide⟩ : ℝ) := by
  have hcaches : twoTokens.caches = .nvfp4 (ones.pack false twoTokens.headDim)
      (ones.pack twoTokens.vScaleSwizzled twoTokens.headDim) 1 1 twoTokens.vScaleSwizzled := by
    simp [caches, twoTokens, bytePages, headDim]
  exact packed_of_ok (twoTokens_eq_ok fun _ => ⊥) (.refl _) (.refl _) hcaches (fun _ => by decide)
    (fun row _ head _ column _ => rowScore_twoTokens _ row head column) 0 (by decide) 0 (by decide)
    ⟨5, by decide⟩

theorem isolated_twoTokens :
    (twoTokens.args.withData { twoTokens.args with q := fun row _ _ => row }).launch
      twoTokens.args.splitGrid.reverse twoTokens.args.mergeGrid (fun _ => 1) (.output 0 0 5) =
    twoTokens.args.launch twoTokens.args.splitGrid twoTokens.args.mergeGrid (fun _ => ⊥)
      (.output 0 0 5) := by
  have hsame : twoTokens.args.SameRow { twoTokens.args with q := fun row _ _ => row } 0 :=
    ⟨fun _ _ => Nat.cast_zero, fun _ _ => rfl, rfl, fun _ _ _ => rfl,
      fun _ _ _ _ _ _ _ => rfl, fun _ _ _ _ _ _ _ => rfl⟩
  exact AttentionArgs.isolated (shaped_of_check check_twoTokens) hsame (.refl _)
    (List.reverse_perm _) (.refl _) (.refl _) _ _ 0 (by decide) 5 (by decide) (by decide)

end AttentionCall

end

end FlashNext.Qsa
