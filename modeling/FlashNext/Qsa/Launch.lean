import FlashNext.Programs
import FlashNext.Qsa.Nvfp4
import FlashNext.Qsa.SplitK

/-!
# The launches of the sparse attention

The programs of `_qsa_sparse_paged_gqa_splitk_kernel`, for all rows, heads of keys and
splits, and those of `_qsa_merge_splitk_kernel`, for all rows and heads of queries, on the
output and the workspaces of the partial results. The main caches have BF16, FP8 or NVFP4
elements (`KvCaches`).

* `split_spec`, `merge_spec`: what the programs of a launch leave, in whatever order they
  run;
* `attention_spec`: after both launches, every row and head has its attention.
-/

namespace FlashNext.Qsa

open FloatFormat (e4m3)

noncomputable section

/-! ## Caches -/

/-- The main caches, by block, token, head, and dimension or byte. FP8 codes are those of
    numbers, not `0x7F` or `0xFF`. -/
inductive KvCaches
  | bfloat16 (k v : Int → Nat → Nat → Nat → ℝ)
  | fp8 (k v : Int → Nat → Nat → Nat → BitVec 8) (kScale vScale : ℝ)
  | nvfp4 (k v : Nvfp4Cache) (kScale vScale : ℝ) (vScaleSwizzled : Bool)

namespace KvCaches

variable (c : KvCaches) (headDim : Nat) (block : Int) (token head dim : Nat)

/-- A number of `keys`, with the scales. -/
def key : ℝ :=
  match c with
  | .bfloat16 k _ => k block token head dim
  | .fp8 k _ kScale _ => e4m3.value 7 (k block token head dim).toNat * kScale
  | .nvfp4 k _ kScale _ _ =>
    k.number block token head dim * (k.blockScale false headDim block token head dim * kScale)

/-- A number of `values`, with the scales. -/
def value : ℝ :=
  match c with
  | .bfloat16 _ v => v block token head dim
  | .fp8 _ v _ vScale => e4m3.value 7 (v block token head dim).toNat * vScale
  | .nvfp4 _ v _ vScale swizzled =>
    v.number block token head dim * (v.blockScale swizzled headDim block token head dim * vScale)

end KvCaches

/-! ## The kernels -/

/-- The cells of the output, and of `partial_output` and `partial_lse` by offset. -/
inductive OutCell
  | output (row head dim : Nat)
  | partialOutput (offset : Nat)
  | partialLse (offset : Nat)
  deriving DecidableEq

/-- What the tensors that the kernels read hold. -/
structure AttentionData where
  q : Nat → Nat → Nat → ℝ
  caches : KvCaches
  indices : Nat → Nat → Int
  blockTable : Int → Int → Int
  tokenToReq : Nat → Int

/-- The arguments of the kernels. -/
structure AttentionArgs extends AttentionData where
  numRows : Nat
  numCacheBlocks : Nat
  numRequests : Nat
  topk : Nat
  pageSize : Nat
  pageTableWidth : Nat
  groupSize : Nat
  headDim : Nat
  numKvHeads : Nat
  numQueryHeads : Nat
  numSplits : Nat
  numTiles : Nat
  blockM : Nat
  blockN : Nat
  blockSplits : Nat

/-- A program of the first kernel. -/
structure SplitProgram where
  row : Nat
  kvHead : Nat
  splitId : Nat
  deriving DecidableEq

namespace AttentionArgs

variable (a : AttentionArgs)

/-- What the columns of a row are read from. -/
def gather (row kvHead : Nat) : Gather a.headDim where
  indices := a.indices row
  topk := a.topk
  request := a.tokenToReq row
  numRequests := a.numRequests
  pageSize := a.pageSize
  pageTableWidth := a.pageTableWidth
  blockTable := a.blockTable
  numCacheBlocks := a.numCacheBlocks
  kCache block offset dim := a.caches.key a.headDim block offset.toNat kvHead dim
  vCache block offset dim := a.caches.value a.headDim block offset.toNat kvHead dim

/-- A lane of `query`, with the columns of its head of keys, of which the rows are scaled
    as they are read. -/
def head (row kvHead lane : Nat) : Head a.headDim where
  query dim := a.q row (kvHead * a.groupSize + lane) dim
  columns := (a.gather row kvHead).columns
  kScale := 1
  vScale := 1
  blockN := a.blockN
  numTiles := a.numTiles

/-- Where the output of a split is. -/
def partialOutputCell (splitId row head dim : Nat) : OutCell :=
  .partialOutput (((splitId * a.numRows + row) * a.numQueryHeads + head) * a.headDim + dim)

/-- Where the weight of a split is. -/
def partialLseCell (splitId row head : Nat) : OutCell :=
  .partialLse ((splitId * a.numRows + row) * a.numQueryHeads + head)

/-- The lanes of `head_offsets` that are not masked. -/
def headLanes : List Nat := (List.range a.blockM).filter (· < a.groupSize)

/-- The lanes of a tile of outputs that are not masked. -/
def outputLanes : List (Nat × Fin a.headDim) := a.headLanes.product (List.finRange a.headDim)

/-- What a program has computed for a lane. -/
def state (p : SplitProgram) (lane : Nat) : SplitState a.headDim :=
  (a.head p.row p.kvHead lane).split .inLoop p.splitId a.numSplits

/-- `normalized_output`. -/
def normalizedOutput (p : SplitProgram) (x : Nat × Fin a.headDim) : WithBot ℝ :=
  ((a.head p.row p.kvHead x.1).normalizedOutput .inLoop (a.state p x.1) x.2 : ℝ)

/-- `_qsa_sparse_paged_gqa_splitk_kernel`. -/
def splitkKernel (p : SplitProgram) (m : OutCell → WithBot ℝ) : OutCell → WithBot ℝ :=
  let head (lane : Nat) := p.kvHead * a.groupSize + lane
  if a.numSplits = 1 then
    scatter (fun x => .output p.row (head x.1) x.2) (a.normalizedOutput p) a.outputLanes m
  else
    scatter (fun lane => a.partialLseCell p.splitId p.row (head lane))
      (fun lane => Head.partialLse (a.state p lane)) a.headLanes
      (scatter (fun x => a.partialOutputCell p.splitId p.row (head x.1) x.2)
        (a.normalizedOutput p) a.outputLanes m)

/-- `merged`, of a row and a head of queries. -/
def merged (m : OutCell → WithBot ℝ) (p : Nat × Nat) : Fin a.headDim → ℝ :=
  mergeSplitk (fun i dim => (m (a.partialOutputCell i p.1 p.2 dim)).unbotD 0)
    (fun i => m (a.partialLseCell i p.1 p.2)) a.numSplits a.blockSplits

/-- `_qsa_merge_splitk_kernel`. -/
def mergeSplitkKernel (p : Nat × Nat) (m : OutCell → WithBot ℝ) : OutCell → WithBot ℝ :=
  scatter (fun dim : Fin a.headDim => .output p.1 p.2 dim) (fun dim => (a.merged m p dim : ℝ))
    (List.finRange a.headDim) m

/-- The programs of the first launch. -/
def splitGrid : List SplitProgram :=
  ((List.range a.numRows).product ((List.range a.numKvHeads).product
    (List.range a.numSplits))).map fun x => ⟨x.1, x.2.1, x.2.2⟩

/-- The programs of the second launch. -/
def mergeGrid : List (Nat × Nat) := (List.range a.numRows).product (List.range a.numQueryHeads)

/-- The launches, with their programs in some orders. -/
def launch (order : List SplitProgram) (mergeOrder : List (Nat × Nat)) (m : OutCell → WithBot ℝ) :
    OutCell → WithBot ℝ :=
  let m := runPrograms a.splitkKernel order m
  if a.numSplits = 1 then m else runPrograms a.mergeSplitkKernel mergeOrder m

/-! ## What a launch leaves -/

/-- The sizes of a launch. -/
structure Shaped : Prop where
  heads : a.numQueryHeads = a.numKvHeads * a.groupSize
  lanes : a.groupSize ≤ a.blockM
  block : 0 < a.blockN
  splits : 0 < a.numSplits
  merge : a.numSplits ≤ a.blockSplits

/-- The lanes of the stores of a program. -/
def splitLanes : List ((Nat × Fin a.headDim) ⊕ Nat) :=
  a.outputLanes.map .inl ++ if a.numSplits = 1 then [] else a.headLanes.map .inr

/-- The cell of a lane. -/
def splitCell (p : SplitProgram) : (Nat × Fin a.headDim) ⊕ Nat → OutCell
  | .inl x =>
    if a.numSplits = 1 then .output p.row (p.kvHead * a.groupSize + x.1) x.2
    else a.partialOutputCell p.splitId p.row (p.kvHead * a.groupSize + x.1) x.2
  | .inr lane => a.partialLseCell p.splitId p.row (p.kvHead * a.groupSize + lane)

/-- What is stored for a lane. -/
def splitValue (p : SplitProgram) : (Nat × Fin a.headDim) ⊕ Nat → WithBot ℝ
  | .inl x => a.normalizedOutput p x
  | .inr lane => Head.partialLse (a.state p lane)

variable {a}

/-- The stores of a program are a single scatter. -/
theorem splitkKernel_eq (p : SplitProgram) (m : OutCell → WithBot ℝ) :
    a.splitkKernel p m = scatter (a.splitCell p) (a.splitValue p) a.splitLanes m := by
  rw [splitkKernel, splitLanes]
  split_ifs with hone
  · rw [List.append_nil, scatter, scatter, List.foldl_map]
    simp only [splitCell, hone, if_true, splitValue]
  · rw [scatter, scatter, scatter, List.foldl_append, List.foldl_map, List.foldl_map]
    simp only [splitCell, hone, if_false, splitValue]

theorem mem_headLanes (h : a.Shaped) {lane : Nat} : lane ∈ a.headLanes ↔ lane < a.groupSize := by
  simp only [headLanes, List.mem_filter, List.mem_range, decide_eq_true_eq, and_iff_right_iff_imp]
  exact fun hlane => hlane.trans_le h.lanes

theorem mem_outputLanes (h : a.Shaped) {x : Nat × Fin a.headDim} :
    x ∈ a.outputLanes ↔ x.1 < a.groupSize := by
  obtain ⟨lane, dim⟩ := x
  simp only [outputLanes, List.pair_mem_product, mem_headLanes h, List.mem_finRange, and_true]

theorem inl_mem_splitLanes (h : a.Shaped) {x : Nat × Fin a.headDim} :
    .inl x ∈ a.splitLanes ↔ x.1 < a.groupSize := by
  rw [← mem_outputLanes h, splitLanes]
  split_ifs <;> simp

theorem inr_mem_splitLanes (h : a.Shaped) {lane : Nat} :
    .inr lane ∈ a.splitLanes ↔ a.numSplits ≠ 1 ∧ lane < a.groupSize := by
  rw [← mem_headLanes h, splitLanes]
  split_ifs with hone <;> simp [hone]

theorem mem_splitGrid {p : SplitProgram} :
    p ∈ a.splitGrid ↔ p.row < a.numRows ∧ p.kvHead < a.numKvHeads ∧ p.splitId < a.numSplits := by
  obtain ⟨row, kvHead, splitId⟩ := p
  simp [splitGrid]

/-- A lane has a head of the queries. -/
theorem head_lt (h : a.Shaped) {kvHead lane : Nat} (hkv : kvHead < a.numKvHeads)
    (hlane : lane < a.groupSize) : kvHead * a.groupSize + lane < a.numQueryHeads := by
  rw [h.heads]
  calc kvHead * a.groupSize + lane
    _ < kvHead * a.groupSize + a.groupSize := Nat.add_lt_add_left hlane _
    _ = (kvHead + 1) * a.groupSize := (Nat.succ_mul _ _).symm
    _ ≤ a.numKvHeads * a.groupSize := Nat.mul_le_mul_right _ hkv

/-- Splits, rows and heads have weights of their own. -/
theorem partialLseCell_inj {splitId row head splitId' row' head' : Nat} (hrow : row < a.numRows)
    (hrow' : row' < a.numRows) (hhead : head < a.numQueryHeads) (hhead' : head' < a.numQueryHeads)
    (heq : a.partialLseCell splitId row head = a.partialLseCell splitId' row' head') :
    splitId = splitId' ∧ row = row' ∧ head = head' := by
  obtain ⟨hfirst, rfl⟩ := offset_inj hhead hhead' (OutCell.partialLse.inj heq)
  obtain ⟨rfl, rfl⟩ := offset_inj hrow hrow' hfirst
  exact ⟨rfl, rfl, rfl⟩

/-- So they have outputs of their own. -/
theorem partialOutputCell_inj {splitId row head splitId' row' head' : Nat}
    {dim dim' : Fin a.headDim} (hrow : row < a.numRows) (hrow' : row' < a.numRows)
    (hhead : head < a.numQueryHeads) (hhead' : head' < a.numQueryHeads)
    (heq : a.partialOutputCell splitId row head dim =
      a.partialOutputCell splitId' row' head' dim') :
    splitId = splitId' ∧ row = row' ∧ head = head' ∧ dim = dim' := by
  obtain ⟨hfirst, hdim⟩ := offset_inj dim.2 dim'.2 (OutCell.partialOutput.inj heq)
  obtain ⟨rfl, rfl, rfl⟩ := partialLseCell_inj hrow hrow' hhead hhead' (congrArg _ hfirst)
  exact ⟨rfl, rfl, rfl, Fin.ext hdim⟩

/-- The lanes of the first launch have cells of their own. -/
theorem splitCell_inj (h : a.Shaped) {p p' : SplitProgram} (hp : p ∈ a.splitGrid)
    (hp' : p' ∈ a.splitGrid) {x x' : (Nat × Fin a.headDim) ⊕ Nat} (hx : x ∈ a.splitLanes)
    (hx' : x' ∈ a.splitLanes) (heq : a.splitCell p x = a.splitCell p' x') : p = p' ∧ x = x' := by
  obtain ⟨row, kvHead, splitId⟩ := p
  obtain ⟨row', kvHead', splitId'⟩ := p'
  obtain ⟨hrow, hkv, hsplit⟩ := mem_splitGrid.1 hp
  obtain ⟨hrow', hkv', hsplit'⟩ := mem_splitGrid.1 hp'
  dsimp only at hrow hkv hsplit hrow' hkv' hsplit'
  rcases x with ⟨lane, dim⟩ | lane <;> rcases x' with ⟨lane', dim'⟩ | lane'
  · have hlane := (inl_mem_splitLanes h).1 hx
    have hlane' := (inl_mem_splitLanes h).1 hx'
    simp only [splitCell] at heq
    split_ifs at heq with hone
    · obtain ⟨rfl, hhead, hdim⟩ := OutCell.output.inj heq
      obtain ⟨rfl, rfl⟩ := offset_inj hlane hlane' hhead
      obtain rfl := Fin.ext hdim
      obtain rfl : splitId = splitId' := by omega
      exact ⟨rfl, rfl⟩
    · obtain ⟨rfl, rfl, hhead, rfl⟩ := partialOutputCell_inj hrow hrow' (head_lt h hkv hlane)
        (head_lt h hkv' hlane') heq
      obtain ⟨rfl, rfl⟩ := offset_inj hlane hlane' hhead
      exact ⟨rfl, rfl⟩
  · have hone := ((inr_mem_splitLanes h).1 hx').1
    simp [splitCell, hone, partialOutputCell, partialLseCell] at heq
  · have hone := ((inr_mem_splitLanes h).1 hx).1
    simp [splitCell, hone, partialOutputCell, partialLseCell] at heq
  · have hlane := ((inr_mem_splitLanes h).1 hx).2
    have hlane' := ((inr_mem_splitLanes h).1 hx').2
    obtain ⟨rfl, rfl, hhead⟩ := partialLseCell_inj hrow hrow' (head_lt h hkv hlane)
      (head_lt h hkv' hlane') heq
    obtain ⟨rfl, rfl⟩ := offset_inj hlane hlane' hhead
    exact ⟨rfl, rfl⟩

theorem nodup_splitGrid : a.splitGrid.Nodup := by
  refine (List.nodup_range.product (List.nodup_range.product List.nodup_range)).map ?_
  rintro ⟨row, kvHead, splitId⟩ ⟨row', kvHead', splitId'⟩ heq
  cases heq
  rfl

/-- The first launch stores the lanes of all its programs. -/
theorem split_spec (h : a.Shaped) {order : List SplitProgram} (horder : order.Perm a.splitGrid)
    (m : OutCell → WithBot ℝ) :
    (∀ p ∈ a.splitGrid, ∀ x ∈ a.splitLanes,
      runPrograms a.splitkKernel order m (a.splitCell p x) = a.splitValue p x) ∧
    ∀ k, (∀ p ∈ a.splitGrid, ∀ x ∈ a.splitLanes, a.splitCell p x ≠ k) →
      runPrograms a.splitkKernel order m k = m k := by
  have hmem : ∀ {p}, p ∈ order ↔ p ∈ a.splitGrid := horder.mem_iff
  obtain ⟨hrun, hframe⟩ := runScatters_spec a.splitCell (fun p _ => a.splitValue p)
    (fun _ => a.splitLanes) m
    (horder.nodup_iff.2 nodup_splitGrid)
    (fun p hp x hx p' hp' x' hx' => splitCell_inj h (hmem.1 hp) (hmem.1 hp') hx hx')
    fun _ _ _ _ _ _ => rfl
  have hkernel : a.splitkKernel =
      fun p m => scatter (a.splitCell p) (a.splitValue p) a.splitLanes m :=
    funext fun p => funext fun m => splitkKernel_eq p m
  rw [hkernel]
  exact ⟨fun p hp => hrun p (hmem.2 hp), fun k hk => hframe k fun p hp => hk p (hmem.1 hp)⟩

/-- Only the partial results of the splits matter. -/
theorem mergeSplitk_congr {D : Nat} {out out' : Nat → Fin D → ℝ} {lse lse' : Nat → WithBot ℝ}
    {numSplits blockSplits : Nat} (hlse : ∀ i < numSplits, lse i = lse' i)
    (hout : ∀ i < numSplits, out i = out' i) :
    mergeSplitk out lse numSplits blockSplits = mergeSplitk out' lse' numSplits blockSplits := by
  have hmasked : (fun i => if i < numSplits then lse i else ⊥) =
      fun i => if i < numSplits then lse' i else ⊥ := by
    funext i
    split_ifs with hi
    · exact hlse i hi
    · rfl
  have hrow : ∀ d, (fun i => if i < numSplits then out i d else 0) =
      fun i => if i < numSplits then out' i d else 0 := by
    intro d
    funext i
    split_ifs with hi
    · rw [hout i hi]
    · rfl
  funext d
  have hlse' := fun i => congrFun hmasked i
  have hrow' := fun i => congrFun (hrow d) i
  simp only [mergeSplitk, hlse', hrow']

/-- The second launch stores what it merges, for all rows and heads. -/
theorem merge_spec {order : List (Nat × Nat)} (horder : order.Perm a.mergeGrid)
    (m : OutCell → WithBot ℝ) :
    (∀ row < a.numRows, ∀ head < a.numQueryHeads, ∀ dim : Fin a.headDim,
      runPrograms a.mergeSplitkKernel order m (.output row head dim) =
        (a.merged m (row, head) dim : ℝ)) ∧
    ∀ k,
      (∀ row < a.numRows, ∀ head < a.numQueryHeads, ∀ dim < a.headDim, .output row head dim ≠ k) →
      runPrograms a.mergeSplitkKernel order m k = m k := by
  have hmem : ∀ {p : Nat × Nat}, p ∈ order ↔ p.1 < a.numRows ∧ p.2 < a.numQueryHeads := by
    rintro ⟨row, head⟩
    simp only [horder.mem_iff, mergeGrid, List.pair_mem_product, List.mem_range]
  have hnodup : order.Nodup := horder.nodup_iff.2 (List.nodup_range.product List.nodup_range)
  -- No program reads the output.
  have hval : ∀ m', (∀ k, (∀ p ∈ order, ∀ dim ∈ List.finRange a.headDim,
      OutCell.output p.1 p.2 (dim : Fin a.headDim) ≠ k) → m' k = m k) →
      ∀ p ∈ order, ∀ dim ∈ List.finRange a.headDim,
        (a.merged m' p dim : WithBot ℝ) = a.merged m p dim := by
    intro m' hm p _ dim _
    have hout : ∀ i dim, m' (a.partialOutputCell i p.1 p.2 dim) =
        m (a.partialOutputCell i p.1 p.2 dim) := fun i dim =>
      hm _ fun _ _ _ _ heq => OutCell.noConfusion heq
    have hlse : ∀ i, m' (a.partialLseCell i p.1 p.2) = m (a.partialLseCell i p.1 p.2) := fun i =>
      hm _ fun _ _ _ _ heq => OutCell.noConfusion heq
    simp only [merged, hout, hlse]
  obtain ⟨hrun, hframe⟩ := runScatters_spec
    (fun p dim => OutCell.output p.1 p.2 (dim : Fin a.headDim))
    (fun p m dim => (a.merged m p dim : ℝ)) (fun _ => List.finRange a.headDim) m hnodup
    (fun p _ dim _ p' _ dim' _ heq => by
    obtain ⟨hrow, hhead, hdim⟩ := OutCell.output.inj heq
    exact ⟨Prod.ext hrow hhead, Fin.ext hdim⟩) hval
  refine ⟨fun row hrow head hhead dim => ?_, fun k hk => hframe k ?_⟩
  · exact hrun (row, head) (hmem.2 ⟨hrow, hhead⟩) dim (List.mem_finRange dim)
  · exact fun p hp dim _ => hk p.1 (hmem.1 hp).1 p.2 (hmem.1 hp).2 dim dim.2

/-- The attention of a head of the queries of a row. -/
def attention (a : AttentionArgs) (row head : Nat) : Fin a.headDim → ℝ :=
  (a.head row (head / a.groupSize) (head % a.groupSize)).attention .inLoop a.numSplits a.blockSplits

/-- The head and the lane of a head of the queries. -/
theorem exists_lane (h : a.Shaped) {head : Nat} (hhead : head < a.numQueryHeads) :
    head / a.groupSize < a.numKvHeads ∧ head % a.groupSize < a.groupSize ∧
      head / a.groupSize * a.groupSize + head % a.groupSize = head := by
  rw [h.heads] at hhead
  have hgroup : 0 < a.groupSize := Nat.pos_of_ne_zero fun h => by simp [h] at hhead
  exact ⟨(Nat.div_lt_iff_lt_mul hgroup).2 hhead, Nat.mod_lt _ hgroup, Nat.div_add_mod' _ _⟩

/-- After the launches every head of every row has its attention, and the rest of the
    output is left. -/
theorem attention_spec (h : a.Shaped) {order : List SplitProgram}
    (horder : order.Perm a.splitGrid) {mergeOrder : List (Nat × Nat)}
    (hmerge : mergeOrder.Perm a.mergeGrid) (m : OutCell → WithBot ℝ) :
    (∀ row < a.numRows, ∀ head < a.numQueryHeads, ∀ dim : Fin a.headDim,
      a.launch order mergeOrder m (.output row head dim) = (a.attention row head dim : ℝ)) ∧
    ∀ row head dim, ¬(row < a.numRows ∧ head < a.numQueryHeads ∧ dim < a.headDim) →
      a.launch order mergeOrder m (.output row head dim) = m (.output row head dim) := by
  obtain ⟨hsplit, hframe⟩ := split_spec h horder m
  have hprogram : ∀ {row head splitId : Nat}, row < a.numRows → head < a.numQueryHeads →
      splitId < a.numSplits → ⟨row, head / a.groupSize, splitId⟩ ∈ a.splitGrid :=
    fun hrow hhead hi => mem_splitGrid.2 ⟨hrow, (exists_lane h hhead).1, hi⟩
  by_cases hone : a.numSplits = 1
  · simp only [launch, if_pos hone]
    refine ⟨fun row hrow head hhead dim => ?_, fun row head dim hout => hframe _ ?_⟩
    · obtain ⟨-, hlane, hhead'⟩ := exists_lane h hhead
      have hcell := hsplit _ (hprogram hrow hhead h.splits) (.inl (head % a.groupSize, dim))
        ((inl_mem_splitLanes h).2 hlane)
      simp only [splitCell, if_pos hone, hhead'] at hcell
      rw [hcell, attention, Head.attention, if_pos hone, splitValue, normalizedOutput, state, hone]
    · rintro p hp (⟨lane, dim'⟩ | lane) hx heq
      · obtain ⟨hrow, hkv, -⟩ := mem_splitGrid.1 hp
        have hlane := (inl_mem_splitLanes h).1 hx
        simp only [splitCell, if_pos hone] at heq
        obtain ⟨rfl, rfl, rfl⟩ := OutCell.output.inj heq
        exact hout ⟨hrow, head_lt h hkv hlane, dim'.2⟩
      · exact ((inr_mem_splitLanes h).1 hx).1 hone
  · simp only [launch, if_neg hone]
    obtain ⟨hmerged, hleft⟩ := merge_spec hmerge (runPrograms a.splitkKernel order m)
    refine ⟨fun row hrow head hhead dim => ?_, fun row head dim hout => ?_⟩
    · rw [hmerged row hrow head hhead dim, attention, Head.attention, if_neg hone]
      obtain ⟨-, hlane, hhead'⟩ := exists_lane h hhead
      -- The workspaces have the partial results of all splits.
      have houtput : ∀ i < a.numSplits, ∀ dim : Fin a.headDim, runPrograms a.splitkKernel order m
          (a.partialOutputCell i row head dim) = a.normalizedOutput ⟨row, head / a.groupSize, i⟩
            (head % a.groupSize, dim) := by
        intro i hi dim
        have hcell := hsplit _ (hprogram hrow hhead hi) (.inl (head % a.groupSize, dim))
          ((inl_mem_splitLanes h).2 hlane)
        simpa only [splitCell, if_neg hone, hhead', splitValue] using hcell
      have hlse : ∀ i < a.numSplits, runPrograms a.splitkKernel order m
          (a.partialLseCell i row head) =
            Head.partialLse (a.state ⟨row, head / a.groupSize, i⟩ (head % a.groupSize)) := by
        intro i hi
        have hcell := hsplit _ (hprogram hrow hhead hi) (.inr (head % a.groupSize))
          ((inr_mem_splitLanes h).2 ⟨hone, hlane⟩)
        simpa only [splitCell, hhead', splitValue] using hcell
      have hmean : ∀ i < a.numSplits, (fun dim : Fin a.headDim =>
          (runPrograms a.splitkKernel order m (a.partialOutputCell i row head dim)).unbotD 0) =
          (a.head row (head / a.groupSize) (head % a.groupSize)).normalizedOutput .inLoop
            (a.state ⟨row, head / a.groupSize, i⟩ (head % a.groupSize)) := fun i hi =>
        funext fun dim => congrArg (WithBot.unbotD 0) (houtput i hi dim)
      exact congrArg _ (congrFun (mergeSplitk_congr hlse hmean) dim)
    · rw [hleft _ fun row' hrow head' hhead dim' hdim heq => ?_]
      · refine hframe _ ?_
        rintro p - (⟨lane, dim'⟩ | lane) - heq
        · simp [splitCell, hone, partialOutputCell] at heq
        · simp [splitCell, partialLseCell] at heq
      · obtain ⟨rfl, rfl, rfl⟩ := OutCell.output.inj heq
        exact hout ⟨hrow, hhead, hdim⟩

end AttentionArgs

end

end FlashNext.Qsa
