import Mathlib.Data.Nat.Log
import FlashNext.Programs
import FlashNext.Returns

/-!
# The compressor of the index keys

`qsa_store_cache_rows` and `qsa_compress_groups_with_ratio` of `ops_qsa.py`. Each request
has a block of the compressor state, a ring of its last raw keys. A step pools every group
of `COMPRESS_RATIO` keys that one of its rows completes, from the ring and from its own
rows, and stores these in the ring.

* `StoreArgs.store_spec`: what the rows leave in the cache, in whatever order the programs
  run;
* `qsaCompressGroupsWithRatio_eq_ok`: what a call that returns has checked and pooled.

The keys, and the sums of the kernel, are of any types.
-/

namespace FlashNext.Qsa

/-- `triton.next_power_of_2`. -/
def nextPowerOf2 (n : Nat) : Nat := if n = 0 then 0 else 2 ^ Nat.clog 2 n

theorem le_nextPowerOf2 (n : Nat) : n ≤ nextPowerOf2 n := by
  rw [nextPowerOf2]
  split_ifs with hzero
  · exact hzero.le
  · exact Nat.le_pow_clog Nat.one_lt_two n

/-- What the functions of `ops_qsa.py` raise. -/
inductive QsaErr
  | runtimeError (message : String)
  | valueError (message : String)
  | assertionError
  deriving DecidableEq

/-- The types of tensors that `ops_qsa.py` names. -/
inductive Dtype
  | bfloat16
  | float8E4m3fn
  | uint8
  | int32
  | int64
  | other
  deriving DecidableEq

/-- A cell of a cache of one head. -/
structure RowCell where
  block : Int
  token : Int
  dim : Nat
  deriving DecidableEq

/-! ## Stores -/

/-- The arguments of `_store_qsa_rows_kernel`. -/
structure StoreArgs (V : Type*) where
  slots : Nat → Int
  rows : Nat → Nat → V
  numRows : Nat
  numBlocks : Nat
  pageSize : Nat
  width : Nat

namespace StoreArgs

variable {V : Type*} (a : StoreArgs V) (row : Nat)

/-- `valid`. -/
def Valid : Prop :=
  row < a.numRows ∧ 0 ≤ a.slots row ∧ a.slots row < (a.numBlocks * a.pageSize : Nat)

instance : Decidable (a.Valid row) := inferInstanceAs (Decidable (_ ∧ _ ∧ _))

/-- The cell of a lane. -/
def cell (dim : Nat) : RowCell where
  block := max (a.slots row) 0 / a.pageSize
  token := max (a.slots row) 0 % a.pageSize
  dim := dim

/-- The lanes that are not masked. -/
def lanes : List Nat :=
  (List.range (nextPowerOf2 a.width)).filter fun dim => decide (a.Valid row ∧ dim < a.width)

/-- `_store_qsa_rows_kernel`. -/
def storeQsaRowsKernel (m : RowCell → V) : RowCell → V :=
  scatter (a.cell row) (a.rows row) (a.lanes row) m

/-- A launch, with its programs in some order. -/
def launch (order : List Nat) (m : RowCell → V) : RowCell → V :=
  runPrograms a.storeQsaRowsKernel order m

/-- The programs of a launch. -/
def grid : List Nat := List.range a.numRows

variable {a row}

theorem mem_lanes {dim : Nat} : dim ∈ a.lanes row ↔ a.Valid row ∧ dim < a.width := by
  simp only [lanes, List.mem_filter, List.mem_range, decide_eq_true_eq, and_iff_right_iff_imp]
  exact fun h => h.2.trans_le (le_nextPowerOf2 _)

/-- The rows that are stored have slots of their own. -/
def OwnSlots (a : StoreArgs V) : Prop :=
  ∀ row row', a.Valid row → a.Valid row' → a.slots row = a.slots row' → row = row'

/-- The slot of a cell is the slot of its row. -/
theorem slots_eq_of_cell {dim dim' row' : Nat} (hrow : a.Valid row) (hrow' : a.Valid row')
    (h : a.cell row dim = a.cell row' dim') : a.slots row = a.slots row' := by
  have hblock : max (a.slots row) 0 / a.pageSize = max (a.slots row') 0 / a.pageSize :=
    congrArg RowCell.block h
  have htoken : max (a.slots row) 0 % a.pageSize = max (a.slots row') 0 % a.pageSize :=
    congrArg RowCell.token h
  rw [max_eq_left hrow.2.1, max_eq_left hrow'.2.1] at hblock htoken
  rw [← Int.mul_ediv_add_emod (a.slots row) a.pageSize, hblock, htoken, Int.mul_ediv_add_emod]

/-- Each row that is stored is in its slot, and nothing else is changed. -/
theorem store_spec (hown : a.OwnSlots) {order : List Nat} (horder : order.Perm a.grid)
    (m : RowCell → V) :
    (∀ row, a.Valid row → ∀ dim < a.width,
      a.launch order m (a.cell row dim) = a.rows row dim) ∧
    ∀ k, (∀ row, a.Valid row → ∀ dim < a.width, k ≠ a.cell row dim) →
      a.launch order m k = m k := by
  have hnodup : order.Nodup := horder.nodup_iff.2 List.nodup_range
  have hcell : ∀ row ∈ order, ∀ dim ∈ a.lanes row, ∀ row' ∈ order, ∀ dim' ∈ a.lanes row',
      a.cell row dim = a.cell row' dim' → row = row' ∧ dim = dim' := by
    intro row _ dim hdim row' _ dim' hdim' heq
    obtain ⟨hrow, -⟩ := mem_lanes.1 hdim
    obtain ⟨hrow', -⟩ := mem_lanes.1 hdim'
    exact ⟨hown row row' hrow hrow' (slots_eq_of_cell hrow hrow' heq), congrArg RowCell.dim heq⟩
  obtain ⟨hrun, hframe⟩ := runScatters_spec a.cell (fun row _ => a.rows row) a.lanes m hnodup
    hcell fun _ _ _ _ _ _ => rfl
  refine ⟨fun row hrow dim hdim => ?_, fun k hk => hframe k ?_⟩
  · exact hrun row (horder.symm.subset (List.mem_range.2 hrow.1)) dim (mem_lanes.2 ⟨hrow, hdim⟩)
  · intro row _ dim hdim heq
    obtain ⟨hrow, hlt⟩ := mem_lanes.1 hdim
    exact hk row hrow dim hlt heq.symm

end StoreArgs

/-- The arguments of `qsa_store_cache_rows`. -/
structure StoreCall (V : Type*) where
  cuda : Bool
  cacheShape : List Nat
  rowsShape : List Nat
  slotMapping : List Int
  /-- The rows, without a dimension of one head. -/
  rows : Nat → Nat → V

namespace StoreCall

variable {V : Type*} (c : StoreCall V)

/-- `rows.shape`, without a dimension of one head. -/
def rowShape : List Nat :=
  if c.rowsShape.length = 3 then [c.rowsShape.getD 0 0, c.rowsShape.getD 2 0] else c.rowsShape

/-- The arguments of the launch. -/
def args : StoreArgs V where
  slots row := c.slotMapping.getD row 0
  rows := c.rows
  numRows := c.slotMapping.length
  numBlocks := c.cacheShape.getD 0 0
  pageSize := c.cacheShape.getD 1 0
  width := c.cacheShape.getD 3 0

end StoreCall

/-- `qsa_store_cache_rows`, with the programs of its launch in some order. -/
def qsaStoreCacheRows {V : Type*} (c : StoreCall V) (order : List Nat) (m : RowCell → V) :
    Except QsaErr (RowCell → V) :=
  if c.cuda = false then .error (.runtimeError "QSA CUDA cache stores require Triton")
  else if c.cacheShape.length ≠ 4 ∨ c.cacheShape.getD 2 0 ≠ 1 then
    .error (.valueError "QSA cache must be [pages, page_size, 1, width]")
  else if 0 ∈ c.cacheShape then .error (.valueError "QSA cache dimensions must be nonzero")
  else if c.rowsShape.length = 3 ∧ c.rowsShape.getD 1 0 ≠ 1 then
    .error (.valueError "QSA cache rows must have one head")
  else if c.rowShape ≠ [c.slotMapping.length, c.cacheShape.getD 3 0] then
    .error (.valueError "QSA cache rows and slots have incompatible shapes")
  else if c.slotMapping.length = 0 then .ok m
  else .ok (c.args.launch order m)

/-- A call that returns has run its launch. -/
theorem qsaStoreCacheRows_eq_ok {V : Type*} {c : StoreCall V} {order : List Nat}
    {m m' : RowCell → V} (h : qsaStoreCacheRows c order m = .ok m')
    (horder : order.Perm c.args.grid) : 0 ∉ c.cacheShape ∧ m' = c.args.launch order m := by
  simp only [qsaStoreCacheRows, ite_error_eq_ok] at h
  obtain ⟨-, -, hsizes, -, -, h⟩ := h
  refine ⟨hsizes, ?_⟩
  split_ifs at h with hrows
  · have hnil : order = [] := by
      rw [← List.length_eq_zero_iff, horder.length_eq, StoreArgs.grid, List.length_range]
      exact hrows
    rw [hnil, ← Except.ok.inj h]
    rfl
  · exact (Except.ok.inj h).symm

/-! ## Groups -/

/-- The arguments of `_compress_qsa_groups_kernel`, by row or by request. -/
structure CompressArgs (V : Type*) where
  rawKeys : Int → Nat → V
  rawPositions : Int → Nat → Int
  tokenToReq : Nat → Int
  queryStartLoc : Int → Int
  logicalPositions : Nat → Int
  compressedSlots : Nat → Int
  /-- The first column of the block table. -/
  stateTable : Int → Int
  numRows : Nat
  numStateBlocks : Nat
  numRequests : Nat
  stateSize : Nat
  compressRatio : Nat
  loadRopePositions : Bool

/-- The keys `V` and the sums `A` of the kernel. -/
structure Pooling (V A : Type*) where
  zero : V
  float : V → A
  start : A
  add : A → A → A
  /-- A sum of so many keys, divided by their number and rounded to a key. -/
  mean : Nat → A → V

namespace Pooling

variable {V A : Type*} (p : Pooling V A)

/-- The pooled key of the members of a group. -/
def pool (n : Nat) (member : Nat → V) : V :=
  p.mean n ((List.range n).foldl (fun acc g => p.add acc (p.float (member g))) p.start)

theorem pool_congr {n : Nat} {member member' : Nat → V} (h : ∀ g < n, member g = member' g) :
    p.pool n member = p.pool n member' := by
  rw [pool, pool]
  congr 1
  refine List.foldl_ext _ _ _ fun acc g hg => ?_
  rw [h g (List.mem_range.1 hg)]

end Pooling

namespace CompressArgs

variable {V A : Type*} (a : CompressArgs V) (row : Nat)

/-- `valid_request`. -/
def validRequest : Bool :=
  decide (0 ≤ a.tokenToReq row) && decide (a.tokenToReq row < a.numRequests)

/-- `safe_request`. -/
def safeRequest : Int := min (max (a.tokenToReq row) 0) (a.numRequests - 1)

/-- `query_row_start`. -/
def queryRowStart : Int := if a.validRequest row then a.queryStartLoc (a.safeRequest row) else 0

/-- `query_row_end`. -/
def queryRowEnd : Int := if a.validRequest row then a.queryStartLoc (a.safeRequest row + 1) else 0

/-- `end_position`. -/
def endPosition : Int := a.logicalPositions row

/-- `chunk_start_position`. -/
def chunkStartPosition : Int := a.endPosition row - (row - a.queryRowStart row)

/-- `compressor_state_block`. -/
def stateBlock : Int := if a.validRequest row then a.stateTable (a.safeRequest row) else -1

/-- `valid_compressor_state_block`. -/
def validStateBlock : Bool :=
  decide (0 ≤ a.stateBlock row) && decide (a.stateBlock row < a.numStateBlocks)

/-- `valid_row`. -/
def validRow : Bool :=
  decide (row < a.numRows) && a.validRequest row && decide (a.queryRowStart row ≤ row) &&
    decide ((row : Int) < a.queryRowEnd row) &&
    decide ((a.compressRatio : Int) - 1 ≤ a.endPosition row) && decide (0 ≤ a.compressedSlots row)

/-- A position of this step is in the rows, and an older one in the ring. -/
def useRaw (position : Int) : Bool := decide (a.chunkStartPosition row ≤ position)

/-- The row of a position of this step. -/
def rawRow (position : Int) : Int := a.queryRowStart row + position - a.chunkStartPosition row

/-- The rows of this step are loaded for a position. -/
def rawMask (position : Int) : Bool :=
  a.validRow row && a.useRaw row position && decide (a.queryRowStart row ≤ a.rawRow row position) &&
    decide (a.rawRow row position < a.queryRowEnd row) &&
    decide (a.rawRow row position < a.numRows)

/-- The ring is loaded for a position. -/
def stateMask (position : Int) : Bool :=
  a.validRow row && !a.useRaw row position && a.validStateBlock row

/-- The cell of a position in the ring. -/
def stateCell (position : Int) (dim : Nat) : RowCell where
  block := max (a.stateBlock row) 0
  token := position.tmod a.stateSize
  dim := dim

/-- What the kernel loads for a position: from the rows or from the ring. -/
def loaded {W : Type*} (zero : W) (raw : Int → Nat → W) (m : RowCell → W) (position : Int)
    (dim : Nat) : W :=
  let rawValue := if a.rawMask row position then raw (a.rawRow row position) dim else zero
  let stateValue := if a.stateMask row position then m (a.stateCell row position dim) else zero
  if a.useRaw row position then rawValue else stateValue

variable {a row} in
/-- Without a group, nothing is loaded. -/
theorem loaded_of_not_valid (h : a.validRow row = false) {W : Type*} {zero : W}
    {raw : Int → Nat → W} {m : RowCell → W} {position : Int} {dim : Nat} :
    a.loaded row zero raw m position dim = zero := by
  simp [loaded, rawMask, stateMask, h]

/-- `position`, of a member of the group. -/
def position (groupOffset : Nat) : Int :=
  a.endPosition row - ((a.compressRatio : Int) - 1 - groupOffset)

/-- `first_position`. -/
def firstPosition : Int := a.endPosition row - a.compressRatio + 1

/-- The pooled key of a row. -/
def pooled (p : Pooling V A) (m : RowCell → V) (dim : Nat) : V :=
  p.pool a.compressRatio fun groupOffset =>
    a.loaded row p.zero a.rawKeys m (a.position row groupOffset) dim

/-- `position_values`. -/
def positionValues (m : RowCell → Int) (dim : Nat) : Int :=
  if a.loadRopePositions then a.loaded row 0 a.rawPositions m (a.firstPosition row) dim
  else if a.validRow row then a.firstPosition row else 0

end CompressArgs

/-- The arguments of `qsa_compress_groups_with_ratio`. -/
structure CompressCall (V : Type*) where
  cuda : Bool
  rawKeysShape : List Nat
  rawPositionsShape : List Nat
  stateShape : List Nat
  tableShape : List Nat
  queryStartShape : List Nat
  positionsShape : List Nat
  slotsShape : List Nat
  ropeShape : Option (List Nat)
  keysDtype : Dtype
  positionsDtype : Dtype
  stateDtype : Dtype
  ropeDtype : Dtype
  compressRatio : Int
  rawKeys : Int → Nat → V
  rawPositions : Int → Nat → Int
  tokenToReq : List Int
  queryStartLoc : Int → Int
  logicalPositions : Nat → Int
  compressedSlots : Nat → Int
  stateTable : Int → Int

/-- The pooled keys and the first positions, by row. -/
structure Pooled (V : Type*) where
  pooled : Nat → Nat → V
  firstPositions : Nat → Nat → Int

namespace CompressCall

variable {V A : Type*} (c : CompressCall V)

/-- `rows`. -/
def rows : Nat := c.tokenToReq.length

/-- `num_requests`. -/
def numRequests : Nat := c.queryStartShape.getD 0 0 - 1

/-- The arguments of the launch. -/
def args : CompressArgs V where
  rawKeys := c.rawKeys
  rawPositions := c.rawPositions
  tokenToReq row := c.tokenToReq.getD row 0
  queryStartLoc := c.queryStartLoc
  logicalPositions := c.logicalPositions
  compressedSlots := c.compressedSlots
  stateTable := c.stateTable
  numRows := c.rows
  numStateBlocks := c.stateShape.getD 0 0
  numRequests := c.numRequests
  stateSize := c.stateShape.getD 1 0
  compressRatio := c.compressRatio.toNat
  loadRopePositions := c.ropeShape.isSome

end CompressCall

/-- `qsa_compress_groups_with_ratio`. -/
def qsaCompressGroupsWithRatio {V A : Type*} (p : Pooling V A) (c : CompressCall V)
    (keys : RowCell → V) (ropes : RowCell → Int) : Except QsaErr (Pooled V) :=
  if c.cuda = false then .error (.runtimeError "QSA CUDA compression requires Triton")
  else if c.compressRatio ≤ 0 then .error (.valueError "QSA compression ratio must be positive")
  else if c.rawKeysShape.length ≠ 3 ∨ c.rawKeysShape.take 2 ≠ [c.rows, 1] then
    .error (.valueError "QSA raw keys must be [rows, 1, head_size]")
  else if c.rawPositionsShape ≠ [c.rows, 1, 3] ∨ c.positionsDtype ≠ .int64 then
    .error (.valueError "QSA raw positions must be [rows, 1, 3] int64")
  else if c.positionsShape ≠ [c.rows] ∨ c.slotsShape ≠ [c.rows] then
    .error (.valueError "QSA compression metadata must match token rows")
  else if c.stateShape.length ≠ 4 ∨ c.stateShape.getD 2 0 ≠ 1 then
    .error (.valueError "QSA compressor-state cache has an invalid shape")
  else if (c.stateShape.getD 1 0 : Int) < c.compressRatio ∨
      c.stateShape.getD 3 0 ≠ c.rawKeysShape.getD 2 0 ∨ c.stateDtype ≠ c.keysDtype then
    .error (.valueError "QSA compressor-state cache does not match the compression layout")
  else if c.tableShape.length ≠ 2 ∨ c.tableShape.getD 1 0 < 1 then
    .error (.valueError
      "QSA compressor-state block table must contain one block per request")
  else if c.queryStartShape.length ≠ 1 ∨ c.queryStartShape.getD 0 0 < 2 then
    .error (.valueError "QSA query starts must contain a terminal offset")
  else if c.tableShape.getD 0 0 < c.numRequests then
    .error (.valueError "QSA compressor-state block table has too few request rows")
  else if ∃ shape ∈ c.ropeShape, shape.length ≠ 4 ∨ shape.take 3 ≠ c.stateShape.take 3 ∨
      shape.getD 3 0 ≠ 3 ∨ c.ropeDtype ≠ .int64 then
    .error (.valueError "QSA packed position view has an invalid shape or dtype")
  else if 0 < c.rows ∧ (0 ∈ c.stateShape ∨ 0 ∈ c.tableShape) then
    .error (.valueError "QSA compressor-state cache and block table must be nonempty")
  else .ok ⟨fun row => c.args.pooled row p keys, fun row => c.args.positionValues row ropes⟩

/-- A call that returns has a ring with room for a group, and has run its launch. -/
theorem qsaCompressGroupsWithRatio_eq_ok {V A : Type*} {p : Pooling V A} {c : CompressCall V}
    {keys : RowCell → V} {ropes : RowCell → Int} {out : Pooled V}
    (h : qsaCompressGroupsWithRatio p c keys ropes = .ok out) :
    0 < c.compressRatio ∧ c.compressRatio ≤ c.stateShape.getD 1 0 ∧
      out = ⟨fun row => c.args.pooled row p keys, fun row => c.args.positionValues row ropes⟩ := by
  simp only [qsaCompressGroupsWithRatio, ite_error_eq_ok] at h
  obtain ⟨-, hratio, -, -, -, -, hsize, -, -, -, -, -, h⟩ := h
  push Not at hratio hsize
  exact ⟨hratio, hsize.1, (Except.ok.inj h).symm⟩

end FlashNext.Qsa
