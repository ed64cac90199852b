import Mathlib.Tactic.Linarith
import Mathlib.Tactic.Ring
import FlashNext.Mamba.CopyBlock

/-!
# The moves of a copy

What the tiles of a copy move (`MambaState.Moves`): the tokens of a conv state from
`token_bias` on to its first ones, or all of a temporal state.

* `exists_mem_copies_iff`: these are the moves of the tiles, in each of the three
  layouts;
* `Moves.mem_block` and `Moves.offset_eq`: they are from one block to the other one,
  all by the same distance;
* `moved_tilePrograms`: the tiles, in any order, leave the destination with the moved
  bytes and everything else as it was, also if the two blocks are the same;
* `copyMambaStateBlock_moves`: so does the guarded copy, with its block ids in range.
-/

namespace FlashNext.Mamba

namespace MambaState

variable (s : MambaState) (l : Launch) (c : Copy)

/-- The moves of a copy from the block at `src` to the block at `dst`. -/
def Moves (src dst : Int) (x : Int × Int) : Prop :=
  if 0 < s.convWidth then
    if l.convStateDimFirst then
      ∃ token < s.numDstTokens c, ∃ row < s.dimRowCount, ∃ k < s.elemSize,
        x = (src + row * s.dimRowStride + (token + c.tokenBias) * s.elemSize + k,
          dst + row * s.dimRowStride + token * s.elemSize + k)
    else
      ∃ token < s.numDstTokens c, ∃ k < s.tokenBytes,
        x = (src + (token + c.tokenBias) * s.tokenBytes + k, dst + token * s.tokenBytes + k)
  else ∃ k < s.innerSize * s.elemSize, x = (src + k, dst + k)

/-- The data of a block is not larger than the stride of the blocks. -/
def Fits : Prop :=
  if 0 < s.convWidth then
    if l.convStateDimFirst then
      ∀ row < s.dimRowCount, row * s.dimRowStride + s.convWidth * s.elemSize ≤ s.blockStride
    else s.convWidth * s.tokenBytes ≤ s.blockStride
  else s.innerSize * s.elemSize ≤ s.blockStride

/-- The token bias of a conv state is one of its window. -/
def BiasInWindow : Prop := 0 < s.convWidth → 0 ≤ c.tokenBias ∧ c.tokenBias ≤ s.convWidth

/-- The address is in the block. -/
def InBlock (id a : Int) : Prop := s.blockAddr id ≤ a ∧ a < s.blockAddr id + s.blockStride

/-- The address is in a block of the pool. -/
def InPool (a : Int) : Prop := ∃ id, s.InRange id ∧ s.InBlock id a

variable {s l c} {src dst : Int} {x : Int × Int}

/-! ## The layouts -/

/-- The moves of one element in each lane. -/
theorem exists_mem_copyElements_iff {elemSize n : Nat} {mask : Nat → Bool} {a b : Nat → Int} :
    (∃ v ∈ copyElements elemSize n mask a b, x ∈ v) ↔
      ∃ off < n, mask off = true ∧ ∃ k < elemSize, x = (a off + k, b off + k) := by
  unfold copyElements
  split_ifs with h2 h4
  · simp [h2]
  · simp [h4]
  · simp only [List.mem_map, List.mem_range, exists_exists_and_eq_and, mem_vector]
    constructor
    · rintro ⟨byte, hbyte, off, hoff, hmask, k, hk, rfl⟩
      obtain rfl : k = 0 := by omega
      exact ⟨off, hoff, hmask, byte, hbyte, by simp⟩
    · rintro ⟨off, hoff, hmask, byte, hbyte, rfl⟩
      exact ⟨byte, hbyte, off, hoff, hmask, 0, Nat.one_pos, by simp⟩

/-- The moves of a conv state with the dimension first. -/
theorem exists_mem_copyDimRows_iff (hblock : 0 < l.copyBlockSize) :
    (∃ v ∈ s.copyDimRows l c src dst, x ∈ v) ↔
      ∃ token < s.numDstTokens c, ∃ row < s.dimRowCount, ∃ k < s.elemSize,
        x = (src + row * s.dimRowStride + (token + c.tokenBias) * s.elemSize + k,
          dst + row * s.dimRowStride + token * s.elemSize + k) := by
  have hrows : ∀ token rowBase : Nat, (∃ v ∈ copyElements s.elemSize l.copyBlockSize
        (fun off => decide (rowBase + off < s.dimRowCount))
        (fun off => src + (rowBase + off : Nat) * s.dimRowStride +
          (token + c.tokenBias) * s.elemSize)
        (fun off => dst + (rowBase + off : Nat) * s.dimRowStride + token * s.elemSize), x ∈ v) ↔
      ∃ off < l.copyBlockSize, rowBase + off < s.dimRowCount ∧ ∃ k < s.elemSize,
        x = (src + (rowBase + off : Nat) * s.dimRowStride + (token + c.tokenBias) * s.elemSize + k,
          dst + (rowBase + off : Nat) * s.dimRowStride + token * s.elemSize + k) :=
    fun token rowBase => by simp only [exists_mem_copyElements_iff, decide_eq_true_eq]
  simp only [copyDimRows, List.mem_flatMap, List.mem_range]
  constructor
  · rintro ⟨v, ⟨token, htoken, rowBase, hbase, hv⟩, hx⟩
    obtain ⟨off, hoff, hlt, k, hk, rfl⟩ := (hrows token rowBase).1 ⟨v, hv, hx⟩
    exact ⟨token, htoken, rowBase + off, hlt, k, hk, rfl⟩
  · rintro ⟨token, htoken, row, hrow, k, hk, rfl⟩
    obtain ⟨rowBase, hbase, off, hoff, hlt, rfl⟩ :=
      (exists_lane_iff hblock).2 ⟨Nat.zero_le row, hrow⟩
    obtain ⟨v, hv, hx⟩ := (hrows token rowBase).2 ⟨off, hoff, hlt, k, hk, rfl⟩
    exact ⟨v, ⟨token, htoken, rowBase, hbase, hv⟩, hx⟩

/-- The moves of a copy by one program. -/
theorem exists_mem_memcpy_one_iff {block : Nat} (hblock : 0 < block) (n : Nat) :
    (∃ v ∈ memcpyU64Tiled src dst n 0 block 1, x ∈ v) ↔ ∃ j < n, x = (src + j, dst + j) := by
  rw [← mem_memcpyU64Tiled_iff hblock Nat.one_pos]
  simp

/-- The moves of a conv state with the tokens first. -/
theorem exists_mem_copyTokens_iff (hblock : 0 < l.copyBlockSize) (srcId destId : Int) :
    (∃ v ∈ s.copyTokens l c srcId destId src dst 0, x ∈ v) ↔
      ∃ token < s.numDstTokens c, ∃ k < s.tokenBytes,
        x = (src + (token + c.tokenBias) * s.tokenBytes + k, dst + token * s.tokenBytes + k) := by
  rw [copyTokens]
  split_ifs with hid
  · rw [exists_mem_memcpy_one_iff hblock, Nat.mul_comm, ← exists_byte_iff]
    have heq : ∀ token k : Nat,
        (src + c.tokenBias * s.tokenBytes + (s.tokenBytes * token + k : Nat),
          dst + (s.tokenBytes * token + k : Nat)) =
        (src + (token + c.tokenBias) * s.tokenBytes + k, dst + token * s.tokenBytes + k) := by
      intro token k
      refine Prod.ext ?_ ?_ <;> push_cast <;> ring
    simp only [heq]
  · simp only [List.mem_flatMap, List.mem_range]
    constructor
    · rintro ⟨v, ⟨token, htoken, hv⟩, hx⟩
      obtain ⟨k, hk, rfl⟩ := (exists_mem_memcpy_one_iff hblock _).1 ⟨v, hv, hx⟩
      exact ⟨token, htoken, k, hk, rfl⟩
    · rintro ⟨token, htoken, k, hk, rfl⟩
      obtain ⟨v, hv, hx⟩ := (exists_mem_memcpy_one_iff hblock s.tokenBytes).2 ⟨k, hk, rfl⟩
      exact ⟨v, ⟨token, htoken, hv⟩, hx⟩

/-- Together the tiles of a copy have the moves of its layout. -/
theorem exists_mem_copies_iff (hblock : 0 < l.copyBlockSize) (htiles : 0 < l.temporalTiles) :
    (∃ tile < l.temporalTiles, ∃ v ∈ s.copies l c tile, x ∈ v) ↔
      s.Moves l c (s.blockAddr (s.srcId l c)) (s.blockAddr (s.destId l c)) x := by
  simp only [copies_eq, Moves]
  split_ifs with hconv hdim
  · rw [← exists_mem_copyDimRows_iff hblock]
    constructor
    · rintro ⟨tile, -, v, hv, hx⟩
      split_ifs at hv
      · cases hv
      · exact ⟨v, hv, hx⟩
    · rintro ⟨v, hv, hx⟩
      exact ⟨0, htiles, v, by simpa using hv, hx⟩
  · rw [← exists_mem_copyTokens_iff hblock (s.srcId l c) (s.destId l c)]
    constructor
    · rintro ⟨tile, -, v, hv, hx⟩
      split_ifs at hv with htile
      · cases hv
      · obtain rfl : tile = 0 := by omega
        exact ⟨v, hv, hx⟩
    · rintro ⟨v, hv, hx⟩
      exact ⟨0, htiles, v, by simpa using hv, hx⟩
  · exact mem_memcpyU64Tiled_iff hblock htiles _

/-! ## The two blocks -/

/-- A byte of one of `n` units of `w` bytes. -/
theorem unit_bounds {t n : Int} {w k : Nat} (hpos : 0 ≤ t) (hlt : t < n) (hk : k < w) :
    0 ≤ t * w ∧ t * w + k < n * w := by
  have hnext : (t + 1) * w ≤ n * w :=
    Int.mul_le_mul_of_nonneg_right hlt (Int.natCast_nonneg w)
  rw [Int.add_mul, Int.one_mul] at hnext
  exact ⟨Int.mul_nonneg hpos (Int.natCast_nonneg w), by omega⟩

/-- The tokens of a conv state, before and after the shift. -/
theorem BiasInWindow.token (hbias : s.BiasInWindow c) (hconv : 0 < s.convWidth) {token : Nat}
    (htoken : token < s.numDstTokens c) :
    token + c.tokenBias < s.convWidth ∧ token < s.convWidth := by
  have := (hbias hconv).1
  unfold numDstTokens at htoken
  omega

/-- The moves load from one block and store to the other one. -/
theorem Moves.mem_block (hfits : s.Fits l) (hbias : s.BiasInWindow c)
    (hx : s.Moves l c src dst x) :
    (src ≤ x.1 ∧ x.1 < src + s.blockStride) ∧ dst ≤ x.2 ∧ x.2 < dst + s.blockStride := by
  unfold Moves at hx
  unfold Fits at hfits
  split_ifs at hx hfits with hconv hdim
  · obtain ⟨token, htoken, row, hrow, k, hk, rfl⟩ := hx
    obtain ⟨hsrc, hdst⟩ := hbias.token hconv htoken
    have hfit := hfits row hrow
    have hpos := (hbias hconv).1
    have hload := unit_bounds (by omega) hsrc hk
    have hstore := unit_bounds (t := token) (n := s.convWidth) (by omega) (by omega) hk
    have hrowPos : (0 : Int) ≤ row * s.dimRowStride := by positivity
    have hfit : (row * s.dimRowStride + s.convWidth * s.elemSize : Int) ≤ s.blockStride := by
      exact_mod_cast hfit
    omega
  · obtain ⟨token, htoken, k, hk, rfl⟩ := hx
    obtain ⟨hsrc, hdst⟩ := hbias.token hconv htoken
    have hpos := (hbias hconv).1
    have hload := unit_bounds (by omega) hsrc hk
    have hstore := unit_bounds (t := token) (n := s.convWidth) (by omega) (by omega) hk
    have hfit : (s.convWidth * s.tokenBytes : Int) ≤ s.blockStride := by exact_mod_cast hfits
    omega
  · obtain ⟨k, hk, rfl⟩ := hx
    omega

/-- The block of an address comes before no other block that has it. -/
theorem le_of_inBlock {i j a : Int} (hi : s.InBlock i a) (hj : s.InBlock j a) : j ≤ i := by
  obtain ⟨hi, hi'⟩ := hi
  obtain ⟨hj, hj'⟩ := hj
  by_contra hlt
  have hnext := Int.mul_le_mul_of_nonneg_right (Int.add_one_le_of_lt (not_le.1 hlt))
    (Int.natCast_nonneg s.blockStride)
  rw [Int.add_mul, Int.one_mul] at hnext
  unfold blockAddr at hi' hj
  omega

/-- Two blocks with a common address are the same. -/
theorem eq_of_inBlock {i j a : Int} (hi : s.InBlock i a) (hj : s.InBlock j a) : i = j :=
  le_antisymm (le_of_inBlock hj hi) (le_of_inBlock hi hj)

/-- By how many bytes a copy shifts the data of a block to the left. -/
def shift (s : MambaState) (l : Launch) (c : Copy) : Int :=
  if 0 < s.convWidth then
    if l.convStateDimFirst then c.tokenBias * s.elemSize else c.tokenBias * s.tokenBytes
  else 0

/-- A move goes from an offset in a block to the offset less the shift. -/
theorem Moves.offset_eq (hx : s.Moves l c src dst x) : x.1 - src = x.2 - dst + s.shift l c := by
  unfold Moves at hx
  unfold shift
  split_ifs at hx ⊢
  · obtain ⟨token, -, row, -, k, -, rfl⟩ := hx
    simp only [Int.add_mul]
    omega
  · obtain ⟨token, -, k, -, rfl⟩ := hx
    simp only [Int.add_mul]
    omega
  · obtain ⟨k, -, rfl⟩ := hx
    simp only
    omega

/-! ## A shift in a block -/

/-- The rows of a conv state with the dimension first do not overlap. -/
def RowsApart (s : MambaState) (l : Launch) : Prop :=
  l.convStateDimFirst → 0 < s.convWidth → 1 < s.dimRowCount →
    s.convWidth * s.elemSize ≤ s.dimRowStride

/-- The programs of a loop whose later steps load nothing that an earlier one, or the
    same one, stores. -/
theorem pairwise_flatMap_range {n : Nat} {f : Nat → List (List (Int × Int))}
    (h : ∀ i j, i ≤ j → j < n → ∀ u ∈ f i, ∀ v ∈ f j, Spares u v) :
    ((List.range n).flatMap f).Pairwise Spares := by
  rw [List.pairwise_flatMap]
  constructor
  · intro i hi
    exact List.pairwise_of_forall_mem_list (h i i le_rfl (List.mem_range.1 hi))
  · refine List.pairwise_lt_range.imp_of_mem ?_
    intro i j _ hj hlt
    exact h i j hlt.le (List.mem_range.1 hj)

/-- A unit that is loaded is one that comes after those stored so far. -/
theorem unit_lt_shifted {i j w k : Nat} {bias : Int} (hbias : 0 < bias) (hle : i ≤ j)
    (hk : k < w) : (i * w + k : Int) < (j + bias) * w := by
  have hnext : ((i + 1 : Int)) * w ≤ (j + bias) * w :=
    Int.mul_le_mul_of_nonneg_right (by omega) (Int.natCast_nonneg w)
  rw [Int.add_mul, Int.one_mul] at hnext
  omega

/-- Token by token, a shift to the left loads no byte that it has stored. -/
theorem pairwise_copyTokens (hblock : 0 < l.copyBlockSize) (hpos : 0 < c.tokenBias) (id : Int) :
    (s.copyTokens l c id id dst dst 0).Pairwise Spares := by
  rw [copyTokens, if_neg (by simp [hpos.ne'])]
  refine pairwise_flatMap_range fun i j hle _ u hu v hv x hx y hy => ?_
  obtain ⟨k, hk, rfl⟩ := (exists_mem_memcpy_one_iff hblock _).1 ⟨u, hu, hx⟩
  obtain ⟨k', -, rfl⟩ := (exists_mem_memcpy_one_iff hblock _).1 ⟨v, hv, hy⟩
  have := unit_lt_shifted hpos hle hk
  simp only
  omega

/-- The copies for one token, in the rows of one step. -/
theorem exists_of_mem_copyDimRows_token {token : Nat} {v : List (Int × Int)}
    (hv : v ∈ (stepRange 0 s.dimRowCount l.copyBlockSize).flatMap fun rowBase =>
      copyElements s.elemSize l.copyBlockSize (fun off => decide (rowBase + off < s.dimRowCount))
        (fun off => src + (rowBase + off : Nat) * s.dimRowStride +
          (token + c.tokenBias) * s.elemSize)
        (fun off => dst + (rowBase + off : Nat) * s.dimRowStride + token * s.elemSize))
    (hx : x ∈ v) : ∃ row < s.dimRowCount, ∃ k < s.elemSize,
      x = (src + row * s.dimRowStride + (token + c.tokenBias) * s.elemSize + k,
        dst + row * s.dimRowStride + token * s.elemSize + k) := by
  obtain ⟨rowBase, -, hv⟩ := List.mem_flatMap.1 hv
  obtain ⟨off, -, hlt, k, hk, rfl⟩ := exists_mem_copyElements_iff.1 ⟨v, hv, hx⟩
  exact ⟨rowBase + off, of_decide_eq_true hlt, k, hk, rfl⟩

/-- So does a shift of all rows, token by token. -/
theorem pairwise_copyDimRows (hbias : s.BiasInWindow c) (hpos : 0 < c.tokenBias)
    (hconv : 0 < s.convWidth) (hdim : l.convStateDimFirst) (hrows : s.RowsApart l) :
    (s.copyDimRows l c dst dst).Pairwise Spares := by
  refine pairwise_flatMap_range fun i j hle hj u hu v hv x hx y hy => ?_
  obtain ⟨row, hrow, k, hk, rfl⟩ := exists_of_mem_copyDimRows_token hu hx
  obtain ⟨row', hrow', k', hk', rfl⟩ := exists_of_mem_copyDimRows_token hv hy
  obtain ⟨hsrc, hdst⟩ := hbias.token hconv hj
  have hstore := unit_bounds (t := i) (n := s.convWidth) (by omega) (by omega) hk
  have hload := unit_bounds (t := j + c.tokenBias) (by omega) hsrc hk'
  -- Tokens of one row come behind what is stored so far; those of two rows are apart.
  have hapart : ∀ r r' : Nat, r < r' → r' < s.dimRowCount →
      (r * s.dimRowStride + s.convWidth * s.elemSize : Int) ≤ r' * s.dimRowStride := by
    intro r r' hlt hr'
    have hwidth := hrows hdim hconv (by omega)
    have hnext := Nat.mul_le_mul_right s.dimRowStride hlt
    rw [Nat.succ_mul] at hnext
    exact_mod_cast (Nat.add_le_add_left hwidth _).trans hnext
  simp only
  rcases Nat.lt_trichotomy row row' with hlt | rfl | hlt
  · have := hapart row row' hlt hrow'
    omega
  · have := unit_lt_shifted hpos hle hk
    omega
  · have := hapart row' row hlt hrow
    omega

/-! ## The tiles in any order -/

/-- The programs of the tiles of a copy. -/
def tilePrograms (s : MambaState) (l : Launch) (c : Copy) (guard : Bool) :
    List (List (List (Int × Int))) :=
  (List.range l.temporalTiles).map fun tile => (s.copyMambaStateBlock l c guard tile).copies

/-- With the block ids in range, the guard makes no difference. -/
theorem tilePrograms_of_inRange (h : s.IdsInRange l c) :
    s.tilePrograms l c true = s.tilePrograms l c false :=
  List.map_congr_left fun tile _ => (guarded_copies s l c tile).trans (if_pos h)

/-- With a block id out of range, the tiles copy nothing. -/
theorem eq_nil_of_not_inRange (h : ¬s.IdsInRange l c) {p : List (List (Int × Int))}
    (hp : p ∈ s.tilePrograms l c true) : p = [] := by
  obtain ⟨tile, -, rfl⟩ := List.mem_map.1 hp
  exact (guarded_copies s l c tile).trans (if_neg h)

/-- The moves of the programs are those of the layout. -/
theorem exists_mem_tilePrograms_iff (hblock : 0 < l.copyBlockSize) (htiles : 0 < l.temporalTiles) :
    (∃ v ∈ (s.tilePrograms l c false).flatten, x ∈ v) ↔
      s.Moves l c (s.blockAddr (s.srcId l c)) (s.blockAddr (s.destId l c)) x := by
  rw [← exists_mem_copies_iff hblock htiles]
  simp only [tilePrograms, List.mem_flatten, List.mem_map, List.mem_range, exists_exists_and_eq_and]
  constructor
  · rintro ⟨v, ⟨tile, htile, hv⟩, hx⟩
    exact ⟨tile, htile, v, hv, hx⟩
  · rintro ⟨tile, htile, v, hv, hx⟩
    exact ⟨v, ⟨tile, htile, hv⟩, hx⟩

/-- The tiles of a conv state take the copies of the first one, in its order. -/
theorem eq_of_interleaving_conv {prog : List (List (Int × Int))} (hconv : 0 < s.convWidth)
    (htiles : 0 < l.temporalTiles) (h : Interleaving (s.tilePrograms l c false) prog) :
    prog = s.copies l c 0 := by
  refine h.eq_of_length (i := 0) ?_ ?_
  · simp [tilePrograms, htiles, copies]
  · obtain ⟨n, hn⟩ := Nat.exists_eq_succ_of_ne_zero htiles.ne'
    have hrest : ((List.range n).map fun tile => s.copies l c (tile + 1)).flatten = [] := by
      simp [copies_eq, hconv]
    rw [tilePrograms, hn, List.range_succ_eq_map, List.map_cons, List.map_map, List.flatten_cons]
    change (s.copies l c 0 ++
      ((List.range n).map fun tile => s.copies l c (tile + 1)).flatten).length = _
    rw [hrest, List.append_nil]

/-- The tiles of a copy leave its moves, in whatever order they run. -/
theorem moved_tilePrograms {V : Type*} (hfits : s.Fits l) (hbias : s.BiasInWindow c)
    (hrows : s.RowsApart l) (hblock : 0 < l.copyBlockSize) (htiles : 0 < l.temporalTiles)
    {prog : List (List (Int × Int))} (h : Interleaving (s.tilePrograms l c false) prog)
    (m : Int → V) : Moved m (runCopies m prog) (s.tilePrograms l c false).flatten := by
  have hmoves : ∀ {v x}, v ∈ (s.tilePrograms l c false).flatten → x ∈ v →
      s.Moves l c (s.blockAddr (s.srcId l c)) (s.blockAddr (s.destId l c)) x :=
    fun hv hx => (exists_mem_tilePrograms_iff hblock htiles).1 ⟨_, hv, hx⟩
  -- All moves go the same distance, so no byte has two sources.
  have hone : OneSource (s.tilePrograms l c false).flatten := by
    intro u hu v hv x hx y hy hkey
    have := (hmoves hu hx).offset_eq
    have := (hmoves hv hy).offset_eq
    omega
  by_cases hself : s.srcId l c = s.destId l c ∧ s.shift l c ≠ 0
  · -- A conv state is shifted to the left in its block.
    obtain ⟨hid, hshift⟩ := hself
    have hconv : 0 < s.convWidth := by
      by_contra hconv
      exact hshift (if_neg hconv)
    have hpos : 0 < c.tokenBias := by
      refine lt_of_le_of_ne (hbias hconv).1 fun hzero => hshift ?_
      simp [shift, ← hzero]
    obtain rfl := eq_of_interleaving_conv hconv htiles h
    refine (runCopies_spec m (fun u hu v hv => hone u (h.perm.subset hu) v (h.perm.subset hv))
      ?_).congr fun x => ?_
    · rw [copies_eq, if_pos hconv, if_neg (Nat.lt_irrefl 0), hid]
      split_ifs with hdim
      · exact pairwise_copyDimRows hbias hpos hconv hdim hrows
      · exact pairwise_copyTokens hblock hpos _
    · simp only [h.perm.mem_iff]
  · -- The blocks are apart, or a block is copied to itself.
    refine runCopies_of_settled m hone (fun u hu v hv x hx y hy hkey => ?_) fun x => by
      simp only [h.perm.mem_iff]
    have hstore := ((hmoves hu hx).mem_block hfits hbias).2
    have hload := ((hmoves hv hy).mem_block hfits hbias).1
    rw [← hkey] at hload
    have hid := eq_of_inBlock hload hstore
    have hshift : s.shift l c = 0 := by_contra fun hshift => hself ⟨hid, hshift⟩
    have := (hmoves hu hx).offset_eq
    rw [hid, hshift] at this
    omega

/-- The order of the tiles makes no difference, whatever the layout. -/
theorem runCopies_tilePrograms_unique {V : Type*} (hfits : s.Fits l) (hbias : s.BiasInWindow c)
    (hblock : 0 < l.copyBlockSize) {prog prog' : List (List (Int × Int))}
    (h : Interleaving (s.tilePrograms l c false) prog)
    (h' : Interleaving (s.tilePrograms l c false) prog') (m : Int → V) :
    runCopies m prog = runCopies m prog' := by
  rcases Nat.eq_zero_or_pos l.temporalTiles with hzero | htiles
  · have hnil : ∀ p ∈ s.tilePrograms l c false, p = [] := by simp [tilePrograms, hzero]
    rw [h.eq_nil hnil, h'.eq_nil hnil]
  · by_cases hconv : 0 < s.convWidth
    · rw [eq_of_interleaving_conv hconv htiles h, eq_of_interleaving_conv hconv htiles h']
    · have hrows : s.RowsApart l := fun _ h => absurd h hconv
      exact (moved_tilePrograms hfits hbias hrows hblock htiles h m).unique
        (moved_tilePrograms hfits hbias hrows hblock htiles h' m)

/-! ## The guarded copy -/

/-- With its block ids in range, a copy moves what its layout says, and nothing else,
    in whatever order the tiles run. -/
theorem copyMambaStateBlock_moves {V : Type*} (s : MambaState) (l : Launch) (c : Copy)
    (hids : s.IdsInRange l c) (hfits : s.Fits l) (hrows : s.RowsApart l)
    (hbias : s.BiasInWindow c) (hblock : 0 < l.copyBlockSize) (htiles : 0 < l.temporalTiles)
    {prog : List (List (Int × Int))} (h : Interleaving (s.tilePrograms l c true) prog)
    (m : Int → V) :
    (∀ x, s.Moves l c (s.blockAddr (s.srcId l c)) (s.blockAddr (s.destId l c)) x →
      runCopies m prog x.2 = m x.1) ∧
    ∀ a, (∀ x, s.Moves l c (s.blockAddr (s.srcId l c)) (s.blockAddr (s.destId l c)) x →
      x.2 ≠ a) → runCopies m prog a = m a := by
  rw [tilePrograms_of_inRange hids] at h
  have hmoved := moved_tilePrograms hfits hbias hrows hblock htiles h m
  constructor
  · intro x hx
    obtain ⟨v, hv, hxv⟩ := (exists_mem_tilePrograms_iff hblock htiles).2 hx
    exact hmoved.moved v hv x hxv
  · intro a ha
    exact hmoved.frame a fun v hv x hx =>
      ha x ((exists_mem_tilePrograms_iff hblock htiles).1 ⟨v, hv, hx⟩)

/-- A conv state of three tokens of two bytes. -/
def threeTokens : MambaState where
  baseAddr := 3
  blockStride := 8
  elemSize := 2
  innerSize := 1
  convWidth := 3
  groupIdx := 0
  dimRowCount := 0
  dimRowStride := 0
  numBlocks := 1

/-- Two tiles, and the first block in every column. -/
def twoTiles : Launch where
  blockTable _ _ := 0
  blockTableStrideReq := 1
  copyBlockSize := 4
  convStateDimFirst := false
  temporalTiles := 2

/-- The last two tokens of a block, moved to its front: the first byte is that of the
    second token, and the last token is still there. -/
theorem copyMambaStateBlock_moves_threeTokens :
    runCopies (fun a : Int => a) (threeTokens.tilePrograms twoTiles ⟨0, 0, 0, 1⟩ true).flatten 3 =
      5 ∧
    runCopies (fun a : Int => a) (threeTokens.tilePrograms twoTiles ⟨0, 0, 0, 1⟩ true).flatten 7 =
      7 := by
  obtain ⟨hmoved, hframe⟩ := copyMambaStateBlock_moves threeTokens twoTiles ⟨0, 0, 0, 1⟩
    (by decide) (show 3 * 2 ≤ 8 by decide) (fun h => by cases h) (fun _ => by decide)
    (by decide) (by decide) (Interleaving.flatten _) (fun a => a)
  refine ⟨hmoved (5, 3) ⟨0, by decide, 0, by decide, by decide⟩, hframe 7 ?_⟩
  rintro _ ⟨token, htoken, k, hk, rfl⟩
  change token < 2 at htoken
  change k < 2 at hk
  change (3 + 0 * 8 : Int) + token * (2 : Nat) + k ≠ 7
  omega

end MambaState

end FlashNext.Mamba
