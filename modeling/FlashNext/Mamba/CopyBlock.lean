import FlashNext.Mamba.Memcpy

/-!
# The guarded copy of a Mamba state

`_copy_mamba_state_block` of `mamba_utils_guarded.py`: one tile of the copy of a state
from a block column of a request to another one. The block ids come from a table that
may hold anything; the guard leaves the copy out if one of them is not the number of a
block of the state's pool.

* `copies_eq`: the copies of a tile without the guard, by layout;
* `guarded_copies`: every tile of a copy takes the same decision, and the copies of one
  that goes on are those without the guard;
* `guarded_hits`: how often a tile adds one to `guard_hits`.
-/

namespace FlashNext.Mamba

/-- The metadata of a state: the entries at its index of the tensors that the kernels
    are given. -/
structure MambaState where
  baseAddr : Int
  /-- Bytes from a block to the next. -/
  blockStride : Nat
  elemSize : Nat
  innerSize : Nat
  /-- `0` for a temporal state. -/
  convWidth : Nat
  groupIdx : Nat
  dimRowCount : Nat
  dimRowStride : Nat
  /-- The number of blocks of the pool. -/
  numBlocks : Nat

/-- What the copies of a launch have in common. -/
structure Launch where
  /-- The block tables of the groups, by the index of the element. -/
  blockTable : Nat → Int → Int
  blockTableStrideReq : Int
  copyBlockSize : Nat
  convStateDimFirst : Bool
  temporalTiles : Nat

/-- The copy of a request, between two columns of its row of the block tables. -/
structure Copy where
  btRowIdx : Int
  srcCol : Int
  dstCol : Int
  tokenBias : Int

/-- What one tile does: its copies, and how often it adds one to `guard_hits`. -/
structure Effect where
  copies : List (List (Int × Int))
  hits : Nat

/-- The copy of one element in each lane: at once if there is a type of its size, and
    else byte by byte. -/
def copyElements (elemSize n : Nat) (mask : Nat → Bool) (src dst : Nat → Int) :
    List (List (Int × Int)) :=
  let element (width byte : Nat) :=
    vector width n mask (fun off => src off + byte) (fun off => dst off + byte)
  if elemSize = 2 then [element 2 0]
  else if elemSize = 4 then [element 4 0]
  else (List.range elemSize).map (element 1)

namespace MambaState

variable (s : MambaState) (l : Launch) (c : Copy)

/-- `tl.load(block_table_base + col)`. -/
def blockId (col : Int) : Int := l.blockTable s.groupIdx (c.btRowIdx * l.blockTableStrideReq + col)

/-- The address of a block. -/
def blockAddr (id : Int) : Int := s.baseAddr + id * s.blockStride

/-- The id is that of a block of the pool. -/
def InRange (id : Int) : Prop := 0 ≤ id ∧ id < s.numBlocks

instance (id : Int) : Decidable (s.InRange id) := inferInstanceAs (Decidable (_ ∧ _))

/-- `token_bytes`. -/
def tokenBytes : Nat := s.innerSize * s.elemSize

/-- `num_dst_tokens`. -/
def numDstTokens : Nat := (s.convWidth - c.tokenBias).toNat

/-- The copy of a conv state with the dimension first: token by token, the rows in
    blocks. -/
def copyDimRows (src dst : Int) : List (List (Int × Int)) :=
  (List.range (s.numDstTokens c)).flatMap fun token : Nat =>
    (stepRange 0 s.dimRowCount l.copyBlockSize).flatMap fun rowBase =>
      copyElements s.elemSize l.copyBlockSize (fun off => decide (rowBase + off < s.dimRowCount))
        (fun off => src + (rowBase + off : Nat) * s.dimRowStride +
          (token + c.tokenBias) * s.elemSize)
        (fun off => dst + (rowBase + off : Nat) * s.dimRowStride + token * s.elemSize)

/-- The copy of a conv state with the tokens first: at once, or token by token if it
    shifts a block to the left. -/
def copyTokens (srcId destId src dst : Int) (tile : Nat) : List (List (Int × Int)) :=
  if srcId ≠ destId ∨ c.tokenBias = 0 then
    memcpyU64Tiled (src + c.tokenBias * s.tokenBytes) dst (s.numDstTokens c * s.tokenBytes) tile
      l.copyBlockSize 1
  else
    (List.range (s.numDstTokens c)).flatMap fun token : Nat =>
      memcpyU64Tiled (src + (token + c.tokenBias) * s.tokenBytes) (dst + token * s.tokenBytes)
        s.tokenBytes tile l.copyBlockSize 1

/-- `_copy_mamba_state_block`; without the guard, the block ids are not looked at. -/
def copyMambaStateBlock (guard : Bool) (tile : Nat) : Effect :=
  let outOfRange (id : Int) := guard && decide ¬s.InRange id
  let destId := s.blockId l c c.dstCol
  if outOfRange destId then ⟨[], 1⟩
  else
    let dst := s.blockAddr destId
    if l.convStateDimFirst ∧ 0 < s.convWidth then
      if 0 < tile then ⟨[], 0⟩
      else
        let srcId := s.blockId l c c.srcCol
        if outOfRange srcId then ⟨[], 1⟩ else ⟨s.copyDimRows l c (s.blockAddr srcId) dst, 0⟩
    else if 0 < s.convWidth then
      if 0 < tile then ⟨[], 0⟩
      else
        let srcId := s.blockId l c c.srcCol
        if outOfRange srcId then ⟨[], 1⟩
        else ⟨s.copyTokens l c srcId destId (s.blockAddr srcId) dst tile, 0⟩
    else
      let srcId := s.blockId l c (c.srcCol + c.tokenBias)
      if outOfRange srcId then ⟨[], 1⟩
      else ⟨memcpyU64Tiled (s.blockAddr srcId) dst (s.innerSize * s.elemSize) tile l.copyBlockSize
        l.temporalTiles, 0⟩

/-! ## The decision of the guard -/

/-- The block that the copy reads from. -/
def srcId : Int :=
  if 0 < s.convWidth then s.blockId l c c.srcCol else s.blockId l c (c.srcCol + c.tokenBias)

/-- The block that the copy writes to. -/
def destId : Int := s.blockId l c c.dstCol

/-- The two block ids are in range. -/
def IdsInRange : Prop := s.InRange (s.destId l c) ∧ s.InRange (s.srcId l c)

instance : Decidable (s.IdsInRange l c) := inferInstanceAs (Decidable (_ ∧ _))

/-- The copies of a tile without the guard. -/
def copies (tile : Nat) : List (List (Int × Int)) := (s.copyMambaStateBlock l c false tile).copies

/-- The layouts without the guard: conv states are copied by the first tile. -/
theorem copies_eq (tile : Nat) : s.copies l c tile =
    if 0 < s.convWidth then
      if 0 < tile then []
      else if l.convStateDimFirst then
        s.copyDimRows l c (s.blockAddr (s.srcId l c)) (s.blockAddr (s.destId l c))
      else s.copyTokens l c (s.srcId l c) (s.destId l c) (s.blockAddr (s.srcId l c))
        (s.blockAddr (s.destId l c)) tile
    else memcpyU64Tiled (s.blockAddr (s.srcId l c)) (s.blockAddr (s.destId l c))
      (s.innerSize * s.elemSize) tile l.copyBlockSize l.temporalTiles := by
  by_cases hconv : 0 < s.convWidth
  · by_cases htile : 0 < tile <;> by_cases hdim : l.convStateDimFirst = true <;>
      simp [copies, copyMambaStateBlock, hconv, htile, hdim, srcId, destId]
  · simp [copies, copyMambaStateBlock, hconv, srcId, destId]

/-- A tile with the guard: it copies what it does without it, or it copies nothing and
    adds one to `guard_hits`, unless it is a later tile of a conv state. -/
theorem guarded_eq (tile : Nat) : s.copyMambaStateBlock l c true tile =
    ⟨if s.IdsInRange l c then s.copies l c tile else [],
      if s.IdsInRange l c then 0
      else if s.InRange (s.destId l c) ∧ 0 < s.convWidth ∧ 0 < tile then 0 else 1⟩ := by
  rw [copies_eq]
  by_cases hdest : s.InRange (s.destId l c)
  · by_cases hconv : 0 < s.convWidth
    · by_cases hsrc : s.InRange (s.srcId l c) <;> by_cases htile : 0 < tile <;>
        by_cases hdim : l.convStateDimFirst = true <;>
          simp_all [copyMambaStateBlock, IdsInRange, srcId, destId]
    · by_cases hsrc : s.InRange (s.srcId l c) <;>
        simp_all [copyMambaStateBlock, IdsInRange, srcId, destId]
  · simp_all [copyMambaStateBlock, IdsInRange, destId]

/-- Every tile of a copy takes the same decision: its copies are left out if a block id
    is out of range, and else they are those without the guard. -/
theorem guarded_copies (tile : Nat) : (s.copyMambaStateBlock l c true tile).copies =
    if s.IdsInRange l c then s.copies l c tile else [] :=
  congrArg Effect.copies (s.guarded_eq l c tile)

/-- How often a tile adds one to `guard_hits`. -/
theorem guarded_hits (tile : Nat) : (s.copyMambaStateBlock l c true tile).hits =
    if s.IdsInRange l c then 0
    else if s.InRange (s.destId l c) ∧ 0 < s.convWidth ∧ 0 < tile then 0 else 1 :=
  congrArg Effect.hits (s.guarded_eq l c tile)

end MambaState

end FlashNext.Mamba
