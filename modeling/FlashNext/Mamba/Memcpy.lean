import FlashNext.Copies

/-!
# The tiled copy of the Mamba kernels

`_memcpy_u64_tiled` of `mamba_utils_guarded.py`, as the copies that a tile makes: a
masked load of a block of lanes and the store of what it has loaded. Addresses are
integers, and every lane moves as many bytes as its element has.

`mem_memcpyU64Tiled_iff`: together the tiles move the bytes of the range, no more and
no less, whatever the alignment of the two addresses and the size of a block.
-/

namespace FlashNext.Mamba

/-! ## Blocks of lanes -/

/-- The moves of `n` bytes from `src` to `dst`. -/
def span (n : Nat) (src dst : Int) : List (Int × Int) :=
  (List.range n).map fun k => (src + k, dst + k)

/-- `tl.store(dst, tl.load(src, mask=mask), mask=mask)`, for the lanes `tl.arange(0, n)`:
    the moves of the bytes of their elements. -/
def vector (width n : Nat) (mask : Nat → Bool) (src dst : Nat → Int) : List (Int × Int) :=
  ((List.range n).filter mask).flatMap fun off => span width (src off) (dst off)

/-- `tl.cdiv`. -/
def cdiv (a b : Nat) : Nat := (a + b - 1) / b

/-- `range(start, stop, step)`. -/
def stepRange (start stop step : Nat) : List Nat :=
  (List.range (cdiv (stop - start) step)).map fun i => start + i * step

@[simp] theorem mem_span {n : Nat} {src dst : Int} {x : Int × Int} :
    x ∈ span n src dst ↔ ∃ k < n, x = (src + k, dst + k) := by
  simp [span, eq_comm]

@[simp] theorem mem_vector {width n : Nat} {mask : Nat → Bool} {src dst : Nat → Int}
    {x : Int × Int} : x ∈ vector width n mask src dst ↔
      ∃ off < n, mask off = true ∧ ∃ k < width, x = (src off + k, dst off + k) := by
  simp [vector, and_assoc]

/-- So many blocks cover the range. -/
theorem le_cdiv_mul (a : Nat) {b : Nat} (hb : 0 < b) : a ≤ cdiv a b * b := le_chunks_mul hb a

/-- The blocks of a loop have the numbers of its range, each in a lane of its own. -/
theorem exists_lane_iff {start stop step : Nat} (hstep : 0 < step) {q : Nat} :
    (∃ i ∈ stepRange start stop step, ∃ off < step, i + off < stop ∧ i + off = q) ↔
      start ≤ q ∧ q < stop := by
  simp only [stepRange, List.mem_map, List.mem_range]
  constructor
  · rintro ⟨_, ⟨i, -, rfl⟩, off, -, hlt, rfl⟩
    exact ⟨by omega, hlt⟩
  · rintro ⟨hle, hlt⟩
    have hdiv := Nat.div_add_mod (q - start) step
    have hmod := Nat.mod_lt (q - start) hstep
    have hcover := le_cdiv_mul (stop - start) hstep
    rw [Nat.mul_comm] at hdiv
    refine ⟨_, ⟨(q - start) / step, ?_, rfl⟩, (q - start) % step, hmod, by omega, by omega⟩
    by_contra hge
    have := Nat.mul_le_mul_right step (not_lt.1 hge)
    omega

/-- The steps of a loop are at least a block apart. -/
theorem pairwise_stepRange (start stop step : Nat) :
    (stepRange start stop step).Pairwise fun i j => i + step ≤ j := by
  rw [stepRange, List.pairwise_map]
  refine List.pairwise_lt_range.imp fun {i j} hlt => ?_
  have := Nat.mul_le_mul_right step (Nat.succ_le_of_lt hlt)
  rw [Nat.succ_mul] at this
  omega

/-! ## The tiles -/

/-- The loop of a tile over its part of `total` elements of `width` bytes: the parts
    are rounded up to blocks. -/
def tiled (width : Nat) (src dst : Int) (total tile block numTiles : Nat) :
    List (List (Int × Int)) :=
  let perTile := cdiv (cdiv total numTiles) block * block
  let start := tile * perTile
  let stop := min (start + perTile) total
  (stepRange start stop block).map fun i =>
    vector width block (fun off => decide (i + off < stop))
      (fun off => src + width * (i + off : Nat)) (fun off => dst + width * (i + off : Nat))

/-- `_memcpy_u64_tiled`. -/
def memcpyU64Tiled (src dst : Int) (copySize tile block numTiles : Nat) :
    List (List (Int × Int)) :=
  -- `((src ^ dst) & 7) == 0`
  if src % 8 = dst % 8 then
    let headBytes := min ((-dst) % 8).toNat copySize
    let bodyU64 := (copySize - headBytes) / 8
    let tailStart := headBytes + bodyU64 * 8
    (if tile = 0 then
      [vector 1 8 (fun off => decide (off < headBytes)) (fun off => src + off)
        (fun off => dst + off)] else []) ++
    tiled 8 (src + headBytes) (dst + headBytes) bodyU64 tile block numTiles ++
    (if tile = 0 then
      [vector 1 8 (fun off => decide (off < copySize - tailStart))
        (fun off => src + tailStart + off) (fun off => dst + tailStart + off)] else [])
  else tiled 1 src dst copySize tile block numTiles

section Cover

variable {src dst : Int} {block numTiles : Nat} {x : Int × Int}

/-- The moves of one tile. -/
theorem mem_tiled_iff (hblock : 0 < block) (width total tile : Nat) :
    (∃ v ∈ tiled width src dst total tile block numTiles, x ∈ v) ↔
      ∃ q, (tile * (cdiv (cdiv total numTiles) block * block) ≤ q ∧
        q < min (tile * (cdiv (cdiv total numTiles) block * block) +
          cdiv (cdiv total numTiles) block * block) total) ∧
        ∃ k < width, x = (src + width * q + k, dst + width * q + k) := by
  generalize hper : cdiv (cdiv total numTiles) block * block = perTile
  simp only [tiled, hper, List.mem_map, exists_exists_and_eq_and, mem_vector, decide_eq_true_eq]
  constructor
  · rintro ⟨i, hi, off, hoff, hlt, k, hk, rfl⟩
    exact ⟨i + off, (exists_lane_iff hblock).1 ⟨i, hi, off, hoff, hlt, rfl⟩, k, hk, rfl⟩
  · rintro ⟨q, hq, k, hk, rfl⟩
    obtain ⟨i, hi, off, hoff, hlt, rfl⟩ := (exists_lane_iff hblock).2 hq
    exact ⟨i, hi, off, hoff, hlt, k, hk, rfl⟩

/-- An element of the range is in one of the tiles. -/
theorem exists_tile_iff {total perTile : Nat} (hcover : total ≤ numTiles * perTile) {q : Nat} :
    (∃ tile < numTiles, tile * perTile ≤ q ∧ q < min (tile * perTile + perTile) total) ↔
      q < total := by
  constructor
  · rintro ⟨tile, -, -, hlt⟩
    omega
  · intro hlt
    have hpos : 0 < perTile := Nat.pos_of_mul_pos_left (lt_of_lt_of_le (by omega) hcover)
    have hdiv := Nat.div_add_mod q perTile
    have hmod := Nat.mod_lt q hpos
    rw [Nat.mul_comm] at hdiv
    exact ⟨q / perTile, (Nat.div_lt_iff_lt_mul hpos).2 (hlt.trans_le hcover), by omega, by omega⟩

/-- A byte of a range is one of an element. -/
theorem exists_byte_iff {width total : Nat} {P : Nat → Prop} :
    (∃ q < total, ∃ k < width, P (width * q + k)) ↔ ∃ j < width * total, P j := by
  constructor
  · rintro ⟨q, hq, k, hk, h⟩
    refine ⟨width * q + k, ?_, h⟩
    have := Nat.mul_le_mul_left width hq
    rw [Nat.mul_succ] at this
    omega
  · rintro ⟨j, hj, h⟩
    have hpos : 0 < width := Nat.pos_of_mul_pos_right (Nat.zero_lt_of_lt hj)
    refine ⟨j / width, Nat.div_lt_of_lt_mul hj, j % width, Nat.mod_lt j hpos, ?_⟩
    rwa [Nat.div_add_mod]

/-- Together the tiles of a loop move its elements. -/
theorem exists_mem_tiled_iff (hblock : 0 < block) (hnum : 0 < numTiles) (width total : Nat) :
    (∃ tile < numTiles, ∃ v ∈ tiled width src dst total tile block numTiles, x ∈ v) ↔
      ∃ j < width * total, x = (src + j, dst + j) := by
  have hcover : total ≤ numTiles * (cdiv (cdiv total numTiles) block * block) :=
    (le_cdiv_mul total hnum).trans (by
      rw [Nat.mul_comm]
      exact Nat.mul_le_mul_left _ (le_cdiv_mul _ hblock))
  simp only [mem_tiled_iff hblock]
  rw [← exists_byte_iff]
  constructor
  · rintro ⟨tile, htile, q, hq, k, hk, rfl⟩
    refine ⟨q, (exists_tile_iff hcover).1 ⟨tile, htile, hq⟩, k, hk, ?_⟩
    push_cast
    rw [add_assoc, add_assoc]
  · rintro ⟨q, hq, k, hk, rfl⟩
    obtain ⟨tile, htile, hq⟩ := (exists_tile_iff hcover).2 hq
    refine ⟨tile, htile, q, hq, k, hk, ?_⟩
    push_cast
    rw [add_assoc, add_assoc]

/-- The moves of eight lanes of bytes. -/
theorem mem_vector_bytes {n : Nat} (hn : n ≤ 8) (src dst : Int) :
    x ∈ vector 1 8 (fun off => decide (off < n)) (fun off => src + off) (fun off => dst + off) ↔
      ∃ j < n, x = (src + j, dst + j) := by
  simp only [mem_vector, decide_eq_true_eq]
  constructor
  · rintro ⟨off, -, hlt, k, hk, rfl⟩
    obtain rfl : k = 0 := by omega
    exact ⟨off, hlt, by simp⟩
  · rintro ⟨j, hj, rfl⟩
    exact ⟨j, by omega, hj, 0, by omega, by simp⟩

/-- The moves of a tile whose addresses have the same alignment: the first tile has the
    head and the tail. -/
theorem mem_aligned_iff {head body tail tile : List (List (Int × Int))} {u w : List (Int × Int)}
    {p : Prop} [Decidable p] (hhead : head = if p then [u] else [])
    (htail : tail = if p then [w] else []) (htile : tile = head ++ body ++ tail) :
    (∃ v ∈ tile, x ∈ v) ↔ (p ∧ (x ∈ u ∨ x ∈ w)) ∨ ∃ v ∈ body, x ∈ v := by
  subst htile hhead htail
  by_cases hp : p
  · simp only [hp, if_true, List.mem_append, List.mem_singleton, true_and]
    constructor
    · rintro ⟨v, (rfl | hv) | rfl, hx⟩
      · exact .inl (.inl hx)
      · exact .inr ⟨v, hv, hx⟩
      · exact .inl (.inr hx)
    · rintro ((hx | hx) | ⟨v, hv, hx⟩)
      · exact ⟨u, .inl (.inl rfl), hx⟩
      · exact ⟨w, .inr rfl, hx⟩
      · exact ⟨v, .inl (.inr hv), hx⟩
  · simp [hp]

/-- Together the tiles move the bytes of the range. -/
theorem mem_memcpyU64Tiled_iff (hblock : 0 < block) (hnum : 0 < numTiles) (copySize : Nat) :
    (∃ tile < numTiles, ∃ v ∈ memcpyU64Tiled src dst copySize tile block numTiles, x ∈ v) ↔
      ∃ j < copySize, x = (src + j, dst + j) := by
  by_cases halign : src % 8 = dst % 8
  · obtain ⟨head, hhead⟩ : ∃ head, head = min ((-dst) % 8).toNat copySize := ⟨_, rfl⟩
    obtain ⟨body, hbody⟩ : ∃ body, body = (copySize - head) / 8 := ⟨_, rfl⟩
    have hlt : head < 8 := by
      have := Int.emod_lt_of_pos (-dst) (show (0 : Int) < 8 by decide)
      omega
    have hle : head + 8 * body ≤ copySize ∧ copySize < head + 8 * body + 8 := by omega
    have hmid : (∃ tile < numTiles,
        ∃ v ∈ tiled 8 (src + head) (dst + head) body tile block numTiles, x ∈ v) ↔ _ :=
      exists_mem_tiled_iff hblock hnum 8 body
    have htile : ∀ tile, (∃ v ∈ memcpyU64Tiled src dst copySize tile block numTiles, x ∈ v) ↔ _ :=
      fun tile => by
        simp only [memcpyU64Tiled, if_pos halign, ← hhead, ← hbody]
        exact mem_aligned_iff rfl rfl rfl
    simp only [htile, mem_vector_bytes hlt.le,
      mem_vector_bytes (show copySize - (head + body * 8) ≤ 8 by omega)]
    constructor
    · rintro ⟨tile, htile, ⟨-, ⟨j, hj, rfl⟩ | ⟨j, hj, rfl⟩⟩ | hx⟩
      · exact ⟨j, by omega, rfl⟩
      · exact ⟨head + body * 8 + j, by omega, by push_cast; simp only [add_assoc]⟩
      · obtain ⟨j, hj, rfl⟩ := hmid.1 ⟨tile, htile, hx⟩
        exact ⟨head + j, by omega, by push_cast; simp only [add_assoc]⟩
    · rintro ⟨j, hj, rfl⟩
      -- The byte is in the head, in the body, or in the tail.
      rcases Nat.lt_or_ge j head with hj₁ | hj₁
      · exact ⟨0, hnum, .inl ⟨rfl, .inl ⟨j, hj₁, rfl⟩⟩⟩
      · rcases Nat.lt_or_ge j (head + 8 * body) with hj₂ | hj₂
        · obtain ⟨tile, htile, hx⟩ := hmid.2 ⟨j - head, by omega,
            Prod.ext (by simp only; omega) (by simp only; omega)⟩
          exact ⟨tile, htile, .inr hx⟩
        · exact ⟨0, hnum, .inl ⟨rfl, .inr ⟨j - (head + body * 8), by omega,
            Prod.ext (by simp only; omega) (by simp only; omega)⟩⟩⟩
  · have : (∃ tile < numTiles, ∃ v ∈ tiled 1 src dst copySize tile block numTiles, x ∈ v) ↔ _ :=
      exists_mem_tiled_iff hblock hnum 1 copySize
    rw [Nat.one_mul] at this
    simpa only [memcpyU64Tiled, if_neg halign] using this

end Cover

end FlashNext.Mamba
