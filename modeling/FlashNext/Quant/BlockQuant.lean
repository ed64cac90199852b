import FlashNext.FloatFormat

/-!
# Blocks of eight-bit numbers

`block_quant` of `fp8_convert.py`: a matrix is cut into blocks of 128 rows and columns, of
which each gets a scale, and its numbers are rounded to E4M3.

* `abs_dequantized_sub_le`: a number is read back within a 28th of the greatest one of its
  block;
* `rel_le`: so the round trip that is measured is within a 28th, but for matrices of
  tiny numbers;
* `blockQuant_twice`: the codes of a block that is quantized again are left as they are,
  with the scale `1`.

The arithmetic of the conversion is taken to be exact, up to the rounding to E4M3.
-/

namespace FlashNext.Quant

open FloatFormat (e4m3)

/-- A matrix, by row and column. -/
abbrev Matrix128 := Nat → Nat → ℚ

/-- `FP8_MAX`. -/
def fp8Max : ℚ := 448

/-- `w.abs().amax()` over some cells. -/
def amax (w : Matrix128) (cells : List (Nat × Nat)) : ℚ :=
  cells.foldr (fun x m => max |w x.1 x.2| m) 0

/-- The cells of a matrix. -/
def cells (rows columns : Nat) : List (Nat × Nat) := (List.range rows).product (List.range columns)

/-- The cells of a block. -/
def blockCells (i j : Nat) : List (Nat × Nat) :=
  (cells 128 128).map fun x => (i * 128 + x.1, j * 128 + x.2)

/-- `absmax`, of a block. -/
def absmax (w : Matrix128) (i j : Nat) : ℚ := max (amax w (blockCells i j)) 1e-12

/-- `scale`, of a block. -/
def blockScale (w : Matrix128) (i j : Nat) : ℚ := absmax w i j / fp8Max

/-- `x.clamp(-FP8_MAX, FP8_MAX)`. -/
def clamp (x : ℚ) : ℚ := min (max x (-fp8Max)) fp8Max

/-- `x.to(torch.float8_e4m3fn)`, for a number that is in the range. -/
def toE4m3 (x : ℚ) : Nat := (if x < 0 then 2 ^ 7 else 0) + e4m3.encode |x|

/-- What a code is read as. -/
def ofE4m3 (code : Nat) : ℚ := e4m3.value 7 code

/-- `q`. -/
def codes (w : Matrix128) (row column : Nat) : Nat :=
  toE4m3 (clamp (w row column / blockScale w (row / 128) (column / 128)))

/-- `deq`. -/
def dequantized (w : Matrix128) (row column : Nat) : ℚ :=
  ofE4m3 (codes w row column) * blockScale w (row / 128) (column / 128)

/-- `rel`. -/
def rel (rows columns : Nat) (w : Matrix128) : ℚ :=
  amax (fun row column => dequantized w row column - w row column) (cells rows columns) /
    amax w (cells rows columns)

/-! ## The greatest number -/

section Amax

variable {w : Matrix128} {l : List (Nat × Nat)} {b : ℚ}

theorem le_amax {x : Nat × Nat} (hx : x ∈ l) : |w x.1 x.2| ≤ amax w l := by
  induction l with
  | nil => cases hx
  | cons y l ih =>
    rcases List.mem_cons.1 hx with rfl | hx
    · exact le_max_left _ _
    · exact (ih hx).trans (le_max_right _ _)

theorem amax_le (hb : 0 ≤ b) (h : ∀ x ∈ l, |w x.1 x.2| ≤ b) : amax w l ≤ b := by
  induction l with
  | nil => exact hb
  | cons x l ih =>
    rw [List.forall_mem_cons] at h
    exact max_le h.1 (ih h.2)

theorem exists_of_amax_pos (h : 0 < amax w l) : ∃ x ∈ l, |w x.1 x.2| = amax w l := by
  induction l with
  | nil => exact absurd h (lt_irrefl _)
  | cons x l ih =>
    have hcons : amax w (x :: l) = max |w x.1 x.2| (amax w l) := rfl
    rw [hcons] at h ⊢
    rcases max_choice |w x.1 x.2| (amax w l) with hmax | hmax <;> rw [hmax] at h ⊢
    · exact ⟨x, List.mem_cons_self, rfl⟩
    · obtain ⟨y, hy, heq⟩ := ih h
      exact ⟨y, List.mem_cons_of_mem x hy, heq⟩

end Amax

theorem mem_cells {rows columns : Nat} {x : Nat × Nat} :
    x ∈ cells rows columns ↔ x.1 < rows ∧ x.2 < columns := by
  obtain ⟨row, column⟩ := x
  simp only [cells, List.pair_mem_product, List.mem_range]

theorem mem_blockCells {i j : Nat} {x : Nat × Nat} :
    x ∈ blockCells i j ↔ x.1 / 128 = i ∧ x.2 / 128 = j := by
  simp only [blockCells, List.mem_map, mem_cells]
  constructor
  · rintro ⟨y, ⟨hrow, hcolumn⟩, rfl⟩
    dsimp only
    omega
  · rintro ⟨rfl, rfl⟩
    refine ⟨(x.1 % 128, x.2 % 128), ⟨Nat.mod_lt _ (by decide), Nat.mod_lt _ (by decide)⟩, ?_⟩
    exact Prod.ext (Nat.div_add_mod' _ _) (Nat.div_add_mod' _ _)

/-! ## Codes -/

theorem magnitude_fp8Max : e4m3.magnitude 126 = fp8Max := by
  norm_num [FloatFormat.magnitude, FloatFormat.quantum, e4m3, fp8Max]

/-- The codes of numbers in the range are below the sign bit. -/
theorem encode_le {x : ℚ} (hx : 0 ≤ x) (hle : x ≤ fp8Max) : e4m3.encode x ≤ 126 := by
  have hmono := FloatFormat.encode_mono (f := e4m3) hx (hle.trans magnitude_fp8Max.ge)
  rwa [FloatFormat.encode_magnitude] at hmono

/-- A code is read as the number that is rounded, with its sign. -/
theorem ofE4m3_toE4m3 {x : ℚ} (hx : |x| ≤ fp8Max) :
    ofE4m3 (toE4m3 x) = (if x < 0 then -1 else 1) * e4m3.rounded |x| := by
  have hlt : e4m3.encode |x| < 2 ^ 7 := (encode_le (abs_nonneg x) hx).trans_lt (by decide)
  have hcode := FloatFormat.value_fields (f := e4m3) (decide (x < 0)) hlt
  rw [FloatFormat.magnitude_encode (abs_nonneg x)] at hcode
  rw [ofE4m3, toE4m3]
  split_ifs with hneg <;> simpa [hneg] using hcode

/-- The rounding to E4M3 is within 16. -/
theorem abs_ofE4m3_sub_le {x : ℚ} (hx : |x| ≤ fp8Max) : |ofE4m3 (toE4m3 x) - x| ≤ 16 := by
  have hround := FloatFormat.abs_rounded_sub_le (f := e4m3) (abs_nonneg x)
  have hquantum : e4m3.quantum (e4m3.field |x|) ≤ 2 ^ ((8 : Int) - e4m3.mantBits) := by
    refine FloatFormat.quantum_field_le (abs_nonneg x) (hx.trans_lt ?_) (by decide)
    norm_num [fp8Max]
  have hlimit : (2 : ℚ) ^ ((8 : Int) - e4m3.mantBits) = 32 := by norm_num [e4m3]
  rw [hlimit] at hquantum
  have hsign : ofE4m3 (toE4m3 x) - x =
      (if x < 0 then -1 else 1) * (e4m3.rounded |x| - |x|) := by
    rw [ofE4m3_toE4m3 hx]
    split_ifs with hneg
    · rw [abs_of_neg hneg]
      ring
    · rw [abs_of_nonneg (not_lt.1 hneg)]
      ring
  have habs : |ofE4m3 (toE4m3 x) - x| = abs (e4m3.rounded |x| - |x|) := by
    rw [hsign, abs_mul]
    split_ifs <;> simp
  rw [habs]
  linarith

/-- A number in the range is clamped to itself. -/
theorem clamp_of_abs_le {x : ℚ} (hx : |x| ≤ fp8Max) : clamp x = x := by
  rw [abs_le] at hx
  rw [clamp, max_eq_left hx.1, min_eq_left hx.2]

/-! ## Round trips -/

variable {w : Matrix128} {row column : Nat}

theorem absmax_pos (i j : Nat) : 0 < absmax w i j := lt_max_of_lt_right (by norm_num)

theorem blockScale_pos (i j : Nat) : 0 < blockScale w i j :=
  div_pos (absmax_pos i j) (by norm_num [fp8Max])

/-- The scaled numbers of a block are in the range. -/
theorem abs_div_scale_le (w : Matrix128) (row column : Nat) :
    |w row column / blockScale w (row / 128) (column / 128)| ≤ fp8Max := by
  have hscale := blockScale_pos (w := w) (row / 128) (column / 128)
  have hle : |w row column| ≤ absmax w (row / 128) (column / 128) :=
    (le_amax (x := (row, column)) (mem_blockCells.2 ⟨rfl, rfl⟩)).trans (le_max_left _ _)
  rw [abs_div, abs_of_pos hscale, div_le_iff₀ hscale, blockScale,
    mul_div_cancel₀ _ (by norm_num [fp8Max])]
  exact hle

/-- A number is read back within a 28th of the greatest number of its block. -/
theorem abs_dequantized_sub_le (w : Matrix128) (row column : Nat) :
    |dequantized w row column - w row column| ≤ absmax w (row / 128) (column / 128) / 28 := by
  have hscale := blockScale_pos (w := w) (row / 128) (column / 128)
  have hrange := abs_div_scale_le w row column
  have hround := abs_ofE4m3_sub_le hrange
  have hsub : dequantized w row column - w row column =
      (ofE4m3 (toE4m3 (w row column / blockScale w (row / 128) (column / 128))) -
        w row column / blockScale w (row / 128) (column / 128)) *
      blockScale w (row / 128) (column / 128) := by
    rw [dequantized, codes, clamp_of_abs_le hrange, sub_mul, div_mul_cancel₀ _ hscale.ne']
  calc |dequantized w row column - w row column|
    _ = _ := by rw [hsub, abs_mul, abs_of_pos hscale]
    _ ≤ 16 * blockScale w (row / 128) (column / 128) :=
      mul_le_mul_of_nonneg_right hround hscale.le
    _ = absmax w (row / 128) (column / 128) / 28 := by
      rw [blockScale, fp8Max]
      ring

/-- The round trip of a matrix is within a 28th of its greatest number, unless all its
    numbers are tiny, but not zero. -/
theorem rel_le {rows columns : Nat} (hrows : 128 ∣ rows) (hcolumns : 128 ∣ columns)
    (htiny : amax w (cells rows columns) = 0 ∨ 1e-12 ≤ amax w (cells rows columns)) :
    rel rows columns w ≤ 1 / 28 := by
  rcases htiny with hzero | hlarge
  · rw [rel, hzero, div_zero]
    norm_num
  · have hpos : 0 < amax w (cells rows columns) := lt_of_lt_of_le (by norm_num) hlarge
    rw [rel, div_le_iff₀ hpos, one_div, inv_mul_eq_div]
    refine amax_le (by positivity) fun x hx => (abs_dequantized_sub_le w x.1 x.2).trans ?_
    refine div_le_div_of_nonneg_right (max_le (amax_le hpos.le fun y hy => ?_) hlarge) (by norm_num)
    -- The cells of a block are cells of the matrix.
    rw [mem_cells] at hx
    obtain ⟨hrow, hcolumn⟩ := mem_blockCells.1 hy
    refine le_amax (mem_cells.2 ?_)
    omega

/-! ## Codes that are quantized again -/

/-- The numbers that the codes are read as. -/
def codeNumbers (w : Matrix128) : Matrix128 := fun row column => ofE4m3 (codes w row column)

theorem abs_ofE4m3_toE4m3 {x : ℚ} (hx : |x| ≤ fp8Max) :
    |ofE4m3 (toE4m3 x)| = e4m3.magnitude (e4m3.encode |x|) := by
  have hnonneg := FloatFormat.magnitude_nonneg (f := e4m3) (e4m3.encode |x|)
  rw [ofE4m3_toE4m3 hx, ← FloatFormat.magnitude_encode (abs_nonneg x), abs_mul,
    abs_of_nonneg hnonneg]
  split_ifs <;> simp

theorem abs_ofE4m3_le {x : ℚ} (hx : |x| ≤ fp8Max) : |ofE4m3 (toE4m3 x)| ≤ fp8Max := by
  rw [abs_ofE4m3_toE4m3 hx, ← magnitude_fp8Max]
  exact FloatFormat.magnitude_mono (encode_le (abs_nonneg x) hx)

/-- A number of the format is rounded to itself. -/
theorem ofE4m3_toE4m3_self {x : ℚ} (hx : |x| ≤ fp8Max) {n : Nat} (hn : |x| = e4m3.magnitude n) :
    ofE4m3 (toE4m3 x) = x := by
  rw [ofE4m3_toE4m3 hx, ← FloatFormat.magnitude_encode (abs_nonneg x), hn,
    FloatFormat.encode_magnitude, ← hn]
  split_ifs with hneg
  · rw [abs_of_neg hneg]
    ring
  · rw [abs_of_nonneg (not_lt.1 hneg), one_mul]

/-- The greatest number of a block has the greatest code. -/
theorem absmax_codeNumbers {i j : Nat} (hlarge : 1e-12 ≤ amax w (blockCells i j)) :
    absmax (codeNumbers w) i j = fp8Max := by
  have hpos : 0 < amax w (blockCells i j) := lt_of_lt_of_le (by norm_num) hlarge
  obtain ⟨x, hx, heq⟩ := exists_of_amax_pos hpos
  obtain ⟨hrow, hcolumn⟩ := mem_blockCells.1 hx
  have habsmax : absmax w i j = amax w (blockCells i j) := max_eq_left hlarge
  have hdiv : |w x.1 x.2 / blockScale w (x.1 / 128) (x.2 / 128)| = fp8Max := by
    rw [hrow, hcolumn, abs_div, abs_of_pos (blockScale_pos i j), heq, blockScale, habsmax,
      div_div_cancel₀ hpos.ne']
  have hmax : |codeNumbers w x.1 x.2| = fp8Max := by
    rw [codeNumbers, codes, clamp_of_abs_le hdiv.le, abs_ofE4m3_toE4m3 hdiv.le, hdiv,
      ← magnitude_fp8Max, FloatFormat.encode_magnitude]
  refine le_antisymm (max_le (amax_le (by norm_num [fp8Max]) fun y _ => ?_) (by norm_num [fp8Max]))
    (hmax ▸ (le_amax hx).trans (le_max_left _ _))
  rw [codeNumbers, codes, clamp_of_abs_le (abs_div_scale_le w y.1 y.2)]
  exact abs_ofE4m3_le (abs_div_scale_le w y.1 y.2)

/-- A block that is quantized again keeps its codes, but gets the scale `1`. -/
theorem blockQuant_twice
    (hlarge : 1e-12 ≤ amax w (blockCells (row / 128) (column / 128))) :
    blockScale (codeNumbers w) (row / 128) (column / 128) = 1 ∧
      codeNumbers (codeNumbers w) row column = codeNumbers w row column := by
  have hscale : blockScale (codeNumbers w) (row / 128) (column / 128) = 1 := by
    rw [blockScale, absmax_codeNumbers hlarge, div_self (by norm_num [fp8Max])]
  have hrange := abs_div_scale_le w row column
  have hcode : codeNumbers w row column =
      ofE4m3 (toE4m3 (w row column / blockScale w (row / 128) (column / 128))) := by
    rw [codeNumbers, codes, clamp_of_abs_le hrange]
  have hle : |codeNumbers w row column| ≤ fp8Max := hcode ▸ abs_ofE4m3_le hrange
  refine ⟨hscale, ?_⟩
  rw [codeNumbers, codes, hscale, div_one, clamp_of_abs_le hle]
  exact ofE4m3_toE4m3_self hle (hcode ▸ abs_ofE4m3_toE4m3 hrange)

end FlashNext.Quant
