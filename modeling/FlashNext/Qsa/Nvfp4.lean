import Mathlib.Data.Real.Basic
import FlashNext.FloatFormat

/-!
# Caches of four-bit numbers

The NVFP4 branch of `_qsa_sparse_paged_gqa_splitk_kernel`: a row of a cache has two E2M1
numbers in a byte and an E4M3 scale for each 16 of them, on a page of its own, for the
values in a permutation within four rows (`nvfp4ScaleCoord`). The numbers are decoded to
the bits of a float32.

* `value_nvfp4DecodeE2m1` and `nvfp4ScaleToFloat_eq`: the decoded numbers are those of the
  formats, for all bytes;
* `number_pack` and `blockScale_pack`: what has been packed is read back, each number with
  the scale of its group.
-/

namespace FlashNext.Qsa

open FloatFormat (e2m1 e4m3 float32)

/-! ## Numbers -/

/-- `_nvfp4_decode_e2m1`, the bits of a float32. -/
def nvfp4DecodeE2m1 (nibble : BitVec 8) : BitVec 32 :=
  let magnitude := nibble &&& 0x07#8
  let signBits := (nibble &&& 0x08#8).setWidth 32 <<< 28
  let normalBits := ((126#32 <<< 23) + (magnitude.setWidth 32 <<< 22)) ||| signBits
  let subnormalBits := ((magnitude &&& 0x01#8).setWidth 32 * 0x3F000000#32) ||| signBits
  if magnitude < 2#8 then subnormalBits else normalBits

/-- `_nvfp4_scale_to_float`. -/
def nvfp4ScaleToFloat (bits : BitVec 8) : ℚ :=
  let payload := bits.setWidth 32 &&& 0x7F#32
  let expBits := (payload >>> 3) &&& 0x0F#32
  let mant := payload &&& 0x07#32
  let normalBits := ((expBits + 120#32) <<< 23) ||| (mant <<< 20)
  let normal := float32.value 31 normalBits.toNat
  let subnormal := (mant.toNat : ℚ) / 512
  if payload = 0#32 then 0 else if expBits = 0#32 then subnormal else normal

/-- The fields of the bits that a nibble is decoded to. -/
theorem toNat_nvfp4DecodeE2m1 (nibble : BitVec 8) : (nvfp4DecodeE2m1 nibble).toNat =
    (nibble.getLsbD 3).toNat * 2 ^ 31 +
      if nibble.toNat % 8 < 2 then nibble.toNat % 8 * (126 * 2 ^ 23)
      else (126 + nibble.toNat % 8 / 2) * 2 ^ 23 + nibble.toNat % 8 % 2 * 2 ^ 22 := by
  revert nibble
  decide +kernel

/-- The fields of the bits that a block scale is decoded to. -/
theorem toNat_scaleBits (bits : BitVec 8) :
    ((((bits.setWidth 32 &&& 0x7F#32) >>> 3 &&& 0x0F#32) + 120#32) <<< 23 |||
      (bits.setWidth 32 &&& 0x7F#32 &&& 0x07#32) <<< 20).toNat =
    (bits.toNat % 128 / 8 + 120) * 2 ^ 23 + bits.toNat % 128 % 8 * 2 ^ 20 := by
  revert bits
  decide +kernel

theorem scaleFields (bits : BitVec 8) :
    (bits.setWidth 32 &&& 0x7F#32 = 0#32 ↔ bits.toNat % 128 = 0) ∧
      ((bits.setWidth 32 &&& 0x7F#32) >>> 3 &&& 0x0F#32 = 0#32 ↔ bits.toNat % 128 / 8 = 0) ∧
      (bits.setWidth 32 &&& 0x7F#32 &&& 0x07#32).toNat = bits.toNat % 128 % 8 := by
  revert bits
  decide +kernel

theorem toNat_mod_sixteen (nibble : BitVec 8) :
    nibble.toNat % 16 = (nibble.getLsbD 3).toNat * 2 ^ 3 + nibble.toNat % 8 := by
  revert nibble
  decide +kernel

/-- The subnormal numbers have bits of their own. -/
theorem magnitude_subnormal {n : Nat} (hn : n < 2) :
    float32.magnitude (n * (126 * 2 ^ 23)) = e2m1.magnitude n := by
  have hhalf : e2m1.magnitude (0 * 2 ^ 1 + n) = n * e2m1.quantum 0 :=
    FloatFormat.magnitude_fields (f := e2m1) hn
  rw [zero_mul, zero_add] at hhalf
  rw [hhalf]
  obtain rfl | rfl : n = 0 ∨ n = 1 := by omega
  · have hzero := @FloatFormat.magnitude_fields float32 0 0 (Nat.two_pow_pos 23)
    simpa using hzero
  · have hone := @FloatFormat.magnitude_fields float32 126 0 (Nat.two_pow_pos 23)
    rw [Nat.one_mul]
    refine hone.trans ?_
    norm_num [FloatFormat.quantum, float32, e2m1]

/-- A nibble is decoded to its number. -/
theorem value_nvfp4DecodeE2m1 (nibble : BitVec 8) :
    float32.value 31 (nvfp4DecodeE2m1 nibble).toNat = e2m1.value 3 (nibble.toNat % 16) := by
  have hmag : nibble.toNat % 8 < 8 := Nat.mod_lt _ (by decide)
  rw [toNat_nvfp4DecodeE2m1, toNat_mod_sixteen]
  generalize nibble.toNat % 8 = n at hmag ⊢
  rw [FloatFormat.value_fields _ (by split_ifs <;> omega), FloatFormat.value_fields _ hmag]
  congr 1
  split_ifs with hsub
  · exact magnitude_subnormal hsub
  · have hbias : ((126 + n / 2 : Nat) : Int) - 127 = (n / 2 : Nat) - 1 := by omega
    have hwiden := @FloatFormat.magnitude_widen e2m1 float32 (by decide) (n / 2) (126 + n / 2)
      (n % 2) (Nat.mod_lt _ (by decide)) (by omega) (by omega) hbias
    refine hwiden.trans ?_
    congr 1
    exact Nat.div_add_mod' n 2

/-- A block scale is decoded to its number, without its sign. -/
theorem nvfp4ScaleToFloat_eq (bits : BitVec 8) :
    nvfp4ScaleToFloat bits = e4m3.magnitude (bits.toNat % 128) := by
  obtain ⟨hpayload, hexp, hmant⟩ := scaleFields bits
  have hlt : bits.toNat % 128 < 128 := Nat.mod_lt _ (by decide)
  have hbits := toNat_scaleBits bits
  rw [nvfp4ScaleToFloat]
  rw [hmant, hbits, if_congr hpayload rfl (if_congr hexp rfl rfl)]
  generalize bits.toNat % 128 = n at hlt ⊢
  split_ifs with hzero hsub
  · rw [hzero]
    simp [FloatFormat.magnitude]
  · have hn : n < 8 := by omega
    have hfields := @FloatFormat.magnitude_fields e4m3 0 n hn
    rw [zero_mul, zero_add, if_pos rfl] at hfields
    rw [hfields, Nat.mod_eq_of_lt hn]
    norm_num [FloatFormat.quantum, e4m3, div_eq_mul_inv]
  · have hlow : (n / 8 + 120) * 2 ^ 23 + n % 8 * 2 ^ 20 < 2 ^ 31 := by omega
    have hvalue := FloatFormat.value_fields (f := float32) false hlow
    have hbias : ((n / 8 + 120 : Nat) : Int) - 127 = (n / 8 : Nat) - 7 := by omega
    have hwiden : float32.magnitude ((n / 8 + 120) * 2 ^ 23 + n % 8 * 2 ^ 20) =
        e4m3.magnitude (n / 8 * 2 ^ 3 + n % 8) :=
      @FloatFormat.magnitude_widen e4m3 float32 (by decide) (n / 8) (n / 8 + 120)
        (n % 8) (Nat.mod_lt _ (by decide)) (by omega) (by omega) hbias
    rw [Bool.toNat_false, zero_mul, zero_add, if_neg Bool.false_ne_true, one_mul] at hvalue
    calc float32.value 31 ((n / 8 + 120) * 2 ^ 23 + n % 8 * 2 ^ 20)
      _ = float32.magnitude ((n / 8 + 120) * 2 ^ 23 + n % 8 * 2 ^ 20) := hvalue
      _ = e4m3.magnitude (n / 8 * 2 ^ 3 + n % 8) := hwiden
      _ = e4m3.magnitude n := congrArg _ (Nat.div_add_mod' n 8)

/-! ## Rows -/

/-- `_nvfp4_scale_coord`: where the scale of a row of a page and a group is. -/
def nvfp4ScaleCoord (swizzled : Bool) (scaleDim slot group : Nat) : Nat × Nat :=
  let swizzleGroup := scaleDim / 4
  if swizzled then (slot / 4 * 4 + group / swizzleGroup, group % swizzleGroup * 4 + slot % 4)
  else (slot, group)

/-- The row and the group whose scale is at a place. -/
def nvfp4ScaleOf (swizzled : Bool) (scaleDim row index : Nat) : Nat × Nat :=
  if swizzled then (row / 4 * 4 + index % 4, row % 4 * (scaleDim / 4) + index / 4)
  else (row, index)

/-- Every scale has a place of its own. -/
theorem nvfp4ScaleOf_coord {swizzled : Bool} {scaleDim slot group : Nat}
    (hdim : swizzled = true → 4 ∣ scaleDim) (hgroup : group < scaleDim) :
    nvfp4ScaleOf swizzled scaleDim (nvfp4ScaleCoord swizzled scaleDim slot group).1
      (nvfp4ScaleCoord swizzled scaleDim slot group).2 = (slot, group) := by
  cases swizzled with
  | false => rfl
  | true =>
    obtain ⟨n, rfl⟩ := hdim rfl
    have hn : 0 < n := by omega
    have hdiv : 4 * n / 4 = n := Nat.mul_div_cancel_left n (by decide)
    have hlt : group / n < 4 := by
      rw [Nat.div_lt_iff_lt_mul hn]
      omega
    have hgroup' := Nat.div_add_mod' group n
    simp only [nvfp4ScaleOf, nvfp4ScaleCoord, if_true, hdiv, Prod.mk.injEq]
    generalize group / n = q at hlt hgroup' ⊢
    generalize group % n = r at hgroup' ⊢
    have hquarter : (slot / 4 * 4 + q) % 4 = q := by omega
    have hindex : (r * 4 + slot % 4) / 4 = r := by omega
    refine ⟨by omega, ?_⟩
    rw [hquarter, hindex]
    exact hgroup'

/-- The pages of a cache, by block, row, head and byte, and those of its block scales. -/
structure Nvfp4Cache where
  data : Int → Nat → Nat → Nat → BitVec 8
  scale : Int → Nat → Nat → Nat → BitVec 8

/-- The nibble of a number in its byte. -/
def nvfp4Nibble (byte : BitVec 8) (dim : Nat) : BitVec 8 :=
  if dim % 2 = 0 then byte &&& 0x0F#8 else (byte >>> 4) &&& 0x0F#8

namespace Nvfp4Cache

variable (c : Nvfp4Cache) (swizzled : Bool) (headDim : Nat) (block : Int) (token head dim : Nat)

/-- The decoded nibble of a number. -/
def number : ℚ :=
  float32.value 31 (nvfp4DecodeE2m1 (nvfp4Nibble (c.data block token head (dim / 2)) dim)).toNat

/-- The decoded scale of the group of a number. -/
def blockScale : ℚ :=
  let coord := nvfp4ScaleCoord swizzled (headDim / 16) token (dim / 16)
  nvfp4ScaleToFloat (c.scale block coord.1 head coord.2)

end Nvfp4Cache

/-- Numbers of four bits, and the scales of their groups. -/
structure Nvfp4Rows where
  code : Int → Nat → Nat → Nat → BitVec 4
  scale : Int → Nat → Nat → Nat → BitVec 8

namespace Nvfp4Rows

variable (x : Nvfp4Rows) {swizzled : Bool} {headDim : Nat} {block : Int} {token head dim : Nat}

/-- The pages of the rows: the number with the even index is in the low nibble. -/
def pack (swizzled : Bool) (headDim : Nat) : Nvfp4Cache where
  data block token head byte :=
    x.code block token head (2 * byte + 1) ++ x.code block token head (2 * byte)
  scale block row head index :=
    let place := nvfp4ScaleOf swizzled (headDim / 16) row index
    x.scale block place.1 head place.2

/-- A number, with its scale and that of the layer. -/
noncomputable def number (layerScale : ℝ) (block : Int) (token head dim : Nat) : ℝ :=
  e2m1.value 3 (x.code block token head dim).toNat *
    (e4m3.magnitude ((x.scale block token head (dim / 16)).toNat % 128) * layerScale)

theorem toNat_nvfp4Nibble (high low : BitVec 4) :
    ((high ++ low : BitVec 8) &&& 0x0F#8).toNat % 16 = low.toNat ∧
      (((high ++ low : BitVec 8) >>> 4) &&& 0x0F#8).toNat % 16 = high.toNat := by
  revert high low
  decide +kernel

/-- A packed number is read back. -/
theorem number_pack :
    (x.pack swizzled headDim).number block token head dim =
      e2m1.value 3 (x.code block token head dim).toNat := by
  rw [Nvfp4Cache.number, value_nvfp4DecodeE2m1]
  congr 1
  obtain ⟨hlow, hhigh⟩ := toNat_nvfp4Nibble (x.code block token head (2 * (dim / 2) + 1))
    (x.code block token head (2 * (dim / 2)))
  rw [nvfp4Nibble, pack]
  split_ifs with heven
  · rw [hlow, show 2 * (dim / 2) = dim by omega]
  · rw [hhigh, show 2 * (dim / 2) + 1 = dim by omega]

/-- So is the scale of its group. -/
theorem blockScale_pack (hswizzled : swizzled = true → 64 ∣ headDim) (hdim : dim < headDim)
    (hgroups : 16 ∣ headDim) :
    (x.pack swizzled headDim).blockScale swizzled headDim block token head dim =
      e4m3.magnitude ((x.scale block token head (dim / 16)).toNat % 128) := by
  obtain ⟨n, rfl⟩ := hgroups
  have hn : 16 * n / 16 = n := Nat.mul_div_cancel_left n (by decide)
  have hcoord := @nvfp4ScaleOf_coord swizzled (16 * n / 16) token (dim / 16)
    (fun h => by have := hswizzled h; omega) (by omega)
  rw [Nvfp4Cache.blockScale, nvfp4ScaleToFloat_eq]
  dsimp only [pack]
  rw [hcoord]

end Nvfp4Rows

end FlashNext.Qsa
