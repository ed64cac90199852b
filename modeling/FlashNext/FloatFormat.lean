import Mathlib.Algebra.Order.Field.Power
import Mathlib.Data.Int.Log
import Mathlib.Data.Rat.Floor
import Mathlib.Tactic.FieldSimp
import Mathlib.Tactic.Linarith
import Mathlib.Tactic.Ring

/-!
# Binary number formats

The finite numbers of a binary format, as rationals: an exponent field with a bias over a
field of `mantBits` bits, which has a leading one in front of it unless the exponent field
is zero (`FloatFormat.magnitude`).

* `magnitude_widen`: a number that is not subnormal, with its fields moved to a wider format;
* `magnitude_encode`: the bits of a rational that is rounded to nearest, ties to even, are
  those of the rounded number;
* `encode_magnitude`, `encode_mono`: a number is encoded as its own bits, and a greater
  rational by no smaller ones;
* `abs_rounded_sub_le`: how far the rounded number is away.
-/

namespace FlashNext

/-- A binary format. -/
structure FloatFormat where
  mantBits : Nat
  bias : Int

namespace FloatFormat

variable (f : FloatFormat)

/-- The distance between the numbers with the exponent field `exp`. -/
def quantum (exp : Nat) : ℚ := 2 ^ (max (exp : Int) 1 - f.bias - f.mantBits)

/-- The number with the given bits. -/
def magnitude (bits : Nat) : ℚ :=
  let exp := bits / 2 ^ f.mantBits
  let mant := bits % 2 ^ f.mantBits
  (if exp = 0 then mant else 2 ^ f.mantBits + mant : Nat) * f.quantum exp

/-- The number with a sign bit above `width` bits. -/
def value (width bits : Nat) : ℚ :=
  (if bits / 2 ^ width % 2 = 1 then -1 else 1) * f.magnitude (bits % 2 ^ width)

variable {f}

theorem quantum_pos (exp : Nat) : 0 < f.quantum exp := by
  unfold quantum
  positivity

/-- The number with the given fields. -/
theorem magnitude_fields {exp mant : Nat} (hmant : mant < 2 ^ f.mantBits) :
    f.magnitude (exp * 2 ^ f.mantBits + mant) =
      (if exp = 0 then mant else 2 ^ f.mantBits + mant : Nat) * f.quantum exp := by
  have hpos : 0 < 2 ^ f.mantBits := Nat.two_pow_pos _
  have hexp : (exp * 2 ^ f.mantBits + mant) / 2 ^ f.mantBits = exp := by
    rw [Nat.mul_comm, Nat.mul_add_div hpos, Nat.div_eq_of_lt hmant, Nat.add_zero]
  have hmod : (exp * 2 ^ f.mantBits + mant) % 2 ^ f.mantBits = mant := by
    rw [Nat.mul_comm, Nat.mul_add_mod, Nat.mod_eq_of_lt hmant]
  rw [magnitude, hexp, hmod]

theorem value_fields {width low : Nat} (sign : Bool) (hlow : low < 2 ^ width) :
    f.value width (sign.toNat * 2 ^ width + low) = (if sign then -1 else 1) * f.magnitude low := by
  have hpos : 0 < 2 ^ width := Nat.two_pow_pos _
  rw [value, Nat.mul_comm, Nat.mul_add_div hpos, Nat.div_eq_of_lt hlow, Nat.mul_add_mod,
    Nat.mod_eq_of_lt hlow]
  cases sign <;> rfl

theorem magnitude_nonneg (n : Nat) : 0 ≤ f.magnitude n :=
  mul_nonneg (Nat.cast_nonneg _) (quantum_pos _).le

/-- A number that is not subnormal is the same in a wider format, with its exponent at the
    other bias and zeros behind its mantissa. -/
theorem magnitude_widen {g : FloatFormat} (hbits : f.mantBits ≤ g.mantBits) {exp exp' mant : Nat}
    (hmant : mant < 2 ^ f.mantBits) (hexp : 0 < exp) (hexp' : 0 < exp')
    (hbias : (exp' : Int) - g.bias = exp - f.bias) :
    g.magnitude (exp' * 2 ^ g.mantBits + mant * 2 ^ (g.mantBits - f.mantBits)) =
      f.magnitude (exp * 2 ^ f.mantBits + mant) := by
  obtain ⟨k, hk⟩ := Nat.exists_eq_add_of_le hbits
  have hsub : g.mantBits - f.mantBits = k := by omega
  have hshift : mant * 2 ^ k < 2 ^ g.mantBits := by
    rw [hk, pow_add]
    exact Nat.mul_lt_mul_of_pos_right hmant (Nat.two_pow_pos k)
  rw [hsub, magnitude_fields hshift, magnitude_fields hmant, if_neg hexp'.ne', if_neg hexp.ne',
    quantum, quantum, max_eq_left (by omega), max_eq_left (by omega), hbias, hk]
  have hone : (2 : ℚ) ^ (exp - f.bias - (f.mantBits : Int)) =
      2 ^ k * 2 ^ (exp - f.bias - ((f.mantBits + k : Nat) : Int)) := by
    rw [← zpow_natCast, ← zpow_add₀ two_ne_zero]
    congr 1
    push_cast
    ring
  rw [hone]
  push_cast
  ring

/-! ## Formats -/

/-- Four-bit numbers, with a sign bit above 3 bits. -/
def e2m1 : FloatFormat := ⟨1, 1⟩

/-- Eight-bit numbers, with a sign bit above 7 bits. -/
def e4m3 : FloatFormat := ⟨3, 7⟩

/-- Half the bits of a single, with a sign bit above 15 bits. -/
def bfloat16 : FloatFormat := ⟨7, 127⟩

/-- Single precision, with a sign bit above 31 bits. -/
def float32 : FloatFormat := ⟨23, 127⟩

/-! ## Rounding -/

/-- The nearest integer, the even one if there are two. -/
def roundEven (x : ℚ) : Int :=
  if x - ⌊x⌋ < 1 / 2 ∨ x - ⌊x⌋ = 1 / 2 ∧ ⌊x⌋ % 2 = 0 then ⌊x⌋ else ⌊x⌋ + 1

theorem abs_roundEven_sub_le (x : ℚ) : |(roundEven x : ℚ) - x| ≤ 1 / 2 := by
  have hlow := Int.floor_le x
  have hhigh := Int.lt_floor_add_one x
  rw [roundEven, abs_le]
  split_ifs with h
  · have : x - ⌊x⌋ ≤ 1 / 2 := h.elim le_of_lt fun h => h.1.le
    constructor <;> linarith
  · have : 1 / 2 ≤ x - ⌊x⌋ := not_lt.1 fun hlt => h (.inl hlt)
    push_cast
    constructor <;> linarith

/-- Rounding does not go beyond an integer. -/
theorem le_roundEven {x : ℚ} {n : Int} (h : (n : ℚ) ≤ x) : n ≤ roundEven x := by
  have hfloor := Int.le_floor.2 h
  rw [roundEven]
  split_ifs
  · exact hfloor
  · omega

theorem roundEven_le {x : ℚ} {n : Int} (h : x ≤ n) : roundEven x ≤ n := by
  rcases h.eq_or_lt with rfl | h
  · simp [roundEven]
  · have hfloor := Int.floor_lt.2 h
    rw [roundEven]
    split_ifs <;> omega

/-- Rounding keeps the order. -/
theorem roundEven_mono {x y : ℚ} (h : x ≤ y) : roundEven x ≤ roundEven y := by
  rcases (Int.floor_mono h).lt_or_eq with hlt | heq
  · calc roundEven x
      _ ≤ ⌊x⌋ + 1 := by
        rw [roundEven]
        split_ifs <;> omega
      _ ≤ ⌊y⌋ := hlt
      _ ≤ roundEven y := le_roundEven (Int.floor_le y)
  · rw [roundEven, roundEven, ← heq]
    split_ifs with hx hy hy
    · exact le_rfl
    · omega
    · -- The greater one has the greater fraction.
      push Not at hx
      rcases hy with hy | ⟨hy, heven⟩
      · linarith [hx.1]
      · exact absurd heven (hx.2 (le_antisymm (by linarith) hx.1))
    · exact le_rfl

@[simp] theorem roundEven_natCast (n : Nat) : roundEven (n : ℚ) = n := by
  simp [roundEven]

variable (f)

/-- The exponent field of a rational, `1` for a subnormal one. -/
def field (x : ℚ) : Nat :=
  if x = 0 then 1 else (max (Int.log 2 x) (1 - f.bias) + f.bias).toNat

/-- The multiple of the quantum that a rational is rounded to. -/
def steps (x : ℚ) : Nat := (roundEven (x / f.quantum (f.field x))).toNat

/-- The rounded number. -/
def rounded (x : ℚ) : ℚ := f.steps x * f.quantum (f.field x)

/-- The bits of a rational that is rounded to nearest, ties to even. -/
def encode (x : ℚ) : Nat := (f.field x - 1) * 2 ^ f.mantBits + f.steps x

variable {f} {x : ℚ}

theorem field_pos (x : ℚ) : 0 < f.field x := by
  unfold field
  split_ifs <;> omega

theorem quantum_succ {exp : Nat} (hexp : 0 < exp) : f.quantum (exp + 1) = 2 * f.quantum exp := by
  rw [quantum, quantum, max_eq_left (by omega), max_eq_left (by omega), ← zpow_one_add₀ two_ne_zero]
  congr 1
  push_cast
  ring

/-- A rational is less than the first number of the next exponent. -/
theorem lt_quantum_mul (hx : 0 ≤ x) : x < 2 ^ (f.mantBits + 1) * f.quantum (f.field x) := by
  rcases hx.eq_or_lt with rfl | hx
  · have := f.quantum_pos (f.field 0)
    positivity
  · have hlog := Int.lt_zpow_succ_log_self (b := 2) (by decide) x
    refine hlog.trans_le ?_
    rw [quantum, ← zpow_natCast, ← zpow_add₀ two_ne_zero, Nat.cast_ofNat]
    refine zpow_le_zpow_right₀ one_le_two ?_
    rw [field, if_neg hx.ne']
    push_cast
    omega

/-- A rational that is not subnormal is not less than the first number of its exponent. -/
theorem quantum_mul_le (hx : 0 ≤ x) (hfield : f.field x ≠ 1) :
    2 ^ f.mantBits * f.quantum (f.field x) ≤ x := by
  have hne : x ≠ 0 := fun h => hfield (if_pos h)
  have hlog := Int.zpow_log_le_self (b := 2) (by decide) (hx.lt_of_ne' hne)
  refine le_trans ?_ hlog
  rw [quantum, ← zpow_natCast, ← zpow_add₀ two_ne_zero, Nat.cast_ofNat]
  refine zpow_le_zpow_right₀ one_le_two ?_
  rw [field, if_neg hne] at hfield ⊢
  omega

theorem steps_le (hx : 0 ≤ x) : f.steps x ≤ 2 ^ (f.mantBits + 1) := by
  have hq := f.quantum_pos (f.field x)
  have hle : roundEven (x / f.quantum (f.field x)) ≤ (2 ^ (f.mantBits + 1) : Nat) := by
    refine roundEven_le ?_
    rw [div_le_iff₀ hq]
    exact_mod_cast (lt_quantum_mul hx).le
  exact Int.toNat_le.2 hle

theorem le_steps (hx : 0 ≤ x) (hfield : f.field x ≠ 1) : 2 ^ f.mantBits ≤ f.steps x := by
  have hq := f.quantum_pos (f.field x)
  have hle : ((2 ^ f.mantBits : Nat) : Int) ≤ roundEven (x / f.quantum (f.field x)) := by
    refine le_roundEven ?_
    rw [le_div_iff₀ hq]
    exact_mod_cast quantum_mul_le hx hfield
  exact (Int.le_toNat ((Int.natCast_nonneg _).trans hle)).2 hle

/-- The bits are those of the rounded number. -/
theorem magnitude_encode (hx : 0 ≤ x) : f.magnitude (f.encode x) = f.rounded x := by
  have hfield := f.field_pos x
  have hle := f.steps_le hx
  have hpow : 2 ^ (f.mantBits + 1) = 2 ^ f.mantBits + 2 ^ f.mantBits := by rw [pow_succ]; ring
  have hpos : 0 < 2 ^ f.mantBits := Nat.two_pow_pos _
  rcases lt_or_ge (f.steps x) (2 ^ f.mantBits) with hsub | hnormal
  · -- Subnormal: the exponent field is zero.
    have hone : f.field x = 1 := by
      by_contra hne
      exact absurd (f.le_steps hx hne) (not_le.2 hsub)
    rw [encode, magnitude_fields hsub, rounded, hone, if_pos rfl]
    rfl
  · rcases hle.lt_or_eq with hlt | heq
    · have hbits : f.encode x = f.field x * 2 ^ f.mantBits + (f.steps x - 2 ^ f.mantBits) := by
        rw [encode, Nat.sub_mul, Nat.one_mul]
        have := Nat.le_mul_of_pos_left (2 ^ f.mantBits) hfield
        omega
      rw [hbits, magnitude_fields (by omega), if_neg hfield.ne', rounded,
        Nat.add_sub_cancel' hnormal]
    · -- Rounded up to the next exponent.
      have hbits : f.encode x = (f.field x + 1) * 2 ^ f.mantBits + 0 := by
        rw [encode, heq, Nat.sub_mul, Nat.one_mul, Nat.add_mul, Nat.one_mul]
        have := Nat.le_mul_of_pos_left (2 ^ f.mantBits) hfield
        omega
      rw [hbits, magnitude_fields hpos, if_neg (Nat.succ_ne_zero _), rounded, heq,
        quantum_succ hfield]
      push_cast
      ring

/-- The exponent field of a rational in the range of an exponent. -/
theorem field_eq {exp : Nat} (hexp : 0 < exp) (hx : x < 2 ^ (f.mantBits + 1) * f.quantum exp)
    (hlow : exp ≠ 1 → 2 ^ f.mantBits * f.quantum exp ≤ x) (hpos : 0 ≤ x) : f.field x = exp := by
  have hpow : ∀ k : Nat,
      (2 : ℚ) ^ k * f.quantum exp = 2 ^ ((exp : Int) - f.bias - f.mantBits + k) := by
    intro k
    rw [quantum, max_eq_left (by omega), ← zpow_natCast, ← zpow_add₀ two_ne_zero, add_comm]
  rw [hpow] at hx hlow
  push_cast at hx
  rw [field]
  split_ifs with hzero
  · -- Zero is subnormal.
    by_contra hne
    have := hlow (Ne.symm hne)
    rw [hzero] at this
    exact absurd this (not_le.2 (by positivity))
  · have hx₀ : 0 < x := hpos.lt_of_ne' hzero
    have hlog := Int.zpow_log_le_self (b := 2) (by decide) hx₀
    have hlt : Int.log 2 x < exp - f.bias + 1 := by
      have := (zpow_lt_zpow_iff_right₀ (by norm_num : (1 : ℚ) < 2)).1
        ((by exact_mod_cast hlog : (2 : ℚ) ^ Int.log 2 x ≤ x).trans_lt hx)
      omega
    by_cases hone : exp = 1
    · omega
    · have hsucc := Int.lt_zpow_succ_log_self (b := 2) (by decide) x
      have := (zpow_lt_zpow_iff_right₀ (by norm_num : (1 : ℚ) < 2)).1
        ((hlow hone).trans_lt (by exact_mod_cast hsucc))
      omega

/-- A number is encoded as its own bits. -/
theorem encode_magnitude (n : Nat) : f.encode (f.magnitude n) = n := by
  have hpos : 0 < 2 ^ f.mantBits := Nat.two_pow_pos _
  have hmant := Nat.mod_lt n hpos
  have hn := Nat.div_add_mod' n (2 ^ f.mantBits)
  have hmag := @magnitude_fields f (n / 2 ^ f.mantBits) _ hmant
  rw [hn] at hmag
  generalize n / 2 ^ f.mantBits = exp at *
  generalize n % 2 ^ f.mantBits = mant at *
  -- The number is a multiple of the quantum of its exponent field.
  have hsteps : ∀ {e k : Nat}, 0 < e → k < 2 ^ (f.mantBits + 1) →
      (e ≠ 1 → 2 ^ f.mantBits ≤ k) →
      f.encode ((k : ℚ) * f.quantum e) = (e - 1) * 2 ^ f.mantBits + k := by
    intro e k he hk hlow
    have hq := f.quantum_pos e
    have hfield : f.field ((k : ℚ) * f.quantum e) = e := by
      refine field_eq he ?_ (fun hne => ?_) (by positivity)
      · exact mul_lt_mul_of_pos_right (by exact_mod_cast hk) hq
      · exact mul_le_mul_of_nonneg_right (by exact_mod_cast hlow hne) hq.le
    rw [encode, steps, hfield, mul_div_cancel_right₀ _ hq.ne', roundEven_natCast, Int.toNat_natCast]
  rw [hmag]
  split_ifs with hzero
  · subst hzero
    have hquantum : f.quantum 0 = f.quantum 1 := rfl
    rw [hquantum, hsteps Nat.one_pos (by rw [pow_succ]; omega) fun h => absurd rfl h]
    omega
  · rw [hsteps (Nat.pos_of_ne_zero hzero) (by rw [pow_succ]; omega) fun _ => Nat.le_add_right _ _,
      Nat.sub_mul, Nat.one_mul]
    have := Nat.le_mul_of_pos_left (2 ^ f.mantBits) (Nat.pos_of_ne_zero hzero)
    omega

/-- A greater rational has no smaller bits. -/
theorem encode_mono {y : ℚ} (hx : 0 ≤ x) (hxy : x ≤ y) : f.encode x ≤ f.encode y := by
  have hy : 0 ≤ y := hx.trans hxy
  have hle : f.field x ≤ f.field y := by
    rw [field, field]
    split_ifs with hx₀ hy₀ hy₀
    · exact le_rfl
    · omega
    · exact absurd (le_antisymm (hxy.trans hy₀.le) hx) hx₀
    · have := Int.log_mono_right (b := 2) (hx.lt_of_ne' hx₀) hxy
      omega
  rcases hle.lt_or_eq with hlt | heq
  · have hfield := f.field_pos x
    have hhigh := f.steps_le hx
    have hlow := f.le_steps hy (by omega)
    have hmul : (f.field x + 1) * 2 ^ f.mantBits ≤ f.field y * 2 ^ f.mantBits :=
      Nat.mul_le_mul_right _ hlt
    have hfy : 1 ≤ f.field y := f.field_pos y
    rw [pow_succ] at hhigh
    obtain ⟨a, ha⟩ := Nat.exists_eq_add_of_le hfield
    obtain ⟨b, hb⟩ := Nat.exists_eq_add_of_le hfy
    rw [encode, encode, ha, hb]
    rw [ha, hb] at hmul
    simp only [Nat.add_sub_cancel_left, Nat.add_mul, Nat.one_mul] at hmul ⊢
    omega
  · rw [encode, encode, steps, steps, heq]
    have hq := f.quantum_pos (f.field y)
    have hround := roundEven_mono (div_le_div_of_nonneg_right hxy hq.le)
    omega

/-- Greater bits are those of a greater number. -/
theorem magnitude_mono {m n : Nat} (h : m ≤ n) : f.magnitude m ≤ f.magnitude n := by
  by_contra hlt
  have hle := encode_mono (f := f) (magnitude_nonneg n) (not_le.1 hlt).le
  rw [encode_magnitude, encode_magnitude] at hle
  exact hlt (le_antisymm h hle ▸ le_rfl)

/-- The rounded number is within half a quantum. -/
theorem abs_rounded_sub_le (hx : 0 ≤ x) : |f.rounded x - x| ≤ f.quantum (f.field x) / 2 := by
  have hq := f.quantum_pos (f.field x)
  have hround := abs_roundEven_sub_le (x / f.quantum (f.field x))
  have hnonneg : 0 ≤ roundEven (x / f.quantum (f.field x)) :=
    le_roundEven (by push_cast; positivity)
  have hsteps : (f.steps x : ℚ) = roundEven (x / f.quantum (f.field x)) := by
    rw [steps]
    exact_mod_cast Int.toNat_of_nonneg hnonneg
  have heq : f.rounded x - x =
      (roundEven (x / f.quantum (f.field x)) - x / f.quantum (f.field x)) *
        f.quantum (f.field x) := by
    rw [rounded, hsteps]
    field_simp
  rw [heq, abs_mul, abs_of_pos hq]
  nlinarith

/-- The quanta below a power of two. -/
theorem quantum_field_le {exp : Int} (hx : 0 ≤ x) (hlt : x < 2 ^ (exp + 1))
    (hexp : 1 - f.bias ≤ exp) : f.quantum (f.field x) ≤ 2 ^ (exp - f.mantBits) := by
  rw [quantum]
  refine zpow_le_zpow_right₀ one_le_two ?_
  rw [field]
  split_ifs with hzero
  · omega
  · have hlog := Int.zpow_log_le_self (b := 2) (by decide) (hx.lt_of_ne' hzero)
    have := (zpow_lt_zpow_iff_right₀ (by norm_num : (1 : ℚ) < 2)).1
      ((by exact_mod_cast hlog : (2 : ℚ) ^ Int.log 2 x ≤ x).trans_lt hlt)
    omega

end FloatFormat

end FlashNext
