import Mathlib.Data.List.TakeWhile
import FlashNext.Python.Text

/-!
# Names of modules

What the quantization code asks of a dotted name: its last component and what comes
before it, where a text occurs in it, and the number that is one of its components.
-/

namespace FlashNext.Quant

open Python

/-- `packed_modules_mapping`. -/
abbrev Packed := Str → Option (List Str)

/-- `s.rpartition(".")`, without the separator. -/
def rpartition (s : Str) : Str × Str :=
  match s.reverse.dropWhile (· ≠ 46) with
  | [] => ([], s)
  | _ :: head => (head.reverse, (s.reverse.takeWhile (· ≠ 46)).reverse)

/-- `s[s.find(t):]`, if the text `t` occurs in `s`. -/
def findFrom (t : Str) : Str → Option Str
  | [] => if t = [] then some [] else none
  | c :: s => if t.isPrefixOf (c :: s) then some (c :: s) else findFrom t s

/-- The last component is what comes after the last dot. -/
theorem rpartition_append (head : Str) {last : Str} (h : 46 ∉ last) :
    rpartition (head ++ 46 :: last) = (head, last) := by
  have hrev : (head ++ 46 :: last).reverse = last.reverse ++ 46 :: head.reverse := by simp
  have hlast : ∀ c ∈ last.reverse, decide (c ≠ 46) = true := fun c hc =>
    decide_eq_true fun heq => h (heq ▸ List.mem_reverse.1 hc)
  rw [rpartition, hrev, List.dropWhile_append_of_pos hlast, List.takeWhile_append_of_pos hlast]
  simp

/-! ## Numbers in names -/

/-- An ASCII digit. -/
theorem digitVal_toNat {c : Char} (h : c.isDigit) : digitVal c.toNat = some (c.toNat - 48) := by
  simp only [Char.isDigit, Bool.and_eq_true, decide_eq_true_eq, ge_iff_le,
    UInt32.le_iff_toNat_le] at h
  have hfind : digitZeros.find? (fun z => z ≤ c.toNat ∧ c.toNat < z + 10) = some 48 := by
    have hdigit : 48 ≤ c.toNat ∧ c.toNat < 58 := ⟨by simpa using h.1, Nat.lt_succ_of_le h.2⟩
    exact List.find?_cons_of_pos (decide_eq_true hdigit)
  rw [digitVal, hfind, Option.map_some]

/-- A number in text is its digits. -/
theorem str_toString (k : Nat) : str (toString k) = (Nat.toDigits 10 k).map Char.toNat := by
  rw [str, Nat.toString_eq_repr, Nat.toList_repr]

theorem isSome_digitVal_of_mem {k c : Nat} (h : c ∈ str (toString k)) : (digitVal c).isSome := by
  rw [str_toString, List.mem_map] at h
  obtain ⟨d, hd, rfl⟩ := h
  rw [digitVal_toNat (Nat.isDigit_of_mem_toDigits (by decide) (by decide) hd)]
  rfl

theorem str_toString_ne_nil (k : Nat) : str (toString k) ≠ [] := by
  rw [str_toString, ne_eq, List.map_eq_nil_iff]
  exact Nat.toDigits_ne_nil

/-- A number is read back. -/
theorem intOf_toString (k : Nat) : intOf (str (toString k)) = k := by
  rw [str_toString, intOf, List.foldl_map]
  conv_rhs => rw [← Nat.ofDigitChars_ten_toDigits (n := k), Nat.ofDigitChars_eq_foldl]
  refine List.foldl_ext _ _ _ fun n c hc => ?_
  rw [digitVal_toNat (Nat.isDigit_of_mem_toDigits (by decide) (by decide) hc)]
  rfl

end FlashNext.Quant
