import Mathlib.Data.Rat.Floor
import Mathlib.Data.Int.Log
import Mathlib.Algebra.Order.Archimedean.Basic

/-!
# Python values

The values a JSON document can bring into a Python program, with the
operations of the language on them: truth, equality, the order `>`,
membership, indexing, iteration and `dict.update`. An operation that Python
refuses gives the exception it raises (`Err`).

* Strings are lists of code points (`Str`), lone surrogates included: a JSON
  document and an HTTP header can hold them, a Lean `String` cannot. A literal
  is coerced (`str`).
* Floats are the rationals that doubles denote, the infinities and the NaN
  (`Flt`); Python compares them with integers exactly.
* A dict is the list of its items in insertion order (`Dict`). Its keys are the
  hashable values (`Key`), where `1`, `1.0` and `True` are the same key, and where the
  NaN, which is one object in all documents, is a key too.
-/

namespace FlashNext.Python

/-- A string, as the list of its code points. -/
abbrev Str := List Nat

/-- The string of a literal. -/
def str (s : String) : Str := s.toList.map Char.toNat

instance : Coe String Str := ⟨str⟩

/-- Strings are equal when their code points are. -/
instance : LawfulBEq Str := inferInstance

/-- Different literals are different strings. -/
@[simp] theorem str_inj {a b : String} : str a = str b ↔ a = b := by
  refine ⟨fun h => ?_, fun h => h ▸ rfl⟩
  have hl : a.toList = b.toList := List.map_injective_iff.2 (fun _ _ => Char.toNat_inj.1) h
  exact String.toList_inj.1 hl

/-- The exceptions that the modelled code can raise. -/
inductive Err
  | typeError
  | valueError
  | keyError
  | indexError
  | attributeError
  | osError
  | recursionError
  | zeroDivisionError
  | overflowError
  | runtimeError
  deriving DecidableEq, Repr

/-! ## Numbers -/

/-- A float. -/
inductive Flt
  | nan
  | inf (neg : Bool)
  | fin (q : ℚ)
  deriving DecidableEq

/-- The order of floats; a NaN is below nothing and above nothing. -/
def Flt.lt : Flt → Flt → Bool
  | .fin p, .fin q => p < q
  | .inf true, .fin _ => true
  | .fin _, .inf false => true
  | .inf true, .inf false => true
  | _, _ => false

/-- The equality of floats; a NaN is not equal to itself. -/
def Flt.beq : Flt → Flt → Bool
  | .fin p, .fin q => p = q
  | .inf a, .inf b => a = b
  | _, _ => false

/-- Two floats that are equal, or one object: `json.loads` has one NaN. -/
def Flt.same : Flt → Flt → Bool
  | .nan, .nan => true
  | x, y => x.beq y

/-- The integer nearest to `q`, the even one when two are. -/
def roundHalfEven (q : ℚ) : Int :=
  let f := ⌊q⌋
  if q - f < 1 / 2 then f
  else if 1 / 2 < q - f then f + 1
  else if f % 2 = 0 then f else f + 1

/-- The double nearest to `q`: 53 significant bits, or a multiple of the least
    positive double `2 ^ (-1074)`. -/
def roundDouble (q : ℚ) : ℚ :=
  if q = 0 then 0
  else
    let e := max (Int.log 2 |q| - 52) (-1074)
    roundHalfEven (q / 2 ^ e) * 2 ^ e

@[simp] theorem roundDouble_one : roundDouble 1 = 1 := by
  simp [roundDouble]
  norm_num [roundHalfEven]

/-- Adding one to a float. -/
def Flt.succ : Flt → Flt
  | .fin q => .fin (roundDouble (q + 1))
  | x => x

/-- Adding one leaves the float `2 ^ 53` as it is. -/
theorem Flt.succ_two_pow : Flt.succ (.fin (2 ^ 53)) = .fin (2 ^ 53) := by
  have hlog : Int.log 2 |(2 ^ 53 + 1 : ℚ)| = 53 := by
    have hcast : |(2 ^ 53 + 1 : ℚ)| = ((2 ^ 53 + 1 : ℕ) : ℚ) := by norm_num
    have hlog : Nat.log 2 (2 ^ 53 + 1) = 53 :=
      Nat.log_eq_of_pow_le_of_lt_pow (by norm_num) (by norm_num)
    rw [hcast, Int.log_natCast, hlog]
    rfl
  have hround : roundDouble (2 ^ 53 + 1) = 2 ^ 53 := by
    have hhalf : roundHalfEven ((2 ^ 53 + 1 : ℚ) / 2 ^ (1 : ℤ)) = 2 ^ 52 := by
      have hfloor : ⌊(2 ^ 53 + 1 : ℚ) / 2 ^ (1 : ℤ)⌋ = 2 ^ 52 := by norm_num [Int.floor_eq_iff]
      rw [roundHalfEven, hfloor]
      norm_num
    simp only [roundDouble, hlog]
    rw [if_neg (by norm_num), show max ((53 : ℤ) - 52) (-1074) = 1 by decide, hhalf]
    norm_num
  rw [Flt.succ, hround]

/-! ## Values -/

/-- A hashable value, as a key of a dict. -/
inductive Key
  | none
  | bool (b : Bool)
  | int (n : Int)
  | float (x : Flt)
  | str (s : Str)
  deriving DecidableEq

/-- A value read from a JSON document, or built from such values. -/
inductive Val
  | none
  | bool (b : Bool)
  | int (n : Int)
  | float (x : Flt)
  | str (s : Str)
  | list (xs : List Val)
  | dict (kvs : List (Key × Val))

/-- The items of a dict, in insertion order. -/
abbrev Dict := List (Key × Val)

/-- The number a numeric key is. -/
def Key.num : Key → Option Flt
  | .bool b => some (.fin (if b then 1 else 0))
  | .int n => some (.fin n)
  | .float x => some x
  | _ => Option.none

/-- Two keys are the same key of a dict when they are one object, or when Python finds
    them equal. -/
def Key.same : Key → Key → Bool
  | .none, .none => true
  | .str a, .str b => a = b
  | a, b =>
    match a.num, b.num with
    | some x, some y => x.same y
    | _, _ => false

@[simp] theorem Key.same_str {a b : Str} : Key.same (.str a) (.str b) = decide (a = b) := rfl

theorem Flt.same_comm (x y : Flt) : x.same y = y.same x := by
  cases x <;> cases y <;> simp [Flt.same, Flt.beq, eq_comm]

theorem Flt.same_trans {x y z : Flt} (h : x.same y) (h' : y.same z) : x.same z := by
  cases x <;> cases y <;> cases z <;> simp_all [Flt.same, Flt.beq]

theorem Key.same_comm (a b : Key) : a.same b = b.same a := by
  cases a <;> cases b <;> simp [Key.same, Key.num, Flt.same_comm, eq_comm]

theorem Key.same_trans {a b c : Key} (h : a.same b) (h' : b.same c) : a.same c := by
  cases a <;> cases b <;> cases c <;> simp_all [Key.same, Key.num] <;>
    exact Flt.same_trans h h'

/-- A key as a value, as the iteration over a dict gives it. -/
def Key.toVal : Key → Val
  | .none => .none
  | .bool b => .bool b
  | .int n => .int n
  | .float x => .float x
  | .str s => .str s

namespace Val

/-- A value as a key: lists and dicts are not hashable. -/
def toKey : Val → Except Err Key
  | .none => .ok .none
  | .bool b => .ok (.bool b)
  | .int n => .ok (.int n)
  | .float x => .ok (.float x)
  | .str s => .ok (.str s)
  | .list _ | .dict _ => .error .typeError

/-- The number a numeric value is; `True` and `False` are numbers. -/
def num : Val → Option Flt
  | .bool b => some (.fin (if b then 1 else 0))
  | .int n => some (.fin n)
  | .float x => some x
  | _ => Option.none

/-- The truth of a value, as `if` and `not` take it. -/
def truthy : Val → Bool
  | .none => false
  | .bool b => b
  | .int n => n ≠ 0
  | .float x => x ≠ .fin 0
  | .str s => s ≠ []
  | .list xs => !xs.isEmpty
  | .dict kvs => !kvs.isEmpty

/-- `v + 1`, for the numbers. -/
def addOne : Val → Except Err Val
  | .bool b => .ok (.int (if b then 2 else 1))
  | .int n => .ok (.int (n + 1))
  | .float x => .ok (.float x.succ)
  | _ => .error .typeError

end Val

/-! ## Dicts -/

namespace Dict

/-- `d.get(k)`, for a string key. -/
def get (d : Dict) (k : Str) : Option Val := (d.find? (·.1 = .str k)).map (·.2)

/-- `d[k] = v`: an existing item keeps its place. -/
def insert : Dict → Key → Val → Dict
  | [], k, v => [(k, v)]
  | (k', v') :: d, k, v => if k'.same k then (k', v) :: d else (k', v') :: insert d k v

/-- The value of the item whose key is the same as `k`. -/
def find (d : List (Key × α)) (k : Key) : Option α := (d.find? (·.1.same k)).map (·.2)

@[simp] theorem get_nil (k : Str) : get [] k = none := rfl

theorem get_cons (k' : Key) (v : Val) (d : Dict) (k : Str) :
    get ((k', v) :: d) k = if k' = .str k then some v else get d k := by
  simp only [get, List.find?_cons]
  split <;> simp_all

/-- A string key is the same as no other key. -/
theorem same_str_iff (k' : Key) (k : Str) : k'.same (.str k) = true ↔ k' = .str k := by
  cases k' <;> simp [Key.same, Key.num]

@[simp] theorem get_insert_self (d : Dict) (k : Str) (v : Val) :
    get (insert d (.str k) v) k = some v := by
  induction d with
  | nil => simp [insert, get_cons]
  | cons kv d ih =>
    obtain ⟨k', v'⟩ := kv
    by_cases h : k' = .str k
    · simp [insert, h, get_cons]
    · have : k'.same (.str k) = false := by
        rw [← Bool.not_eq_true, same_str_iff]; exact h
      simp [insert, this, get_cons, h, ih]

theorem get_insert_of_ne (d : Dict) {k k' : Str} (v : Val) (h : k' ≠ k) :
    get (insert d (.str k) v) k' = get d k' := by
  induction d with
  | nil => simp [insert, get_cons, Ne.symm h]
  | cons kv d ih =>
    obtain ⟨j, w⟩ := kv
    by_cases hj : j = .str k
    · simp [insert, hj, get_cons, Ne.symm h]
    · have : j.same (.str k) = false := by
        rw [← Bool.not_eq_true, same_str_iff]; exact hj
      simp [insert, this, get_cons, ih]

/-- After `d[k] = v`, the keys that are the same as `k` have the value `v`. -/
theorem find_insert (d : Dict) (k j : Key) (v : Val) :
    find (insert d k v) j = if k.same j then some v else find d j := by
  induction d with
  | nil => simp only [insert, find, List.find?_cons]; split <;> simp_all
  | cons kv d ih =>
    obtain ⟨k', v'⟩ := kv
    rw [insert]
    by_cases hk : k'.same k
    · have hj : k'.same j = k.same j := by
        rw [Bool.eq_iff_iff]
        exact ⟨fun h => Key.same_trans (Key.same_comm k' k ▸ hk) h, Key.same_trans hk⟩
      simp only [hk, if_true, find, List.find?_cons, hj]
      split <;> simp_all
    · rw [if_neg hk]
      simp only [find, List.find?_cons] at ih ⊢
      by_cases hj : k'.same j
      · have : k.same j = false := by
          rw [← Bool.not_eq_true]
          exact fun h => hk (Key.same_trans hj (Key.same_comm k j ▸ h))
        simp [hj, this]
      · simpa [hj] using ih

end Dict

end FlashNext.Python
