import FlashNext.Python.Value

/-!
# Text

The methods of strings that reading a text needs: white space, decimal digits of
every script, lines, and `int`.
-/

namespace FlashNext.Python

/-- The white space that `str.strip` removes. -/
def isSpace (c : Nat) : Bool :=
  (9 ≤ c && c ≤ 13) || (28 ≤ c && c ≤ 32) || c = 0x85 || c = 0xa0 || c = 0x1680 ||
    (0x2000 ≤ c && c ≤ 0x200a) || c = 0x2028 || c = 0x2029 || c = 0x202f || c = 0x205f ||
    c = 0x3000

/-- `str.strip()`. -/
def strip (s : Str) : Str := ((s.dropWhile isSpace).reverse.dropWhile isSpace).reverse

/-- The digit zero of each script: a decimal digit is one of the ten characters
    from it on. -/
def digitZeros : List Nat :=
  [0x30, 0x660, 0x6f0, 0x7c0, 0x966, 0x9e6, 0xa66, 0xae6, 0xb66, 0xbe6, 0xc66, 0xce6, 0xd66, 0xde6,
    0xe50, 0xed0, 0xf20, 0x1040, 0x1090, 0x17e0, 0x1810, 0x1946, 0x19d0, 0x1a80, 0x1a90, 0x1b50,
    0x1bb0, 0x1c40, 0x1c50, 0xa620, 0xa8d0, 0xa900, 0xa9d0, 0xa9f0, 0xaa50, 0xabf0, 0xff10, 0x104a0,
    0x10d30, 0x11066, 0x110f0, 0x11136, 0x111d0, 0x112f0, 0x11450, 0x114d0, 0x11650, 0x116c0,
    0x11730, 0x118e0, 0x11950, 0x11c50, 0x11d50, 0x11da0, 0x16a60, 0x16ac0, 0x16b50, 0x1d7ce,
    0x1d7d8, 0x1d7e2, 0x1d7ec, 0x1d7f6, 0x1e140, 0x1e2f0, 0x1e950, 0x1fbf0]

/-- The value of a decimal digit (`\d`). -/
def digitVal (c : Nat) : Option Nat :=
  (digitZeros.find? fun z => z ≤ c ∧ c < z + 10).map (c - ·)

/-- `int(s)`, for a string of digits. -/
def intOf (s : Str) : Nat := s.foldl (fun n c => 10 * n + (digitVal c).getD 0) 0

/-- `s.isdecimal()`. -/
def isDecimal (s : Str) : Bool := s ≠ [] && s.all fun c => (digitVal c).isSome

/-! ## Lines -/

/-- The characters that end a line. -/
def isLineBreak (c : Nat) : Bool :=
  (10 ≤ c && c ≤ 13) || (28 ≤ c && c ≤ 30) || c = 0x85 || c = 0x2028 || c = 0x2029

/-- The lines, the first of which starts with the characters of `line`, the last
    one first. -/
def splitlinesFrom (line : Str) : Str → List Str
  | [] => if line = [] then [] else [line.reverse]
  | 13 :: 10 :: s => line.reverse :: splitlinesFrom [] s
  | c :: s =>
    if isLineBreak c then line.reverse :: splitlinesFrom [] s else splitlinesFrom (c :: line) s

/-- `s.splitlines()`. -/
def splitlines (s : Str) : List Str := splitlinesFrom [] s

/-! ## Integers -/

/-- The white space that `int` allows around a number: of the ASCII characters,
    fewer than `strip` removes. -/
def isIntSpace (c : Nat) : Bool := (9 ≤ c && c ≤ 13) || c = 32 || (128 ≤ c && isSpace c)

/-- The number whose first digits make `n`: more digits, each of which may have an
    underscore before it. -/
def digitsFrom (n : Nat) : Str → Option Nat
  | [] => some n
  | 95 :: c :: s => (digitVal c).bind fun d => digitsFrom (10 * n + d) s
  | c :: s => (digitVal c).bind fun d => digitsFrom (10 * n + d) s

/-- A number without a sign. -/
def digits : Str → Option Nat
  | [] => none
  | c :: s => (digitVal c).bind fun d => digitsFrom d s

/-- `int(s)`. A string of more than 4300 digits is refused. -/
def int (s : Str) : Except Err Int :=
  let s := ((s.dropWhile isIntSpace).reverse.dropWhile isIntSpace).reverse
  let number : Option Int :=
    match s with
    | 45 :: s => (digits s).map fun n => -(n : Int)
    | 43 :: s => (digits s).map fun n => (n : Int)
    | s => (digits s).map fun n => (n : Int)
  match number with
  | some n =>
    if 4300 < s.countP fun c => (digitVal c).isSome then .error .valueError else .ok n
  | none => .error .valueError

end FlashNext.Python
