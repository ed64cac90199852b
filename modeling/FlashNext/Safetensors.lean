import Mathlib.Data.List.Sort
import FlashNext.Python.Text

/-!
# Safetensors checkpoints

A checkpoint directory, as the loaders of the n-gram table see it: its
safetensors files, each with a header that says where the bytes of every tensor
are, and an index file that says which tensor is in which file.

* A header is given parsed (`json.loads` of the bytes of its length), with the
  position of the first byte after it; its entry `__metadata__` is left out.
* The shape and the offsets of a tensor are lists of natural numbers, as the
  format says; a loader fails on lists of another length than it unpacks.
* The row shards of a table are found by the name of their tensor
  (`shardNumber`): a prefix, the number of the shard, and `.weight`.
-/

namespace FlashNext.Safetensors

open Python

/-- What a header says of a tensor. -/
structure Meta where
  dtype : Str
  shape : List Nat
  /-- `data_offsets`: the first byte and the end, after the header. -/
  offsets : List Nat

/-- A safetensors file. -/
structure File where
  name : Str
  header : List (Str × Meta)
  /-- The position of the first byte after the header. -/
  base : Nat
  bytes : List UInt8

/-- A checkpoint directory. -/
structure Checkpoint where
  /-- The `weight_map` of the index file, if there is one. -/
  index : Option (List (Str × Str))
  files : List File

/-- Reading `n` bytes of a file at an offset: fewer at its end. -/
def slice (bytes : List UInt8) (offset n : Nat) : List UInt8 := (bytes.drop offset).take n

theorem length_slice (bytes : List UInt8) (offset n : Nat) :
    (slice bytes offset n).length = min n (bytes.length - offset) := by
  simp [slice]

/-- A read is complete when it ends before the end of the file. -/
theorem length_slice_eq_iff {bytes : List UInt8} {offset n : Nat} (hn : 0 < n) :
    (slice bytes offset n).length = n ↔ offset + n ≤ bytes.length := by
  rw [length_slice]
  omega

/-- Two reads, one behind the other. -/
theorem slice_add (bytes : List UInt8) (offset m n : Nat) :
    slice bytes offset (m + n) = slice bytes offset m ++ slice bytes (offset + m) n := by
  rw [slice, List.take_add, List.drop_drop]
  rfl

/-! ## The names of tensors -/

/-- `s` without the suffix, if it ends with it. -/
def stripSuffix? (s suffix : Str) : Option Str :=
  if suffix.isSuffixOf s then some (s.take (s.length - suffix.length)) else none

/-- `re.search(prefix + r"(\d+)\.weight$", name)`: the number of the shard, if
    what comes before it matches `prefix` at its end. The `$` matches before a
    newline at the end, too. -/
def shardNumber (matchesPrefix : Str → Bool) (name : Str) : Option Nat := do
  let name := if name.getLast? = some 10 then name.dropLast else name
  let rest ← stripSuffix? name ".weight"
  let digits := (rest.reverse.takeWhile fun c => (digitVal c).isSome).reverse
  if digits ≠ [] ∧ matchesPrefix (rest.take (rest.length - digits.length)) then some (intOf digits)
  else none

/-- `sorted` on a set of names: their code points are compared. -/
def sortedNames (names : List Str) : List Str :=
  names.dedup.insertionSort fun a b => b.lex a (· < ·) = false

/-- The files that are looked at: those that the index has for the tensors that
    `wanted` selects, or all safetensors files if there is no index, but for the
    hidden ones if they are not `listed`. -/
def Checkpoint.selected (dir : Checkpoint) (wanted : Str → Bool) (listed : Bool) : List Str :=
  match dir.index with
  | some weightMap => sortedNames ((weightMap.filter fun kv => wanted kv.1).map (·.2))
  | none => sortedNames ((dir.files.map (·.name)).filter fun name =>
      (str ".safetensors").isSuffixOf name && (listed || name.head? ≠ some 46))

/-- Opening a file of the directory. -/
def Checkpoint.open (dir : Checkpoint) (name : Str) : Except Err File :=
  match dir.files.find? fun f => f.name = name with
  | some f => .ok f
  | none => .error .osError

end FlashNext.Safetensors
