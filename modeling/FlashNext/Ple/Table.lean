import FlashNext.Returns
import FlashNext.Safetensors

/-!
# The n-gram table on disk

`PLEMmapTable` of `ple_mmap.py`: its constructor, which finds the row shards of
a table in a checkpoint and checks their headers, and the table it makes.

* `Table.Accepted` says what the constructor has checked (`init_accepted`);
* `Table.row` is what the table stands for: the shards one after the other, in
  the order of their numbers.
-/

namespace FlashNext.Ple

open Python Safetensors

/-- `_DTYPE_BYTES`. -/
def dtypeBytes (dtype : Str) : Option Nat :=
  if dtype = str "F8_E4M3" then some 1
  else if dtype = str "F8_E5M2" then some 1
  else if dtype = str "BF16" then some 2
  else if dtype = str "F16" then some 2
  else if dtype = str "F32" then some 4
  else none

/-- The prefix of the pattern of the shards' names, up to their number:
    `(?:^|\.)layers\.<layer>\.ple\..*ngram_embedding\.shard_`. -/
def shardPrefix (layer : Nat) (s : Str) : Bool :=
  match stripSuffix? s "ngram_embedding.shard_" with
  | none => false
  | some rest =>
    let start := str "layers." ++ str (toString layer) ++ str ".ple."
    (List.range (rest.length + 1)).any fun p =>
      (p = 0 || rest[p - 1]? = some 46) && start.isPrefixOf (rest.drop p) &&
        !(rest.drop (p + start.length)).contains 10

/-- A row shard: its file, the position of its first row, and its shape. -/
structure Shard where
  file : File
  /-- `base + begin`. -/
  offset : Nat
  rows : Nat
  rowBytes : Nat
  dtype : Str

/-- One tensor of a header: a new shard, if it is one. -/
def addShard (layer : Nat) (file : File) (shards : List (Nat × Shard)) (entry : Str × Meta) :
    Except Err (List (Nat × Shard)) :=
  match shardNumber (shardPrefix layer) entry.1 with
  | none => .ok shards
  | some shard =>
    match entry.2.shape, entry.2.offsets, dtypeBytes entry.2.dtype with
    | [rows, width], [first, last], some size =>
      if first + rows * (width * size) ≠ last then .error .valueError
      else if (shards.map (·.1)).contains shard then .error .valueError
      else .ok (shards ++ [(shard, ⟨file, file.base + first, rows, width * size, entry.2.dtype⟩)])
    | [_, _], [_, _], none => .error .keyError
    | _, _, _ => .error .valueError

/-- The shards of a checkpoint, by their numbers. -/
def findShards (layer : Nat) (dir : Checkpoint) : Except Err (List (Nat × Shard)) :=
  (dir.selected (fun name => (shardNumber (shardPrefix layer) name).isSome) true).foldlM
    (fun shards name => do
      let file ← dir.open name
      file.header.foldlM (addShard layer file) shards) []

/-- A table: its shards in the order of their numbers, at least one. -/
structure Table where
  first : Shard
  rest : List Shard
  /-- `QWEN4EXP_PLE_MMAP_CHUNK`: the rows that one task of the pool reads. -/
  chunkRows : Int

namespace Table

/-- The shards. -/
def shards (t : Table) : List Shard := t.first :: t.rest

/-- `row_bytes`. -/
def rowBytes (t : Table) : Nat := t.first.rowBytes

/-- `shard_rows`. -/
def shardRows (t : Table) : Nat := t.first.rows

/-- `rows_total`. -/
def rowsTotal (t : Table) : Nat := (t.shards.map (·.rows)).sum

end Table

/-- `PLEMmapTable(model_dir, layer_idx)`. -/
def Table.init (layer : Nat) (chunkRows : Int) (dir : Checkpoint) : Except Err Table := do
  let found ← findShards layer dir
  -- `sorted(shards) == list(range(len(shards)))`, in the order of the numbers.
  match (List.range found.length).mapM fun i => (found.find? (·.1 = i)).map (·.2) with
  | none => throw .valueError
  | some [] => throw .valueError
  | some (first :: rest) =>
    if rest.any fun s => s.rowBytes ≠ first.rowBytes ∨ s.dtype ≠ first.dtype then throw .valueError
    else if ((first :: rest).dropLast).any fun s => s.rows ≠ first.rows then throw .valueError
    else return ⟨first, rest, chunkRows⟩

/-! ## What the table stands for -/

/-- The row `r` of a shard. -/
def Shard.row (s : Shard) (r : Nat) : List UInt8 :=
  slice s.file.bytes (s.offset + r * s.rowBytes) s.rowBytes

/-- The row `id` of some shards, one after the other. -/
def concatRow : List Shard → Nat → List UInt8
  | [], _ => []
  | s :: shards, id => if id < s.rows then s.row id else concatRow shards (id - s.rows)

/-- The row `id` of the table. -/
def Table.row (t : Table) (id : Nat) : List UInt8 := concatRow t.shards id

/-- What the constructor has checked: every shard has the row size of the first
    one, and every shard but the last one has its number of rows. -/
structure Table.Accepted (t : Table) : Prop where
  rowBytes : ∀ s ∈ t.shards, s.rowBytes = t.rowBytes
  rows : ∀ s ∈ t.shards.dropLast, s.rows = t.shardRows

/-- The tables that the constructor makes are accepted ones. -/
theorem Table.init_accepted {layer : Nat} {chunkRows : Int} {dir : Checkpoint} {t : Table}
    (h : Table.init layer chunkRows dir = .ok t) : t.Accepted ∧ t.chunkRows = chunkRows := by
  obtain ⟨found, -, h⟩ := bind_eq_ok.1 h
  split at h
  · cases h
  · cases h
  · rename_i first rest _
    split_ifs at h with hb hr
    obtain rfl := Except.ok.inj h
    simp only [Bool.not_eq_true, List.any_eq_false, decide_eq_true_eq, not_or, not_not] at hb hr
    exact ⟨⟨List.forall_mem_cons.2 ⟨rfl, fun s hs => (hb s hs).1⟩, hr⟩, rfl⟩

/-! ## A sample -/

/-- A file with a table of three rows of two bytes, in two shards, and the bytes
    `7` and `8` of another tensor after it. -/
def threeRowsFile : File where
  name := "a.safetensors"
  header := [
    (str "layers.0.ple.ngram_embedding.shard_0.weight", ⟨"F8_E4M3", [2, 2], [0, 4]⟩),
    (str "layers.0.ple.ngram_embedding.shard_1.weight", ⟨"F8_E4M3", [1, 2], [4, 6]⟩),
    (str "norm", ⟨"BF16", [1], [6, 8]⟩)]
  base := 2
  bytes := [0, 0, 1, 2, 3, 4, 5, 6, 7, 8]

/-- Its table. -/
def threeRows : Table where
  first := ⟨threeRowsFile, 2, 2, 2, "F8_E4M3"⟩
  rest := [⟨threeRowsFile, 6, 1, 2, "F8_E4M3"⟩]
  chunkRows := 8

theorem threeRows_init : Table.init 0 8 ⟨none, [threeRowsFile]⟩ = .ok threeRows := rfl

end FlashNext.Ple
