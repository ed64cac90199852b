import FlashNext.Returns
import FlashNext.Safetensors

/-!
# The legacy table

`_find_shards` and `_setup_table` of `vllm_ple_mmap.py`, which find the row shards
of the n-gram table in a checkpoint and map them into memory (`MmapPleTable`).

The shards are collected in a dict by their number: the last listing of a number
replaces the others (`collected_findShards`). Every shard that is in the dict in
the end must have the number of rows that its place in the vocabulary asks for; no
check looks at the set of their numbers, and the width is checked for the last
tensor only.
-/

namespace FlashNext.Legacy

open Python Safetensors

/-- `_itemsize`. -/
def itemsize (dtype : Str) : Except Err Nat :=
  if dtype = str "F8_E4M3" then .ok 1
  else if dtype = str "F8_E5M2" then .ok 1
  else if dtype = str "U8" then .ok 1
  else if dtype = str "I8" then .ok 1
  else if dtype = str "BF16" then .ok 2
  else if dtype = str "F16" then .ok 2
  else if dtype = str "F32" then .ok 4
  else .error .keyError

/-- `_FP8_DTYPES`. -/
def fp8Dtypes : List Str := [str "F8_E4M3", str "F8_E5M2"]

/-- `_TABLE_DTYPES`. -/
def tableDtypes : List Str := fp8Dtypes ++ [str "BF16", str "F16"]

/-- A shard tensor in a header: its file, the position of its first row, and its
    shape. -/
structure Listing where
  file : File
  /-- `data_start + start`. -/
  offset : Nat
  rows : Nat
  cols : Nat
  dtype : Str

/-- The entry of the scale: its file, position, size and dtype. -/
structure Scale where
  file : File
  offset : Nat
  nbytes : Nat
  dtype : Str

/-- What the loop over the headers has collected. -/
structure Found where
  shards : List (Nat × Listing)
  dtype : Option Str
  /-- The width of the last shard tensor. -/
  cols : Nat
  scale : Option Scale

/-- The prefix of the pattern of the shards' names, up to their number. -/
def shardPrefix (layer : Nat) (s : Str) : Bool :=
  (str "layers." ++ str (toString layer) ++
    str ".ple.ple_embedding.ngram_embedding.shard_").isSuffixOf s

/-- The name is that of the scale. -/
def isScale (layer : Nat) (name : Str) : Bool :=
  (str "layers." ++ str (toString layer) ++
    str ".ple.ple_embedding.ngram_embedding.weight_scale").isSuffixOf
      (if name.getLast? = some 10 then name.dropLast else name)

/-- `shards[i] = listing`. -/
def insertShard : List (Nat × Listing) → Nat → Listing → List (Nat × Listing)
  | [], i, l => [(i, l)]
  | (j, l') :: shards, i, l => if j = i then (j, l) :: shards else (j, l') :: insertShard shards i l

/-- `shards.get(i)`. -/
def lookupShard (shards : List (Nat × Listing)) (i : Nat) : Option Listing :=
  (shards.find? (·.1 = i)).map (·.2)

/-- One tensor of a header. -/
def addEntry (layer : Nat) (file : File) (found : Found) (entry : Str × Meta) : Except Err Found :=
  match shardNumber (shardPrefix layer) entry.1 with
  | some i =>
    match entry.2.offsets, entry.2.shape with
    | [start, last], [rows, cols] =>
      if found.dtype.any (· ≠ entry.2.dtype) then .error .valueError
      else
        match itemsize entry.2.dtype with
        | .error e => .error e
        | .ok size =>
          if start + rows * cols * size ≠ last then .error .valueError
          else .ok { found with
            shards := insertShard found.shards i
              ⟨file, file.base + start, rows, cols, entry.2.dtype⟩
            dtype := some entry.2.dtype
            cols := cols }
    | _, _ => .error .valueError
  | none =>
    if isScale layer entry.1 then
      match entry.2.offsets with
      | [start, last] =>
        .ok { found with scale := some ⟨file, file.base + start, last - start, entry.2.dtype⟩ }
      | _ => .error .valueError
    else .ok found

/-- The files that `_find_shards` reads. -/
def selectedFiles (layer : Nat) (dir : Checkpoint) : List Str :=
  dir.selected
    (fun name => (shardNumber (shardPrefix layer) name).isSome || isScale layer name) false

/-- `_find_shards`. -/
def findShards (layer : Nat) (dir : Checkpoint) : Except Err Found :=
  (selectedFiles layer dir).foldlM (fun found name => do
    let file ← dir.open name
    file.header.foldlM (addEntry layer file) found) ⟨[], none, 0, none⟩

/-! ## The setup -/

/-- What `_setup_table` takes from its module and from the environment. -/
structure Setup where
  layer : Nat
  headDim : Nat
  /-- `split_ngram_parts`. -/
  parts : Nat
  /-- `ngram_embedding.org_vocab_size`. -/
  vocab : Nat
  /-- `_offload_weight_scale` is there: the weights had a scale. -/
  hasScale : Bool
  /-- `VLLM_PLE_MMAP_CHUNK`. -/
  chunk : Int
  /-- `VLLM_PLE_MMAP_FAST_ROWS`. -/
  fastRows : Int

/-- A shard that is mapped into memory. -/
structure Memmap where
  file : File
  offset : Nat
  rows : Nat

/-- `MmapPleTable`. -/
structure MmapPleTable where
  shardSize : Nat
  rowBytes : Nat
  /-- The shards by their number, up to the highest one. -/
  mm : List (Option Memmap)
  /-- At least one row for each task. -/
  chunk : Nat
  fastRows : Int

/-- `_read_scale`, up to the bytes that it takes the number from. -/
def readScale (s : Scale) : Except Err (List UInt8) :=
  let raw := slice s.file.bytes s.offset s.nbytes
  let take (n : Nat) := if n ≤ raw.length then .ok (raw.take n) else .error .valueError
  if s.dtype = str "F32" then take 4
  else if s.dtype = str "BF16" then take 2
  else if s.dtype = str "F16" then take 2
  else .error .valueError

/-- `math.ceil(vocab / parts)`: the quotient is a double. -/
def shardSize (vocab parts : Nat) : Except Err Nat :=
  if parts = 0 then .error .zeroDivisionError
  else
    let q := roundDouble ((vocab : ℚ) / parts)
    if 2 ^ 1024 ≤ q then .error .overflowError else .ok ⌈q⌉.toNat

/-- The rows that the shard `i` must have. -/
def expectedRows (vocab size i : Nat) : Nat := min size (vocab - i * size)

/-- `np.memmap(path, mode="r", offset=offset, shape=(rows, row_bytes))`: the file
    must be long enough. -/
def memmap (rowBytes : Nat) (l : Listing) : Except Err Memmap :=
  if l.offset + l.rows * rowBytes ≤ l.file.bytes.length then .ok ⟨l.file, l.offset, l.rows⟩
  else .error .valueError

/-- `MmapPleTable(shards, …)`. -/
def MmapPleTable.init (shards : List (Nat × Listing)) (size rowBytes : Nat) (chunk fastRows : Int) :
    Except Err MmapPleTable :=
  if shards = [] then .error .valueError
  else do
    shards.forM fun s => do discard (memmap rowBytes s.2)
    return {
      shardSize := size
      rowBytes := rowBytes
      mm := (List.range ((shards.map (·.1)).max?.getD 0 + 1)).map fun i =>
        (lookupShard shards i).map fun l => ⟨l.file, l.offset, l.rows⟩
      chunk := (max 1 chunk).toNat
      fastRows := fastRows }

/-- The checks of `_setup_table` on what `_find_shards` has found, and the scale. -/
def checkFound (self : Setup) (found : Found) : Except Err Unit :=
  let dtype := found.dtype.getD []
  if found.shards = [] then .error .runtimeError
  else if found.cols ≠ self.headDim then .error .runtimeError
  else if dtype ∉ tableDtypes then .error .runtimeError
  else if dtype ∈ fp8Dtypes ∧ !self.hasScale then
    match found.scale with
    | none => .error .runtimeError
    | some s => discard (readScale s)
  else .ok ()

/-- The rest of `_setup_table`: the check of the rows, and the table. -/
def mapShards (self : Setup) (found : Found) : Except Err MmapPleTable := do
  let size ← shardSize self.vocab self.parts
  if found.shards.any fun s => s.2.rows ≠ expectedRows self.vocab size s.1 then throw .runtimeError
  MmapPleTable.init found.shards size (found.cols * (← itemsize (found.dtype.getD [])))
    self.chunk self.fastRows

/-- `_setup_table`, in the directory of the table. -/
def setupTable (self : Setup) (dir : Checkpoint) : Except Err MmapPleTable := do
  let found ← findShards self.layer dir
  checkFound self found
  mapShards self found

/-! ## The shard tensors of a checkpoint -/

/-- The shard tensor that an entry of a header is, if it is one. -/
def listing? (layer : Nat) (file : File) (entry : Str × Meta) : Option (Nat × Listing) :=
  match shardNumber (shardPrefix layer) entry.1, entry.2.offsets, entry.2.shape with
  | some i, [start, _], [rows, cols] =>
    some (i, ⟨file, file.base + start, rows, cols, entry.2.dtype⟩)
  | _, _, _ => none

/-- The shard tensors of a file of the checkpoint. -/
def fileListings (layer : Nat) (dir : Checkpoint) (name : Str) : List (Nat × Listing) :=
  match dir.open name with
  | .ok file => file.header.filterMap (listing? layer file)
  | .error _ => []

/-- The shard tensors of the files that are read, in the order in which they are. -/
def listings (layer : Nat) (dir : Checkpoint) : List (Nat × Listing) :=
  (selectedFiles layer dir).flatMap (fileListings layer dir)

/-- The last of the listings of the shard `i`. -/
def lastListing (ls : List (Nat × Listing)) (i : Nat) : Option Listing :=
  ((ls.filter (·.1 = i)).getLast?).map (·.2)

/-- What has been collected after the shard tensors `ls`: the last listing of
    each number, and one dtype for all. -/
structure Collected (found : Found) (ls : List (Nat × Listing)) : Prop where
  lookup : ∀ i, lookupShard found.shards i = lastListing ls i
  dtype : ∀ p ∈ ls, found.dtype = some p.2.dtype

theorem lookup_insertShard (shards : List (Nat × Listing)) (i j : Nat) (l : Listing) :
    lookupShard (insertShard shards i l) j = if i = j then some l else lookupShard shards j := by
  induction shards with
  | nil => by_cases h : i = j <;> simp [insertShard, lookupShard, h]
  | cons s shards ih =>
    obtain ⟨k, l'⟩ := s
    by_cases hk : k = i
    · -- The number is there: its listing is replaced.
      subst hk
      by_cases h : k = j <;> simp [insertShard, lookupShard, h]
    · rw [insertShard, if_neg hk]
      by_cases hkj : k = j
      · subst hkj
        simp [lookupShard, Ne.symm hk]
      · simpa [lookupShard, hkj] using ih

theorem lastListing_append_singleton (ls : List (Nat × Listing)) (p : Nat × Listing) (i : Nat) :
    lastListing (ls ++ [p]) i = if p.1 = i then some p.2 else lastListing ls i := by
  by_cases h : p.1 = i <;> simp [lastListing, List.filter_append, h]

/-- An entry of a header is collected, if it is a shard tensor. -/
theorem Collected.addEntry {layer : Nat} {file : File} {found found' : Found}
    {ls : List (Nat × Listing)} (h : Collected found ls) {entry : Str × Meta}
    (he : addEntry layer file found entry = .ok found') :
    Collected found' (ls ++ (listing? layer file entry).toList) := by
  unfold Legacy.addEntry at he
  unfold listing?
  split at he
  · rename_i i hi
    split at he
    · rename_i start last rows cols ho hs
      split_ifs at he with hd
      split at he
      · cases he
      · split_ifs at he
        obtain rfl := Except.ok.inj he
        simp only [hi, ho, hs, Option.toList_some]
        refine ⟨fun j => ?_, fun p hp => ?_⟩
        · rw [lookup_insertShard, lastListing_append_singleton, h.lookup]
        · -- The dtype of the tensors before is the same.
          rcases List.mem_append.1 hp with hp | hp
          · have heq : p.2.dtype = entry.2.dtype := by simpa [h.dtype p hp] using hd
            rw [heq]
          · rw [List.mem_singleton.1 hp]
    · cases he
  · rename_i hi
    simp only [hi, Option.toList_none, List.append_nil]
    split_ifs at he
    · split at he
      · obtain rfl := Except.ok.inj he
        exact ⟨h.lookup, h.dtype⟩
      · cases he
    · obtain rfl := Except.ok.inj he
      exact h

theorem Collected.addEntries {layer : Nat} {file : File} {found found' : Found}
    {ls : List (Nat × Listing)} (h : Collected found ls) {entries : List (Str × Meta)}
    (he : entries.foldlM (Legacy.addEntry layer file) found = .ok found') :
    Collected found' (ls ++ entries.filterMap (listing? layer file)) := by
  induction entries generalizing found ls with
  | nil =>
    obtain rfl := Except.ok.inj he
    simpa using h
  | cons entry entries ih =>
    rw [List.foldlM_cons] at he
    obtain ⟨found₁, hone, he⟩ := bind_eq_ok.1 he
    have := ih (h.addEntry hone) he
    rw [List.append_assoc] at this
    cases hl : listing? layer file entry <;> simpa [List.filterMap_cons, hl] using this

theorem Collected.addFiles {layer : Nat} {dir : Checkpoint} {found found' : Found}
    {ls : List (Nat × Listing)} (h : Collected found ls) {names : List Str}
    (he : names.foldlM (fun found name => do
      let file ← dir.open name
      file.header.foldlM (Legacy.addEntry layer file) found) found = .ok found') :
    Collected found' (ls ++ names.flatMap (fileListings layer dir)) := by
  induction names generalizing found ls with
  | nil =>
    obtain rfl := Except.ok.inj he
    simpa using h
  | cons name names ih =>
    rw [List.foldlM_cons] at he
    obtain ⟨found₁, hone, he⟩ := bind_eq_ok.1 he
    obtain ⟨file, hopen, hone⟩ := bind_eq_ok.1 hone
    have := ih (h.addEntries hone) he
    rwa [List.append_assoc, show file.header.filterMap (listing? layer file) =
      fileListings layer dir name by rw [fileListings, hopen], ← List.flatMap_cons] at this

/-- What `_find_shards` collects from a checkpoint. -/
theorem collected_findShards {layer : Nat} {dir : Checkpoint} {found : Found}
    (h : findShards layer dir = .ok found) : Collected found (listings layer dir) := by
  have hempty : Collected ⟨[], none, 0, none⟩ [] := ⟨fun _ => rfl, by simp⟩
  have := hempty.addFiles h
  rwa [List.nil_append] at this

/-! ## What a table that loads has -/

/-- The rows of bytes of a shard tensor. -/
def Listing.rowBytes (l : Listing) : Nat := l.cols * (itemsize l.dtype).toOption.getD 0

/-- A table that loads: the last listing of every number is mapped, and has the
    rows that its place asks for, and the rows of the table have the width of the
    module. -/
structure Loaded (ple : Setup) (ls : List (Nat × Listing)) (t : MmapPleTable) : Prop where
  size : shardSize ple.vocab ple.parts = .ok t.shardSize
  chunk : 0 < t.chunk
  rowBytes : ∀ p ∈ ls, ∃ size, 0 < size ∧ t.rowBytes = ple.headDim * size ∧
    p.2.rowBytes = p.2.cols * size
  mm : ∀ i, t.mm[i]?.join = (lastListing ls i).map fun l => ⟨l.file, l.offset, l.rows⟩
  rows : ∀ i l, lastListing ls i = some l → l.rows = expectedRows ple.vocab t.shardSize i ∧
    l.offset + l.rows * t.rowBytes ≤ l.file.bytes.length

theorem mem_of_lookupShard {shards : List (Nat × Listing)} {i : Nat} {l : Listing}
    (h : lookupShard shards i = some l) : (i, l) ∈ shards := by
  obtain ⟨⟨j, l'⟩, hs, rfl⟩ := Option.map_eq_some_iff.1 h
  obtain rfl : j = i := by simpa using List.find?_some hs
  exact List.mem_of_find?_eq_some hs

/-- When every shard is mapped, each is within its file. -/
theorem le_length_of_forM {rowBytes : Nat} {shards : List (Nat × Listing)}
    (h : (shards.forM fun s => do discard (memmap rowBytes s.2)) = .ok ()) :
    ∀ s ∈ shards, s.2.offset + s.2.rows * rowBytes ≤ s.2.file.bytes.length := by
  induction shards with
  | nil => simp
  | cons s shards ih =>
    by_cases hs : s.2.offset + s.2.rows * rowBytes ≤ s.2.file.bytes.length
    · refine List.forall_mem_cons.2 ⟨hs, ih ?_⟩
      simpa [memmap, hs, discard, Functor.mapConst, Except.map, bind, Except.bind] using h
    · simp [memmap, hs, discard, Functor.mapConst, Except.map, bind, Except.bind] at h

/-- The shards that are mapped are those that have been found, each within its
    file. -/
theorem MmapPleTable.of_init {shards : List (Nat × Listing)} {size rowBytes : Nat}
    {chunk fastRows : Int} {t : MmapPleTable}
    (h : MmapPleTable.init shards size rowBytes chunk fastRows = .ok t) :
    t.shardSize = size ∧ t.rowBytes = rowBytes ∧ 0 < t.chunk ∧
    (∀ i, t.mm[i]?.join = (lookupShard shards i).map fun l => ⟨l.file, l.offset, l.rows⟩) ∧
    ∀ s ∈ shards, s.2.offset + s.2.rows * rowBytes ≤ s.2.file.bytes.length := by
  unfold MmapPleTable.init at h
  split_ifs at h with hne
  obtain ⟨_, hf, h⟩ := bind_eq_ok.1 h
  obtain rfl := Except.ok.inj h
  refine ⟨rfl, rfl, by simp only; omega, fun i => ?_, le_length_of_forM hf⟩
  by_cases hi : i < (shards.map (·.1)).max?.getD 0 + 1
  · simp [List.getElem?_range hi]
  · -- A number past the highest one is that of no shard.
    have hnone : lookupShard shards i = none := by
      by_contra hl
      obtain ⟨l, hl⟩ := Option.ne_none_iff_exists'.1 hl
      have hmem := List.mem_map_of_mem (f := (·.1)) (mem_of_lookupShard hl)
      have := List.le_max?_getD_of_mem (k := 0) hmem
      omega
    rw [hnone, List.getElem?_eq_none (by simpa using hi)]
    rfl

theorem itemsize_pos {dtype : Str} {size : Nat} (h : itemsize dtype = .ok size) : 0 < size := by
  unfold itemsize at h
  split_ifs at h <;> cases h <;> decide

/-- What has been checked has the width of the module. -/
theorem cols_of_checkFound {self : Setup} {found : Found} {u : Unit}
    (h : checkFound self found = .ok u) : found.cols = self.headDim := by
  unfold checkFound at h
  by_contra hne
  simp [hne] at h

/-- What a table that loads has. -/
theorem loaded_of_setupTable {self : Setup} {dir : Checkpoint} {t : MmapPleTable}
    (h : setupTable self dir = .ok t) : Loaded self (listings self.layer dir) t := by
  obtain ⟨found, hf, h⟩ := bind_eq_ok.1 h
  obtain ⟨_, hc, h⟩ := bind_eq_ok.1 h
  obtain ⟨size, hs, h⟩ := bind_eq_ok.1 h
  split_ifs at h with hrows
  · cases h
  obtain ⟨item, hd, h⟩ := bind_eq_ok.1 h
  obtain ⟨rfl, hbytes, hchunk, hmm, hfile⟩ := MmapPleTable.of_init h
  have hcol := collected_findShards hf
  have hcols := cols_of_checkFound hc
  refine ⟨hs, hchunk, fun p hp => ⟨item, itemsize_pos hd, by rw [hbytes, hcols], ?_⟩,
    fun i => ?_, fun i l hl => ?_⟩
  · -- All tensors have the dtype of the last one.
    rw [hcol.dtype p hp, Option.getD_some] at hd
    rw [Listing.rowBytes, hd]
    rfl
  · rw [hmm, hcol.lookup]
  · rw [← hcol.lookup] at hl
    have hmem := mem_of_lookupShard hl
    refine ⟨?_, hbytes ▸ hfile _ hmem⟩
    by_contra hne
    exact hrows (List.any_eq_true.2 ⟨_, hmem, by simpa using hne⟩)

end FlashNext.Legacy
