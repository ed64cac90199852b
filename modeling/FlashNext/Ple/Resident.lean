import Mathlib.Data.List.GetD
import Mathlib.Data.UInt
import FlashNext.While
import FlashNext.Ple.Load

/-!
# The resident table

With `QWEN4EXP_PLE_RESIDENT` every rank of a tensor-parallel group reads its slice
of the table into memory when it loads (`_ple_load_resident_slice`), and a lookup
is a sum of bytes over the ranks, where a rank adds zeros for the rows of others.

The slice is read in three nested loops: parts of the slab, parts of a shard, and
positional reads, each of which may give fewer bytes than it was asked for.
`tableBytes` is what all three write. `resident_eq_disk` says that the sum over
the ranks is what `gather_cpu` reads, for every partition of the rows.
-/

namespace FlashNext.Ple

open Python Safetensors

/-! ## Reading a slice -/

/-- What the operating system decides: how many bytes a positional read gives at
    most, but one at least, and what is in new memory. The calls are counted. -/
structure Host where
  sizes : Nat → Nat
  sizes_pos : ∀ call, 0 < sizes call
  fresh : Nat → Nat → List UInt8
  length_fresh : ∀ call n, (fresh call n).length = n

/-- The state of a loop that fills a buffer: what is in it, how much is done, and
    the number of calls so far. -/
structure Filling where
  buf : List UInt8
  done : Nat
  calls : Nat

/-- `os.preadv`, for `n` bytes at an offset. -/
def Host.preadv (host : Host) (call : Nat) (file : File) (offset n : Nat) : List UInt8 :=
  slice file.bytes offset (min n (host.sizes call))

/-- A result, in a computation that may not end. -/
def liftExcept {ε α : Type} (x : Except ε α) : ExceptT ε Option α := ExceptT.mk (some x)

namespace Table

variable (t : Table) (host : Host) (fuel : Nat)

/-- One positional read, into the buffer from `dst` on. -/
def readSome (file : File) (offset want dst : Nat) (s : Filling) : ExceptT Err Option Filling :=
  let bytes := host.preadv s.calls file (offset + s.done) (want - s.done)
  if bytes.length = 0 then throw .osError
  else return ⟨overwrite s.buf (dst + s.done) bytes, s.done + bytes.length, s.calls + 1⟩

/-- `while got < want`: the positional reads for a part of a shard. -/
def readWant (file : File) (offset want dst : Nat) (buf : List UInt8) (calls : Nat) :
    ExceptT Err Option Filling :=
  whileLoop (fun s => decide (s.done < want)) (readSome host file offset want dst) fuel
    ⟨buf, 0, calls⟩

/-- One round of `while done < count`: a part of the shard that the next row is in. -/
def readChunk (start count chunkRows : Nat) (s : Filling) : ExceptT Err Option Filling := do
  let (shard, l) ← liftExcept (t.locate (start + s.done : Nat))
  let n := min chunkRows (min (count - s.done) (t.shardRows - l))
  let got ← readWant host fuel shard.file (shard.offset + l * t.rowBytes) (n * t.rowBytes)
    (s.done * t.rowBytes) s.buf s.calls
  return ⟨got.buf, s.done + n, got.calls⟩

/-- `read_rows_contiguous`: the rows from `start` on, and the number of calls. -/
def readRowsContiguous (start count chunkRows calls : Nat) :
    ExceptT Err Option (List UInt8 × Nat) := do
  if count = 0 then return ([], calls)
  -- Bytes of rows without bytes cannot be addressed (`memoryview.cast`).
  else if t.rowBytes = 0 then throw .typeError
  else
    let s ← whileLoop (fun s : Filling => decide (s.done < count))
      (t.readChunk host fuel start count chunkRows) fuel
      ⟨host.fresh calls (count * t.rowBytes), 0, calls⟩
    return (s.buf, s.calls)

end Table

/-- The slice of a rank: `_ple_resident`, with its rows, and `_ple_resident_start`. -/
structure Resident where
  start : Nat
  rows : Nat
  bytes : List UInt8

namespace Table

variable (t : Table) (host : Host) (fuel : Nat)

/-- One round of the loop over the slab. -/
def readSlab (start count chunk chunkRows : Nat) (s : Filling) : ExceptT Err Option Filling := do
  let n := min (chunk * 8) (count - s.done)
  let (rows, calls) ← t.readRowsContiguous host fuel (start + s.done) n chunkRows s.calls
  return ⟨overwrite s.buf (s.done * t.rowBytes) rows, s.done + n, calls⟩

/-- `_ple_load_resident_slice`, for the rows from `start` up to `stop`. -/
def loadResidentSlice (start stop chunk chunkRows : Nat) : ExceptT Err Option Resident := do
  let count := min stop t.rowsTotal - start
  let s ← whileLoop (fun s : Filling => decide (s.done < count))
    (t.readSlab host fuel start count chunk chunkRows) fuel
    ⟨host.fresh 0 (count * t.rowBytes), 0, 0⟩
  return ⟨start, count, s.buf⟩

end Table

/-- `_ple_mmap_gather_into` with a resident slice, before the sum over the ranks: the
    rows of other ranks are row 0 of the slice, times zero. -/
def Resident.gatherInto (resident : Resident) (rowBytes : Nat) (ids : List Int) :
    Except Err (List (List UInt8)) :=
  ids.mapM fun id =>
    let loc : Int := id - resident.start
    let mask := decide (0 ≤ loc ∧ loc < resident.rows)
    let idx := if mask then loc else 0
    if idx < resident.rows then
      .ok ((slice resident.bytes (idx.toNat * rowBytes) rowBytes).map
        (· * if mask then 1 else 0))
    else .error .indexError

/-- A rank of the tensor-parallel group: its host, and its range of rows. -/
structure Rank where
  host : Host
  start : Nat
  stop : Nat

/-- What a rank writes for a lookup, from the slice that it has loaded. -/
def Rank.out (t : Table) (fuel chunk chunkRows : Nat) (ids : List Int) (rank : Rank) :
    ExceptT Err Option (List (List UInt8)) := do
  let resident ← t.loadResidentSlice rank.host fuel rank.start rank.stop chunk chunkRows
  liftExcept (resident.gatherInto t.rowBytes ids)

/-- The byte `j` of the row `k`. -/
def byteAt (rows : List (List UInt8)) (k j : Nat) : UInt8 := (rows.getD k []).getD j 0

/-- `all_reduce`: the sum over the ranks, byte by byte, of `n` rows. -/
def allReduce (rowBytes n : Nat) (outs : List (List (List UInt8))) : List (List UInt8) :=
  (List.range n).map fun k => (List.range rowBytes).map fun j =>
    (outs.map fun out => byteAt out k j).sum

/-! ## What is read -/

/-- The bytes of `n` rows of the table, from `start` on. -/
def tableBytes (t : Table) (start n : Nat) : List UInt8 :=
  (List.range n).flatMap fun k => t.row (start + k)

/-- The files of the shards have the bytes that their headers say. -/
def Table.Whole (t : Table) : Prop :=
  ∀ s ∈ t.shards, s.offset + s.rows * s.rowBytes ≤ s.file.bytes.length

/-- Rows of a shard, one behind the other. -/
theorem slice_rows (s : Shard) (l n : Nat) :
    slice s.file.bytes (s.offset + l * s.rowBytes) (n * s.rowBytes) =
      (List.range n).flatMap fun k => s.row (l + k) := by
  induction n with
  | zero => simp [slice]
  | succ n ih =>
    rw [Nat.succ_mul, slice_add, ih, List.range_succ, List.flatMap_append, List.flatMap_singleton,
      Shard.row, Nat.add_mul, Nat.add_assoc]

theorem tableBytes_add (t : Table) (start m n : Nat) :
    tableBytes t start (m + n) = tableBytes t start m ++ tableBytes t (start + m) n := by
  rw [tableBytes, List.range_add, List.flatMap_append, List.flatMap_map, tableBytes, tableBytes]
  simp only [Nat.add_assoc]

namespace Table

variable {t : Table} (host : Host) {fuel : Nat}

/-- Reading on until the part is there ends, and writes it. -/
theorem readWant_spec {file : File} {offset want dst : Nat} {buf : List UInt8}
    (hfile : offset + want ≤ file.bytes.length) (hbuf : dst ≤ buf.length) (hfuel : want < fuel)
    (calls : Nat) : ∃ calls', readWant host fuel file offset want dst buf calls =
      pure ⟨overwrite buf dst (slice file.bytes offset want), want, calls'⟩ := by
  have hround : ∀ s : Filling,
      s.done ≤ want ∧ s.buf = overwrite buf dst (slice file.bytes offset s.done) →
      decide (s.done < want) = true → ∃ s', readSome host file offset want dst s = pure s' ∧
        (s'.done ≤ want ∧ s'.buf = overwrite buf dst (slice file.bytes offset s'.done)) ∧
          want - s'.done < want - s.done := by
    -- One read: at least one byte, and no more than what is left.
    rintro s ⟨hle, hout⟩ hcond
    have hlt : s.done < want := by simpa using hcond
    have hpos := host.sizes_pos s.calls
    have hlen : (host.preadv s.calls file (offset + s.done) (want - s.done)).length =
        min (want - s.done) (host.sizes s.calls) := by
      rw [Host.preadv, length_slice]
      omega
    have hprev : (slice file.bytes offset s.done).length = s.done := by
      rw [length_slice]
      omega
    refine ⟨_, if_neg (by omega), ⟨by simp only [hlen]; omega, ?_⟩, by simp only [hlen]; omega⟩
    simp only [hout, hlen]
    rw [slice_add, ← overwrite_overwrite hbuf, hprev]
    rfl
  obtain ⟨⟨buf', done', calls'⟩, hs', ⟨hle, hout⟩, hcond⟩ := whileLoop_spec _ _ hround
    (s := ⟨buf, 0, calls⟩) ⟨Nat.zero_le _, by simp [slice, overwrite_nil]⟩ hfuel
  obtain rfl : done' = want := by
    have : ¬done' < want := by simpa using hcond
    simp only at hle
    omega
  exact ⟨calls', hout ▸ hs'⟩

variable {self : Embedding}

/-- The rows of the table are complete. -/
theorem length_row (ht : Loaded self t) (hfiles : t.Whole) {id : Nat} (hid : id < t.rowsTotal) :
    (t.row id).length = t.rowBytes := by
  obtain ⟨-, s, hs, -, hlt, -, hrow⟩ := ht.locate_row hid
  have hend := hfiles s hs
  have hmul := Nat.mul_le_mul_right s.rowBytes hlt
  rw [Nat.succ_mul] at hmul
  rw [hrow, Shard.row, length_slice, ht.rowBytes s hs] at *
  omega

theorem length_tableBytes (ht : Loaded self t) (hfiles : t.Whole) (start n : Nat)
    (h : start + n ≤ t.rowsTotal) : (tableBytes t start n).length = n * t.rowBytes := by
  have hrows : ∀ row ∈ (List.range n).map fun k => t.row (start + k), row.length = t.rowBytes :=
    List.forall_mem_map.2 fun k hk => length_row ht hfiles (by rw [List.mem_range] at hk; omega)
  rw [tableBytes, List.flatMap, length_flatten_uniform hrows, List.length_map, List.length_range]

/-- Some rows from `row` on that are in one shard. -/
theorem slice_shard (ht : Loaded self t) (hfiles : t.Whole) (row : Nat) {n : Nat} (hn : 0 < n)
    (htotal : row + n ≤ t.rowsTotal) (hshard : n ≤ t.shardRows - row % t.shardRows) :
    ∃ s : Shard, t.locate (row : Nat) = .ok (s, row % t.shardRows) ∧
      s.offset + row % t.shardRows * t.rowBytes + n * t.rowBytes ≤ s.file.bytes.length ∧
      slice s.file.bytes (s.offset + row % t.shardRows * t.rowBytes) (n * t.rowBytes) =
        tableBytes t row n := by
  obtain ⟨hpos, s, hs, hloc, hlt, hk, -⟩ := ht.locate_row (show row < t.rowsTotal by omega)
  -- The rows after it have the same quotient.
  have hnext : ∀ j < n, t.row (row + j) = s.row (row % t.shardRows + j) ∧
      row % t.shardRows + j < s.rows := by
    intro j hj
    obtain ⟨-, s', -, -, hlt', hk', hrow'⟩ := ht.locate_row (show row + j < t.rowsTotal by omega)
    have hsum : row + j = (row % t.shardRows + j) + t.shardRows * (row / t.shardRows) := by
      have := Nat.mod_add_div row t.shardRows
      omega
    have hmod : (row + j) % t.shardRows = row % t.shardRows + j := by
      rw [hsum, Nat.add_mul_mod_self_left, Nat.mod_eq_of_lt (by omega)]
    have hdiv : (row + j) / t.shardRows = row / t.shardRows := by
      rw [hsum, Nat.add_mul_div_left _ _ hpos, Nat.div_eq_of_lt (by omega), Nat.zero_add]
    rw [hdiv, hk] at hk'
    obtain rfl := Option.some.inj hk'
    rw [hmod] at hlt' hrow'
    exact ⟨hrow', hlt'⟩
  have hbytes := ht.rowBytes s hs
  refine ⟨s, hloc, ?_, ?_⟩
  · have hlast := (hnext (n - 1) (by omega)).2
    have hmul := Nat.mul_le_mul_right s.rowBytes (show row % t.shardRows + n ≤ s.rows by omega)
    have hend := hfiles s hs
    rw [Nat.add_mul] at hmul
    rw [← hbytes]
    omega
  · rw [← hbytes, slice_rows, tableBytes]
    exact List.flatMap_congr fun j hj => (hnext j (List.mem_range.1 hj)).1.symm

/-- The first rows of a slice are in the memory `fresh`. -/
def Loading (t : Table) (fresh : List UInt8) (start count : Nat) (s : Filling) : Prop :=
  s.done ≤ count ∧ s.buf = overwrite fresh 0 (tableBytes t start s.done)

/-- More rows, behind those that are there. -/
theorem Loading.append (ht : Loaded self t) (hfiles : t.Whole) {fresh : List UInt8}
    {start count n : Nat} (htotal : start + count ≤ t.rowsTotal) {s : Filling}
    (hs : t.Loading fresh start count s) (calls : Nat) (hn : n ≤ count - s.done) :
    t.Loading fresh start count ⟨overwrite s.buf (s.done * t.rowBytes)
      (tableBytes t (start + s.done) n), s.done + n, calls⟩ := by
  have hdone := hs.1
  have hprev := length_tableBytes ht hfiles start s.done (by omega)
  refine ⟨by simp only; omega, ?_⟩
  simp only
  rw [hs.2, tableBytes_add, ← overwrite_overwrite (Nat.zero_le _), Nat.zero_add, hprev]

/-- A loop whose rounds read more of the slice ends with all of it. -/
theorem fill_spec (ht : Loaded self t) (hfiles : t.Whole) {fresh : List UInt8} {start count : Nat}
    (htotal : start + count ≤ t.rowsTotal) (hfresh : fresh.length = count * t.rowBytes)
    {body : Filling → ExceptT Err Option Filling}
    (hround : ∀ s, t.Loading fresh start count s → s.done < count →
      ∃ s', body s = pure s' ∧ t.Loading fresh start count s' ∧ s.done < s'.done)
    (fuel : Nat) (hfuel : count < fuel) (calls : Nat) :
    ∃ calls', whileLoop (fun s : Filling => decide (s.done < count)) body fuel ⟨fresh, 0, calls⟩ =
      pure ⟨tableBytes t start count, count, calls'⟩ := by
  have hdecreases : ∀ s : Filling, t.Loading fresh start count s → decide (s.done < count) = true →
      ∃ s', body s = pure s' ∧ t.Loading fresh start count s' ∧
        count - s'.done < count - s.done := by
    intro s hs hcond
    obtain ⟨s', hbody, hs', hlt⟩ := hround s hs (by simpa using hcond)
    exact ⟨s', hbody, hs', by have := hs'.1; omega⟩
  obtain ⟨⟨buf, done, calls'⟩, hloop, ⟨hdone, hbuf⟩, hcond⟩ := whileLoop_spec _ _ hdecreases
    (s := ⟨fresh, 0, calls⟩) ⟨Nat.zero_le _, by simp [tableBytes, overwrite_nil]⟩ hfuel
  obtain rfl : done = count := by
    have : ¬done < count := by simpa using hcond
    simp only at hdone
    omega
  simp only at hbuf
  rw [overwrite_zero (by rw [length_tableBytes ht hfiles _ _ htotal, hfresh])] at hbuf
  exact ⟨calls', hbuf ▸ hloop⟩

/-- One round reads some rows, behind those that are there. -/
theorem readChunk_spec (ht : Loaded self t) (hfiles : t.Whole) {start count chunkRows : Nat}
    (htotal : start + count ≤ t.rowsTotal) (hchunk : 0 < chunkRows)
    (hfuel : count * t.rowBytes < fuel) {fresh : List UInt8}
    (hfresh : fresh.length = count * t.rowBytes) (s : Filling)
    (hs : t.Loading fresh start count s) (hlt : s.done < count) :
    ∃ s', t.readChunk host fuel start count chunkRows s = pure s' ∧
      t.Loading fresh start count s' ∧ s.done < s'.done := by
  have hpos := (ht.locate_row (show start + s.done < t.rowsTotal by omega)).1
  have hmod := Nat.mod_lt (start + s.done) hpos
  obtain ⟨n, hn⟩ : ∃ n, n = min chunkRows (min (count - s.done)
      (t.shardRows - (start + s.done) % t.shardRows)) := ⟨_, rfl⟩
  obtain ⟨shard, hloc, hend, hslice⟩ := slice_shard ht hfiles (start + s.done) (n := n)
    (by omega) (by omega) (by omega)
  -- The round reads the rest of a shard, of the rows asked for, or a chunk.
  have hroom : s.done * t.rowBytes ≤ s.buf.length := by
    have hprev := length_tableBytes ht hfiles start s.done (by omega)
    rw [hs.2, length_overwrite (by rw [hprev, hfresh, Nat.zero_add]; gcongr), hfresh]
    gcongr
  have hwant : n * t.rowBytes < fuel := lt_of_le_of_lt (by gcongr; omega) hfuel
  obtain ⟨calls', hread⟩ := readWant_spec host hend hroom hwant s.calls
  refine ⟨_, ?_, hs.append ht hfiles htotal (n := n) calls' (by omega),
    by simp only; omega⟩
  rw [readChunk, hloc]
  change (do
    let got ← readWant host fuel shard.file _ _ _ s.buf s.calls
    return (⟨got.buf, _, got.calls⟩ : Filling)) = _
  rw [← hn, hread, pure_bind, hslice]

/-- `read_rows_contiguous` ends, and gives the rows. -/
theorem readRowsContiguous_spec (ht : Loaded self t) (hfiles : t.Whole) (hb : 0 < t.rowBytes)
    {start count chunkRows : Nat} (htotal : start + count ≤ t.rowsTotal) (hchunk : 0 < chunkRows)
    (hfuel : count * t.rowBytes < fuel) (calls : Nat) : ∃ calls',
      t.readRowsContiguous host fuel start count chunkRows calls =
        pure (tableBytes t start count, calls') := by
  rw [readRowsContiguous]
  by_cases hcount : count = 0
  · rw [if_pos hcount, hcount]
    exact ⟨calls, rfl⟩
  · have hlen := host.length_fresh calls (count * t.rowBytes)
    have hle := Nat.le_mul_of_pos_right count hb
    obtain ⟨calls', hloop⟩ := fill_spec ht hfiles htotal hlen
      (readChunk_spec host ht hfiles htotal hchunk hfuel hlen) fuel (by omega) calls
    exact ⟨calls', by rw [if_neg hcount, if_neg (by omega), hloop, pure_bind]⟩

/-- One round reads a part of the slab, behind those that are there. -/
theorem readSlab_spec (ht : Loaded self t) (hfiles : t.Whole) (hb : 0 < t.rowBytes)
    {start count chunk chunkRows : Nat} (htotal : start + count ≤ t.rowsTotal) (hslab : 0 < chunk)
    (hchunk : 0 < chunkRows) (hfuel : count * t.rowBytes < fuel) {fresh : List UInt8} (s : Filling)
    (hs : t.Loading fresh start count s) (hlt : s.done < count) :
    ∃ s', t.readSlab host fuel start count chunk chunkRows s = pure s' ∧
      t.Loading fresh start count s' ∧ s.done < s'.done := by
  obtain ⟨n, hn⟩ : ∃ n, n = min (chunk * 8) (count - s.done) := ⟨_, rfl⟩
  have hbytes := Nat.mul_le_mul_right t.rowBytes (show n ≤ count by omega)
  obtain ⟨calls', hread⟩ := readRowsContiguous_spec host ht hfiles hb
    (show start + s.done + n ≤ t.rowsTotal by omega) hchunk (by omega : _ < fuel) s.calls
  refine ⟨_, ?_, hs.append ht hfiles htotal (n := n) calls' (by omega),
    by simp only; omega⟩
  rw [readSlab]
  change (do
    let r ← t.readRowsContiguous host fuel (start + s.done) _ chunkRows s.calls
    return (⟨overwrite s.buf _ r.1, _, r.2⟩ : Filling)) = _
  rw [← hn, hread, pure_bind]

/-- A rank loads the rows of its range. -/
theorem loadResidentSlice_spec (ht : Loaded self t) (hfiles : t.Whole) (hb : 0 < t.rowBytes)
    {start stop chunk chunkRows : Nat} (hrange : start < min stop t.rowsTotal) (hslab : 0 < chunk)
    (hchunk : 0 < chunkRows) (hfuel : t.rowsTotal * t.rowBytes < fuel) :
    t.loadResidentSlice host fuel start stop chunk chunkRows =
      pure ⟨start, min stop t.rowsTotal - start,
        tableBytes t start (min stop t.rowsTotal - start)⟩ := by
  rw [loadResidentSlice]
  generalize hcount : min stop t.rowsTotal - start = count
  have htotal : start + count ≤ t.rowsTotal := by omega
  have hle := Nat.le_mul_of_pos_right count hb
  have hbytes := Nat.mul_le_mul_right t.rowBytes (show count ≤ t.rowsTotal by omega)
  obtain ⟨calls', hloop⟩ := fill_spec ht hfiles htotal
    (host.length_fresh 0 (count * t.rowBytes))
    (readSlab_spec host ht hfiles hb htotal hslab hchunk (by omega : _ < fuel)) fuel (by omega) 0
  rw [hloop, pure_bind]

/-! ## The sum over the ranks -/

/-- The rank has the row. -/
def Owns (t : Table) (rank : Rank) (id : Int) : Prop :=
  rank.start ≤ id ∧ id < (min rank.stop t.rowsTotal : Nat)

instance (rank : Rank) (id : Int) : Decidable (t.Owns rank id) :=
  inferInstanceAs (Decidable (_ ∧ _))

/-- What a rank adds for a row: the row, or zeros. -/
def ownRow (t : Table) (rank : Rank) (id : Int) : List UInt8 :=
  if t.Owns rank id then t.row id.toNat else List.replicate t.rowBytes 0

/-- A row of a slice. -/
theorem slice_tableBytes (ht : Loaded self t) (hfiles : t.Whole) {start count k : Nat}
    (htotal : start + count ≤ t.rowsTotal) (hk : k < count) :
    slice (tableBytes t start count) (k * t.rowBytes) t.rowBytes = t.row (start + k) := by
  have hrows : ∀ row ∈ (List.range count).map fun k => t.row (start + k),
      row.length = t.rowBytes :=
    List.forall_mem_map.2 fun j hj => length_row ht hfiles (by rw [List.mem_range] at hj; omega)
  rw [slice, tableBytes, List.flatMap, take_drop_flatten hrows (by simpa using hk)]
  simp

/-- A rank writes the rows that it has, and zeros. -/
theorem gatherInto_spec (ht : Loaded self t) (hfiles : t.Whole) {rank : Rank}
    (hrange : rank.start < min rank.stop t.rowsTotal) (ids : List Int) :
    Resident.gatherInto ⟨rank.start, min rank.stop t.rowsTotal - rank.start,
      tableBytes t rank.start (min rank.stop t.rowsTotal - rank.start)⟩ t.rowBytes ids =
        .ok (ids.map (t.ownRow rank)) := by
  generalize hcount : min rank.stop t.rowsTotal - rank.start = count
  have htotal : rank.start + count ≤ t.rowsTotal := by omega
  have hslice := fun k => slice_tableBytes ht hfiles (k := k) htotal
  rw [Resident.gatherInto]
  refine (Returns.mapM (P := fun _ => True) (g := t.ownRow rank) fun id _ => ?_).eq_ok
    fun _ _ => trivial
  have hown : t.Owns rank id ↔ 0 ≤ id - (rank.start : Int) ∧ id - rank.start < count := by
    rw [Owns]
    omega
  simp only
  -- An id of another rank is read at the first row and multiplied by zero.
  by_cases hmask : 0 ≤ id - (rank.start : Int) ∧ id - rank.start < count
  · have hrow : rank.start + (id - rank.start).toNat = id.toNat := by omega
    simp only [decide_eq_true hmask, if_true, if_pos hmask.2, UInt8.mul_one, List.map_id']
    rw [hslice _ (by omega), hrow, ownRow, if_pos (hown.2 hmask)]
    exact Returns.ok trivial
  · simp only [decide_eq_false hmask, Bool.false_eq_true, if_false, UInt8.mul_zero, Int.toNat_zero,
      Nat.zero_mul]
    have hzeros : (slice (tableBytes t rank.start count) 0 t.rowBytes).map (fun _ => (0 : UInt8)) =
        List.replicate t.rowBytes 0 := by
      have hfirst := hslice 0 (by omega)
      rw [Nat.zero_mul] at hfirst
      rw [hfirst, List.map_const', length_row ht hfiles (by omega)]
    rw [if_pos (by omega), hzeros, ownRow, if_neg (mt hown.1 hmask)]
    exact Returns.ok trivial

/-- Every row of the table can be read from disk. -/
theorem readable_of_inTable (ht : Loaded self t) (hfiles : t.Whole) {id : Int}
    (hid : t.InTable id) : t.Readable id := by
  obtain ⟨h0, hlt⟩ := hid
  have hle := ht.even.rowsTotal_le
  refine ⟨by omega, by omega, fun s hs => ?_⟩
  have haddr : t.addr id = id.toNat := by
    have := addr_of_nonneg (t := t) h0 (by omega)
    omega
  obtain ⟨-, s', hs', -, hrow, hk, -⟩ := ht.locate_row (show id.toNat < t.rowsTotal by omega)
  rw [haddr, hk] at hs
  obtain rfl := Option.some.inj hs
  have hend := hfiles s' hs'
  have hmul := Nat.mul_le_mul_right s'.rowBytes hrow
  rw [Nat.succ_mul] at hmul
  rw [haddr, ← ht.rowBytes s' hs']
  omega

/-- `gather_cpu` returns the rows of the table. -/
theorem gatherCpu_of_loaded (ht : Loaded self t) (hfiles : t.Whole) (hb : 0 < t.rowBytes)
    (hchunk : 0 < t.chunkRows) {ids : List Int} (hids : ∀ id ∈ ids, t.InTable id)
    (buf : Rows t.rowBytes) :
    (t.gatherCpu buf ids).2 = .ok (ids.map fun id => t.row id.toNat) := by
  have hread : ∀ id ∈ ids, t.Readable id := fun id hid =>
    readable_of_inTable ht hfiles (hids id hid)
  obtain ⟨rows, hrows⟩ : ∃ rows, (t.gatherCpu buf ids).2 = .ok rows :=
    gatherCpu_ok_iff.2 (.inr ⟨hb.ne', .inr ⟨hchunk, hread⟩⟩)
  rw [hrows, gatherCpu_rows hrows, if_neg (by omega)]
  exact congrArg Except.ok (List.map_congr_left fun id hid =>
    rowAt_eq ht.toAccepted (hids id hid) (hread id hid).2.1)

end Table

/-- The ranges of the ranks have rows of the table, and every row is in one of them. -/
structure Partition (total : Nat) (ranks : List Rank) : Prop where
  nonempty : ∀ rank ∈ ranks, rank.start < min rank.stop total
  disjoint : ranks.Pairwise fun a b => a.stop ≤ b.start ∨ b.stop ≤ a.start
  cover : ∀ row < total, ∃ rank ∈ ranks, rank.start ≤ row ∧ row < rank.stop

/-- A sum of bytes is the sum of the numbers, modulo 256. -/
theorem sum_eq_ofNat (bytes : List UInt8) :
    bytes.sum = UInt8.ofNat (bytes.map UInt8.toNat).sum := by
  induction bytes with
  | nil => rfl
  | cons b bytes ih =>
    rw [List.sum_cons, ih, List.map_cons, List.sum_cons, UInt8.ofNat_add, UInt8.ofNat_toNat]

section Sum

variable {self : Embedding} {t : Table} {ranks : List Rank} {ids : List Int}

theorem byteAt_map {f : Int → List UInt8} {k : Nat} (hk : k < ids.length) (j : Nat) :
    byteAt (ids.map f) k j = (f ids[k]).getD j 0 := by
  rw [byteAt, List.getD_eq_getElem (ids.map f) [] (by simpa using hk), List.getElem_map]

/-- The bytes that the ranks add up to, as numbers, are those of the rows. -/
theorem sum_byteAt (hranks : Partition t.rowsTotal ranks) (hids : ∀ id ∈ ids, t.InTable id)
    {k : Nat} (hk : k < ids.length) (j : Nat) :
    (ranks.map fun rank => (byteAt (ids.map (t.ownRow rank)) k j).toNat).sum =
      ((t.row ids[k].toNat).getD j 0).toNat := by
  obtain ⟨h0, hlt⟩ := hids _ (List.getElem_mem hk)
  have hbyte : ∀ rank, (byteAt (ids.map (t.ownRow rank)) k j).toNat =
      if t.Owns rank ids[k] then ((t.row ids[k].toNat).getD j 0).toNat else 0 := by
    intro rank
    rw [byteAt_map hk, Table.ownRow]
    split_ifs
    · rfl
    · rw [List.getD_eq_getElem?_getD, List.getElem?_replicate]
      split_ifs <;> rfl
  simp only [hbyte]
  refine sum_of_one (fun rank => t.Owns rank ids[k]) _ (hranks.disjoint.imp ?_) ?_
  · rintro a b hab ⟨ha, hb⟩
    rw [Table.Owns] at ha hb
    omega
  · obtain ⟨rank, hrank, hstart, hstop⟩ := hranks.cover ids[k].toNat (by omega)
    exact ⟨rank, hrank, by omega, by omega⟩

/-- The sum over the ranks is the rows. -/
theorem allReduce_eq (ht : Loaded self t) (hfiles : t.Whole) (hranks : Partition t.rowsTotal ranks)
    (hids : ∀ id ∈ ids, t.InTable id) :
    allReduce t.rowBytes ids.length (ranks.map fun rank => ids.map (t.ownRow rank)) =
      ids.map fun id => t.row id.toNat := by
  refine List.ext_getElem (by simp [allReduce]) fun k hk hk' => ?_
  have hlt : k < ids.length := by simpa using hk'
  have hid := hids _ (List.getElem_mem hlt)
  have hlen := Table.length_row ht hfiles (show ids[k].toNat < t.rowsTotal by
    have := hid.1
    have := hid.2
    omega)
  simp only [allReduce, List.getElem_map, List.getElem_range]
  refine List.ext_getElem (by simp [hlen]) fun j hj hj' => ?_
  rw [List.getElem_map, List.getElem_range, sum_eq_ofNat, List.map_map, List.map_map]
  have hsum := sum_byteAt hranks hids hlt j
  rw [List.getD_eq_getElem _ _ hj'] at hsum
  exact (congrArg UInt8.ofNat hsum).trans UInt8.ofNat_toNat

/-- What the ranks write: the rows that each of them has. -/
theorem mapM_out (ht : Loaded self t) (hfiles : t.Whole) (hb : 0 < t.rowBytes)
    (hranks : ∀ rank ∈ ranks, rank.start < min rank.stop t.rowsTotal) {chunk chunkRows fuel : Nat}
    (hslab : 0 < chunk) (hchunk : 0 < chunkRows) (hfuel : t.rowsTotal * t.rowBytes < fuel) :
    ranks.mapM (Rank.out t fuel chunk chunkRows ids) =
      pure (ranks.map fun rank => ids.map (t.ownRow rank)) := by
  induction ranks with
  | nil => rfl
  | cons rank ranks ih =>
    rw [List.forall_mem_cons] at hranks
    rw [List.mapM_cons, ih hranks.2, Rank.out,
      Table.loadResidentSlice_spec _ ht hfiles hb hranks.1 hslab hchunk hfuel, pure_bind,
      Table.gatherInto_spec ht hfiles hranks.1]
    rfl

end Sum

/-- The lookup on the ranks gives what `gather_cpu` does: the sum of the bytes that
    the ranks write, which never wraps around. -/
structure Agree (t : Table) (buf : Rows t.rowBytes) (ids : List Int)
    (outs : List (List (List UInt8))) : Prop where
  sum : (t.gatherCpu buf ids).2 = .ok (allReduce t.rowBytes ids.length outs)
  noWrap : ∀ k < ids.length, ∀ j, (outs.map fun out => (byteAt out k j).toNat).sum < 256

/-- For every table that the loader accepts, and every partition of its rows, the
    ranks load their slices and look the rows up without raising, and agree with the
    rows on disk, whatever parts the rows are read in. -/
theorem resident_eq_disk {self : Embedding} {dir : Checkpoint} {t : Table}
    (hload : self.loadWeights dir = .ok t) (hfiles : t.Whole) (hdim : 0 < self.dim)
    (hgather : 0 < self.chunkRows) {ranks : List Rank} (hranks : Partition t.rowsTotal ranks)
    {chunk chunkRows : Nat} (hslab : 0 < chunk) (hchunk : 0 < chunkRows) {ids : List Int}
    (hids : ∀ id ∈ ids, t.InTable id) (buf : Rows t.rowBytes) :
    ∃ enough, ∀ fuel, enough ≤ fuel → ∃ outs,
      ranks.mapM (Rank.out t fuel chunk chunkRows ids) = pure outs ∧ Agree t buf ids outs := by
  have ht := self.loaded hload
  have hb : 0 < t.rowBytes := by
    obtain ⟨size, hsize, hbytes⟩ := ht.dim
    rw [hbytes]
    exact Nat.mul_pos hdim hsize
  refine ⟨t.rowsTotal * t.rowBytes + 1, fun fuel hfuel => ⟨_, mapM_out ht hfiles hb
    hranks.nonempty hslab hchunk hfuel, ⟨?_, fun k hk j => ?_⟩⟩⟩
  · rw [allReduce_eq ht hfiles hranks hids]
    exact Table.gatherCpu_of_loaded ht hfiles hb (by rw [ht.chunkRows]; exact hgather) hids buf
  · rw [List.map_map]
    exact (sum_byteAt hranks hids hk j).trans_lt (UInt8.toNat_lt _)

/-- The embedding of `threeRows`. -/
def threeRowsEmbedding : Embedding where
  layer := 0
  vocab := 3
  parts := 2
  dim := 2
  chunkRows := 8

theorem threeRows_loads :
    threeRowsEmbedding.loadWeights ⟨none, [threeRowsFile]⟩ = .ok threeRows := by
  rfl

/-- A host that gives one byte a read. -/
def slowHost : Host where
  sizes _ := 1
  sizes_pos _ := Nat.one_pos
  fresh _ n := List.replicate n 0
  length_fresh _ _ := List.length_replicate

/-- Two ranks with ranges of different lengths, of which the second crosses a border
    of the shards. -/
def twoRanks : List Rank := [⟨slowHost, 0, 1⟩, ⟨slowHost, 1, 3⟩]

/-- Two ranks look up rows of both of them, and a row twice. -/
theorem resident_eq_disk_twoRanks : ∃ enough, ∀ fuel, enough ≤ fuel → ∃ outs,
    twoRanks.mapM (Rank.out threeRows fuel 1 1 [2, 0, 2]) = pure outs ∧
      Agree threeRows (Rows.zero 2) [2, 0, 2] outs :=
  resident_eq_disk threeRows_loads (by simp [Table.Whole, Table.shards, threeRows, threeRowsFile])
    (by decide) (by decide) ⟨by decide, by decide, by decide⟩ Nat.one_pos Nat.one_pos
    (by simp [Table.InTable, threeRows, Table.rowsTotal, Table.shards]) (Rows.zero 2)

end FlashNext.Ple
