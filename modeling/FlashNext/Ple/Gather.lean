import Mathlib.Data.Int.DivMod
import Mathlib.Data.List.Induction
import FlashNext.Chunks
import FlashNext.Ple.Table

/-!
# Gathering rows from disk

`gather_cpu` of `ple_mmap.py`: every row is read at the place that `divmod` of
its id and the rows of a shard gives, straight into its row of the staging
buffer. The ids are not checked: a negative id makes a negative shard index,
which Python counts from the end, an id past a short last shard reads what
follows the shard in its file, and the rows of a long last shard past the size of
the others cannot be reached.

* `gatherCpu_ok_iff`: the call returns exactly when every id can be read
  (`Table.Readable`);
* `gatherCpu_guarded_iff`: it is guarded against ids outside the table exactly
  when the ids are all in the table and can all be read, or one is not in the
  table and one cannot be read.

The tasks of the pool are run in the order in which they are submitted here;
`FlashNext.Ple.Pool` lets them interleave.
-/

namespace FlashNext.Ple

open Python Safetensors

/-! ## The staging buffer -/

/-- A buffer of rows of `width` bytes. -/
@[ext]
structure Rows (width : Nat) where
  row : Nat → List UInt8
  length_row : ∀ k, (row k).length = width

namespace Rows

variable {width : Nat} (buf : Rows width)

/-- What a read into the row `k` leaves there: a short read leaves the rest. -/
def write (k : Nat) (bytes : List UInt8) : Rows width where
  row := Function.update buf.row k (bytes.take width ++ (buf.row k).drop bytes.length)
  length_row j := by
    by_cases h : j = k
    · subst h
      simp [buf.length_row]
      omega
    · rw [Function.update_of_ne h, buf.length_row]

theorem write_self {bytes : List UInt8} (h : bytes.length = width) (k : Nat) :
    (buf.write k bytes).row k = bytes := by
  simp [write, ← h, List.drop_of_length_le, buf.length_row k ▸ h.ge]

theorem write_of_ne {j k : Nat} (h : j ≠ k) (bytes : List UInt8) :
    (buf.write k bytes).row j = buf.row j := Function.update_of_ne h _ _

end Rows

/-! ## Reading rows -/

namespace Table

variable (t : Table)

/-- `divmod(i, shard_rows)` and `shard_base[s]`: the shard and the row in it. A
    negative index counts from the end. -/
def locate (id : Int) : Except Err (Shard × Nat) :=
  if t.shardRows = 0 then .error .zeroDivisionError
  else
    let s := id.fdiv t.shardRows
    let k := if s < 0 then s + t.shards.length else s
    match if k < 0 then none else t.shards[k.toNat]? with
    | some shard => .ok (shard, (id.fmod t.shardRows).toNat)
    | none => .error .indexError

/-- The bytes that `preadv` finds for a row: fewer at the end of the file. -/
def pread (id : Int) : Except Err (List UInt8) := do
  let (shard, l) ← t.locate id
  return slice shard.file.bytes (shard.offset + l * t.rowBytes) t.rowBytes

/-- `_gather_chunk`: the rows `ids`, into the rows of the buffer from `start` on. -/
def gatherChunk (buf : Rows t.rowBytes) : List Int → Nat → Rows t.rowBytes × Option Err
  | [], _ => (buf, none)
  | i :: ids, start =>
    match t.pread i with
    | .error e => (buf, some e)
    | .ok bytes =>
      let buf := buf.write start bytes
      if bytes.length ≠ t.rowBytes then (buf, some .osError) else gatherChunk buf ids (start + 1)

/-- The tasks of a call: `(id_list[a : a + chunk], a)` for `a` in
    `range(0, n, chunk)`, which is empty if `chunk` is negative. -/
def tasks (ids : List Int) : List (List Int × Nat) :=
  let chunk := t.chunkRows.toNat
  (List.range ((ids.length + chunk - 1) / chunk)).map fun i =>
    ((ids.drop (i * chunk)).take chunk, i * chunk)

/-- The tasks, one after the other; the first one that fails is the one that the
    call raises from. -/
def runTasks (buf : Rows t.rowBytes) (tasks : List (List Int × Nat)) :
    Rows t.rowBytes × Option Err :=
  tasks.foldl (fun acc task =>
    let w := t.gatherChunk acc.1 task.1 task.2
    (w.1, acc.2 <|> w.2)) (buf, none)

/-- What a call reads, with the rows of the staging buffer. -/
def gatherInto (buf : Rows t.rowBytes) (ids : List Int) : Rows t.rowBytes × Option Err :=
  -- Bytes of rows without bytes cannot be addressed (`memoryview.cast`).
  if t.rowBytes = 0 then (buf, some .typeError)
  else if (ids.length : Int) ≤ t.chunkRows then t.gatherChunk buf ids 0
  else if t.chunkRows = 0 then (buf, some .valueError)
  else t.runTasks buf (t.tasks ids)

/-- `gather_cpu`: the staging buffer after it, and the first rows of it or the
    exception. -/
def gatherCpu (buf : Rows t.rowBytes) (ids : List Int) :
    Rows t.rowBytes × Except Err (List (List UInt8)) :=
  if ids = [] then (buf, .ok [])
  else
    let w := t.gatherInto buf ids
    (w.1, match w.2 with
      | some e => .error e
      | none => .ok ((List.range ids.length).map w.1.row))

/-! ## Which ids can be read -/

/-- The id is in the table. -/
def InTable (id : Int) : Prop := 0 ≤ id ∧ id < t.rowsTotal

/-- The row that a read with the id is for: a negative id counts from the end. -/
def addr (id : Int) : Nat := (id % (t.shards.length * t.shardRows : Nat)).toNat

/-- The id can be read: it is one of the rows that full shards would have,
    counted from the start or from the end, and its bytes are in the file. -/
def Readable (id : Int) : Prop :=
  -(t.shards.length * t.shardRows : Nat) ≤ id ∧ id < (t.shards.length * t.shardRows : Nat) ∧
    ∀ shard, t.shards[t.addr id / t.shardRows]? = some shard →
      shard.offset + t.addr id % t.shardRows * t.rowBytes + t.rowBytes ≤ shard.file.bytes.length

variable {t}

/-- An id that is not negative is at its own address. -/
theorem addr_of_nonneg {id : Int} (h0 : 0 ≤ id) (h : id < (t.shards.length * t.shardRows : Nat)) :
    (t.addr id : Int) = id := by
  rw [addr, Int.emod_eq_of_lt h0 h, Int.toNat_of_nonneg h0]

/-- A negative id is counted from the end. -/
theorem addr_of_neg {id : Int} (h0 : id < 0) (h : -(t.shards.length * t.shardRows : Nat) ≤ id) :
    (t.addr id : Int) = id + (t.shards.length * t.shardRows : Nat) := by
  rw [addr, ← Int.add_emod_right, Int.emod_eq_of_lt (by omega) (by omega),
    Int.toNat_of_nonneg (by omega)]

/-- An id between `-n * rows` and `n * rows` is located at its address. -/
theorem locate_eq {id : Int} (h1 : -(t.shards.length * t.shardRows : Nat) ≤ id)
    (h2 : id < (t.shards.length * t.shardRows : Nat)) :
    ∃ shard, t.shards[t.addr id / t.shardRows]? = some shard ∧
      t.locate id = .ok (shard, t.addr id % t.shardRows) := by
  -- The address is the id, or the id counted from the end.
  obtain ⟨q, hq, hid⟩ : ∃ q : Int, (q = 0 ∧ 0 ≤ id ∨ q = -t.shards.length ∧ id < 0) ∧
      id = t.addr id + q * t.shardRows := by
    rcases Int.lt_or_le id 0 with hneg | hpos
    · refine ⟨-t.shards.length, .inr ⟨rfl, hneg⟩, ?_⟩
      rw [addr_of_neg hneg h1]
      push_cast
      ring
    · exact ⟨0, .inl ⟨rfl, hpos⟩, by rw [addr_of_nonneg hpos h2]; omega⟩
  have hlt : t.addr id < t.shards.length * t.shardRows := by
    rcases hq with ⟨-, hpos⟩ | ⟨-, hneg⟩
    · have := addr_of_nonneg hpos h2
      omega
    · have := addr_of_neg hneg h1
      omega
  have hr : 0 < t.shardRows := Nat.pos_of_mul_pos_left (Nat.zero_lt_of_lt hlt)
  have hk : t.addr id / t.shardRows < t.shards.length := Nat.div_lt_of_lt_mul (by rwa [mul_comm])
  refine ⟨_, List.getElem?_eq_getElem hk, ?_⟩
  have hdiv : id.fdiv t.shardRows = (t.addr id / t.shardRows : Nat) + q := by
    rw [Int.fdiv_eq_ediv_of_nonneg _ (by omega)]
    conv_lhs => rw [hid]
    rw [Int.add_mul_ediv_right _ _ (by omega)]
    norm_cast
  have hmod : id.fmod t.shardRows = (t.addr id % t.shardRows : Nat) := by
    rw [Int.fmod_eq_emod_of_nonneg _ (by omega)]
    conv_lhs => rw [hid]
    rw [Int.add_mul_emod_self_right]
    norm_cast
  generalize t.addr id / t.shardRows = a at hk hdiv ⊢
  have hidx : (if id.fdiv t.shardRows < 0 then id.fdiv t.shardRows + t.shards.length
      else id.fdiv t.shardRows) = a := by
    rw [hdiv]
    split_ifs <;> omega
  simp only [locate, hr.ne', if_false, hidx, hmod, Int.toNat_natCast]
  rw [if_neg (by omega), List.getElem?_eq_getElem hk]

/-- No other id is located. -/
theorem locate_error {id : Int} (h : ¬(-(t.shards.length * t.shardRows : Nat) ≤ id ∧
    id < (t.shards.length * t.shardRows : Nat))) : ∃ e, t.locate id = .error e := by
  rw [locate]
  split_ifs with hr
  · exact ⟨_, rfl⟩
  · have hpos : (0 : Int) < t.shardRows := by omega
    have hout : id.fdiv t.shardRows < -t.shards.length ∨
        (t.shards.length : Int) ≤ id.fdiv t.shardRows := by
      rw [Int.fdiv_eq_ediv_of_nonneg _ hpos.le, Int.ediv_lt_iff_lt_mul hpos,
        Int.le_ediv_iff_mul_le hpos]
      push_cast at h
      rw [neg_mul]
      omega
    generalize id.fdiv t.shardRows = s at hout
    have hnone : ∀ k : Int, k < 0 ∨ (t.shards.length : Int) ≤ k →
        (if k < 0 then none else t.shards[k.toNat]?) = none := fun k hk => by
      split_ifs
      · rfl
      · exact List.getElem?_eq_none (by omega)
    simp only []
    rw [hnone]
    · exact ⟨_, rfl⟩
    · split_ifs <;> omega

/-- The bytes of the row at the address of an id. -/
def rowAt (t : Table) (id : Int) : List UInt8 :=
  match t.shards[t.addr id / t.shardRows]? with
  | some shard => slice shard.file.bytes
      (shard.offset + t.addr id % t.shardRows * t.rowBytes) t.rowBytes
  | none => []

/-- An id that is read is located, and what is read is at its address. -/
theorem pread_eq_rowAt {id : Int} {bytes : List UInt8} (hp : t.pread id = .ok bytes) :
    (-(t.shards.length * t.shardRows : Nat) ≤ id ∧ id < (t.shards.length * t.shardRows : Nat)) ∧
      bytes = t.rowAt id := by
  by_cases hid : -(t.shards.length * t.shardRows : Nat) ≤ id ∧
      id < (t.shards.length * t.shardRows : Nat)
  · obtain ⟨shard, hk, hloc⟩ := locate_eq hid.1 hid.2
    refine ⟨hid, ?_⟩
    simpa [pread, hloc, rowAt, hk, bind, Except.bind, pure, Except.pure, eq_comm] using hp
  · obtain ⟨e, he⟩ := locate_error hid
    simp [pread, he, bind, Except.bind] at hp

/-- A readable id is read in full. -/
theorem pread_of_readable {id : Int} (h : t.Readable id) :
    t.pread id = .ok (t.rowAt id) ∧ (t.rowAt id).length = t.rowBytes := by
  obtain ⟨h1, h2, hfile⟩ := h
  obtain ⟨shard, hk, hloc⟩ := locate_eq h1 h2
  refine ⟨by simp [pread, hloc, rowAt, hk, bind, Except.bind, pure, Except.pure], ?_⟩
  have := hfile shard hk
  rw [rowAt, hk, length_slice]
  omega

/-- An id that is not readable raises, or is read short. -/
theorem pread_of_not_readable (hb : t.rowBytes ≠ 0) {id : Int} (h : ¬t.Readable id)
    {bytes : List UInt8} (hp : t.pread id = .ok bytes) : bytes.length ≠ t.rowBytes := by
  by_cases hid : -(t.shards.length * t.shardRows : Nat) ≤ id ∧
      id < (t.shards.length * t.shardRows : Nat)
  · -- The row is located, and ends behind the end of its file.
    obtain ⟨shard, hk, hloc⟩ := locate_eq hid.1 hid.2
    obtain rfl : _ = bytes := by
      simpa [pread, hloc, bind, Except.bind, pure, Except.pure] using hp
    intro hlen
    refine h ⟨hid.1, hid.2, fun shard' hk' => ?_⟩
    obtain rfl := Option.some.inj (hk.symm.trans hk')
    exact (length_slice_eq_iff (by omega)).1 hlen
  · obtain ⟨e, he⟩ := locate_error hid
    simp [pread, he, bind, Except.bind] at hp

/-! ## What a call reads -/

section Gather

variable {buf buf' buf'' : Rows t.rowBytes} {ids : List Int} {start : Nat}

/-- A task fails exactly when one of its ids is not readable. -/
theorem gatherChunk_ok_iff (hb : t.rowBytes ≠ 0) :
    (t.gatherChunk buf ids start).2 = none ↔ ∀ id ∈ ids, t.Readable id := by
  induction ids generalizing buf start with
  | nil => simp [gatherChunk]
  | cons i ids ih =>
    rw [gatherChunk, List.forall_mem_cons]
    by_cases hi : t.Readable i
    · obtain ⟨hp, hlen⟩ := pread_of_readable hi
      simp only [hp, hlen, ne_eq, not_true, if_false, hi, true_and]
      exact ih
    · cases hp : t.pread i with
      | error e => simp [hi]
      | ok bytes => simp [hi, pread_of_not_readable hb hi hp]

/-- `buf'` is `buf` with rows written from `start` on. -/
def Filled (buf buf' : Rows t.rowBytes) (start : Nat) (rows : List (List UInt8)) : Prop :=
  (∀ i (h : i < rows.length), buf'.row (start + i) = rows[i]) ∧
    ∀ k, k < start ∨ start + rows.length ≤ k → buf'.row k = buf.row k

theorem filled_nil (buf : Rows t.rowBytes) (start : Nat) : Filled buf buf start [] :=
  ⟨fun i h => absurd h (Nat.not_lt_zero i), fun _ _ => rfl⟩

theorem Filled.append {xs ys : List (List UInt8)} (h : Filled buf buf' start xs)
    (h' : Filled buf' buf'' (start + xs.length) ys) : Filled buf buf'' start (xs ++ ys) := by
  refine ⟨fun i hi => ?_, fun k hk => ?_⟩
  · by_cases hx : i < xs.length
    · rw [h'.2 _ (by omega), h.1 i hx, List.getElem_append_left hx]
    · rw [List.getElem_append_right (by omega), ← h'.1 (i - xs.length) (by simp at hi; omega)]
      congr 1
      omega
  · rw [List.length_append] at hk
    rw [h'.2 k (by omega), h.2 k (by omega)]

/-- A task that does not fail writes the rows at its ids. -/
theorem gatherChunk_filled (h : ∀ id ∈ ids, t.Readable id) :
    Filled buf (t.gatherChunk buf ids start).1 start (ids.map t.rowAt) := by
  induction ids generalizing buf start with
  | nil => exact filled_nil buf start
  | cons i ids ih =>
    rw [List.forall_mem_cons] at h
    obtain ⟨hp, hlen⟩ := pread_of_readable h.1
    have hone : Filled buf (buf.write start (t.rowAt i)) start [t.rowAt i] := by
      refine ⟨fun j hj => ?_, fun k hk => Rows.write_of_ne _ (by simp at hk; omega) _⟩
      obtain rfl : j = 0 := by simpa using hj
      exact Rows.write_self _ hlen start
    rw [gatherChunk, hp]
    simp only [hlen, ne_eq, not_true, if_false]
    exact hone.append (ih h.2)

/-- The first tasks, when none of them fails, write the first rows. -/
theorem runTasks_filled (h : ∀ id ∈ ids, t.Readable id) (c m : Nat) :
    Filled buf (t.runTasks buf ((List.range m).map fun i =>
      ((ids.drop (i * c)).take c, i * c))).1 0 ((ids.map t.rowAt).take (m * c)) := by
  induction m with
  | zero => simpa [runTasks] using filled_nil buf 0
  | succ m ih =>
    rw [List.range_succ, List.map_append, runTasks, List.foldl_append, ← runTasks]
    have hsplit : (ids.map t.rowAt).take ((m + 1) * c) =
        (ids.map t.rowAt).take (m * c) ++ ((ids.drop (m * c)).take c).map t.rowAt := by
      rw [Nat.succ_mul, List.take_add, List.map_take, List.map_drop]
    rw [hsplit]
    refine ih.append ?_
    by_cases hm : m * c ≤ ids.length
    · have hlen : 0 + ((ids.map t.rowAt).take (m * c)).length = m * c := by simp [hm]
      rw [hlen]
      exact gatherChunk_filled fun id hid => h id (List.mem_of_mem_drop (List.mem_of_mem_take hid))
    · -- Past the end of the list there is nothing to read.
      have hnil : (ids.drop (m * c)).take c = [] := by
        rw [List.drop_of_length_le (not_le.1 hm).le, List.take_nil]
      simpa [hnil, gatherChunk] using filled_nil _ _

theorem runTasks_ok_iff (hb : t.rowBytes ≠ 0) (tasks : List (List Int × Nat)) :
    (t.runTasks buf tasks).2 = none ↔ ∀ task ∈ tasks, ∀ id ∈ task.1, t.Readable id := by
  induction tasks using List.reverseRecOn with
  | nil => simp [runTasks]
  | append_singleton tasks task ih =>
    rw [runTasks, List.foldl_append, ← runTasks, List.forall_mem_append, ← ih,
      List.forall_mem_singleton]
    have htask : (t.gatherChunk (t.runTasks buf tasks).1 task.1 task.2).2 = none ↔ _ :=
      gatherChunk_ok_iff hb
    rw [← htask]
    simp

/-- The ids of the first tasks are those of the first chunks. -/
theorem forall_mem_tasks_iff {P : Int → Prop} (ids : List Int) (c m : Nat) :
    (∀ task ∈ (List.range m).map fun i => ((ids.drop (i * c)).take c, i * c), ∀ id ∈ task.1, P id) ↔
      ∀ id ∈ ids.take (m * c), P id := by
  rw [← flatten_range_chunks, List.forall_mem_flatten, List.forall_mem_map, List.forall_mem_map]

/-- The ids can be served: there are none, or they can all be read (with a
    negative chunk there is no task, and nothing is read). -/
def Served (t : Table) (ids : List Int) : Prop :=
  ids = [] ∨ t.rowBytes ≠ 0 ∧ (t.chunkRows < 0 ∨ 0 < t.chunkRows ∧ ∀ id ∈ ids, t.Readable id)

/-- A call that reads anything fails exactly when the ids cannot be served. -/
theorem gatherInto_ok_iff (hne : ids ≠ []) : (t.gatherInto buf ids).2 = none ↔ t.Served ids := by
  have hlen := List.length_pos_iff.2 hne
  rw [Served, or_iff_right hne, gatherInto]
  split_ifs with hb hle hc
  · simp [hb]
  · simp only [gatherChunk_ok_iff hb, ne_eq, hb, not_false_eq_true, true_and]
    constructor
    · exact fun h => .inr ⟨by omega, h⟩
    · exact fun h => (h.resolve_left (by omega)).2
  · simp [hc]
  · rw [runTasks_ok_iff hb, tasks, forall_mem_tasks_iff]
    simp only [ne_eq, hb, not_false_eq_true, true_and]
    rcases lt_or_gt_of_ne hc with hneg | hpos
    · simp [hneg, Int.toNat_of_nonpos hneg.le]
    · rw [List.take_of_length_le (le_chunks_mul (by omega) _)]
      exact ⟨fun h => .inr ⟨hpos, h⟩, fun h => (h.resolve_left (by omega)).2⟩

/-- A call that does not fail fills the buffer with the rows of its ids. -/
theorem gatherInto_filled (hc : 0 < t.chunkRows) (hb : t.rowBytes ≠ 0)
    (h : ∀ id ∈ ids, t.Readable id) :
    Filled buf (t.gatherInto buf ids).1 0 (ids.map t.rowAt) := by
  rw [gatherInto, if_neg hb]
  split_ifs with hle hzero
  · exact gatherChunk_filled h
  · omega
  · have hfill : Filled buf (t.runTasks buf (t.tasks ids)).1 0 _ := runTasks_filled h _ _
    rwa [List.take_of_length_le] at hfill
    rw [List.length_map]
    exact le_chunks_mul (by omega) _

/-- With a negative chunk, the buffer is left as it is. -/
theorem gatherInto_of_neg (hc : t.chunkRows < 0) (hb : t.rowBytes ≠ 0) :
    (t.gatherInto buf ids).1 = buf := by
  rw [gatherInto, if_neg hb, if_neg (by omega), if_neg (by omega), tasks,
    Int.toNat_of_nonpos hc.le]
  simp [runTasks]

/-- A call returns exactly when its ids can be served. -/
theorem gatherCpu_ok_iff : (∃ rows, (t.gatherCpu buf ids).2 = .ok rows) ↔ t.Served ids := by
  by_cases hne : ids = []
  · simp [gatherCpu, Served, hne]
  · have hinto : (t.gatherInto buf ids).2 = none ↔ _ := gatherInto_ok_iff hne
    rw [← hinto, gatherCpu, if_neg hne]
    cases h : (t.gatherInto buf ids).2 <;> simp [h]

/-- What a call that returns gives. -/
theorem gatherCpu_rows {rows : List (List UInt8)} (h : (t.gatherCpu buf ids).2 = .ok rows) :
    rows = if t.chunkRows < 0 then (List.range ids.length).map buf.row else ids.map t.rowAt := by
  have hs := gatherCpu_ok_iff.1 ⟨rows, h⟩
  rw [gatherCpu] at h
  split_ifs at h with hne
  · obtain rfl := Except.ok.inj h
    simp [hne]
  · obtain ⟨hb, hs⟩ := hs.resolve_left hne
    simp only at h
    split at h
    · cases h
    · obtain rfl := Except.ok.inj h
      split_ifs with hc
      · rw [gatherInto_of_neg hc hb]
      · obtain ⟨hpos, hread⟩ := hs.resolve_left hc
        have hfill : Filled buf (t.gatherInto buf ids).1 0 _ := gatherInto_filled hpos hb hread
        refine List.ext_getElem (by simp) fun i hi hi' => ?_
        rw [List.getElem_map, List.getElem_range, ← hfill.1 i (by simpa using hi'), zero_add]

end Gather

/-! ## Rows of the table -/

/-- Among shards that have `rows` rows each, but for the last one, a row is in the
    shard that the division by `rows` gives, and this shard has it. -/
theorem concatRow_eq {rows : Nat} (hpos : 0 < rows) {shards : List Shard}
    (hrows : ∀ s ∈ shards.dropLast, s.rows = rows)
    {id : Nat} {s : Shard} (hs : shards[id / rows]? = some s)
    (hid : id < (shards.map (·.rows)).sum) :
    concatRow shards id = s.row (id % rows) ∧ id % rows < s.rows := by
  induction shards generalizing id with
  | nil => simp at hs
  | cons s₀ shards ih =>
    cases shards with
    | nil =>
      have hz : id / rows = 0 := by
        by_contra hz
        simp [hz] at hs
      have hlt : id < s₀.rows := by simpa using hid
      obtain rfl : s₀ = s := by simpa [hz] using hs
      have hmod : id % rows = id := by
        have := Nat.div_add_mod id rows
        rw [hz] at this
        omega
      rw [concatRow, if_pos hlt, hmod]
      exact ⟨rfl, hlt⟩
    | cons s₁ shards =>
      -- The first shard is not the last one, and has `rows` rows.
      rw [List.dropLast_cons_cons, List.forall_mem_cons] at hrows
      obtain ⟨h₀, hrows⟩ := hrows
      rw [concatRow, h₀]
      split_ifs with hlt
      · rw [Nat.div_eq_of_lt hlt] at hs
        obtain rfl := Option.some.inj hs
        rw [Nat.mod_eq_of_lt hlt]
        exact ⟨rfl, h₀ ▸ hlt⟩
      · have hle := not_lt.1 hlt
        have hdiv : id / rows = (id - rows) / rows + 1 := by
          rw [Nat.div_eq_sub_div hpos hle]
        rw [hdiv, List.getElem?_cons_succ] at hs
        rw [Nat.mod_eq_sub_mod hle]
        refine ih hrows hs ?_
        simp only [List.map_cons, List.sum_cons] at hid ⊢
        omega

/-- An id that is in an accepted table is at the address of its row, if it is
    located. -/
theorem rowAt_eq (ht : t.Accepted) {id : Int} (hin : t.InTable id)
    (hloc : id < (t.shards.length * t.shardRows : Nat)) : t.rowAt id = t.row id.toNat := by
  have hlt : id.toNat < (t.shards.map (·.rows)).sum := (Int.toNat_lt hin.1).2 hin.2
  have haddr : t.addr id = id.toNat := by
    have := addr_of_nonneg hin.1 hloc
    omega
  have h0 := hin.1
  obtain ⟨shard, hk, -⟩ := locate_eq (by omega) hloc
  have hpos : 0 < t.shardRows := by
    by_contra hz
    obtain hz : t.shardRows = 0 := by omega
    simp only [hz, mul_zero, Nat.cast_zero] at hloc
    omega
  rw [rowAt, hk, row, (concatRow_eq hpos ht.rows (haddr ▸ hk) hlt).1, Shard.row,
    ht.rowBytes shard (List.mem_of_getElem? hk), haddr]

/-- What is read for an id that is in an accepted table is its row. -/
theorem pread_eq_row (ht : t.Accepted) {id : Int} (hin : t.InTable id) {bytes : List UInt8}
    (hp : t.pread id = .ok bytes) : bytes = t.row id.toNat := by
  obtain ⟨hloc, rfl⟩ := pread_eq_rowAt hp
  exact rowAt_eq ht hin hloc.2

/-! ## The guard against ids outside the table -/

/-- The call returns exactly when all ids are in the table, and then the rows are
    those of the table. -/
structure Guarded (t : Table) (buf : Rows t.rowBytes) (ids : List Int) : Prop where
  returns : (∃ rows, (t.gatherCpu buf ids).2 = .ok rows) ↔ ∀ id ∈ ids, t.InTable id
  rows : ∀ rows, (t.gatherCpu buf ids).2 = .ok rows → (∀ id ∈ ids, t.InTable id) →
    rows = ids.map fun id => t.row id.toNat

/-- The buffer holds the rows already. -/
def Holds (t : Table) (buf : Rows t.rowBytes) (ids : List Int) : Prop :=
  (List.range ids.length).map buf.row = ids.map fun id => t.row id.toNat

end Table

/-- For a table that the constructor accepts, a call is guarded exactly when its
    ids are all in the table and can be served, or they are not and cannot (and
    with a negative chunk, the buffer must hold the rows already). -/
theorem gatherCpu_guarded_iff {layer : Nat} {chunkRows : Int} {dir : Checkpoint} {t : Table}
    (ht : Table.init layer chunkRows dir = .ok t) (buf : Rows t.rowBytes) (ids : List Int) :
    t.Guarded buf ids ↔ ((∀ id ∈ ids, t.InTable id) ↔ t.Served ids) ∧
      (t.chunkRows < 0 → (∀ id ∈ ids, t.InTable id) → t.Holds buf ids) := by
  have hacc := (Table.init_accepted ht).1
  constructor
  · intro h
    have hserved := h.returns.symm.trans Table.gatherCpu_ok_iff
    refine ⟨hserved, fun hneg hin => ?_⟩
    obtain ⟨rows, hrows⟩ := h.returns.2 hin
    have := Table.gatherCpu_rows hrows
    rw [if_pos hneg] at this
    rw [Table.Holds, ← this, h.rows rows hrows hin]
  · rintro ⟨hserved, hneg⟩
    refine ⟨Table.gatherCpu_ok_iff.trans hserved.symm, fun rows hrows hin => ?_⟩
    rw [Table.gatherCpu_rows hrows]
    split_ifs with hc
    · exact hneg hc hin
    · refine List.map_congr_left fun id hid => ?_
      rcases hserved.1 hin with rfl | ⟨-, hs⟩
      · cases hid
      · exact Table.rowAt_eq hacc (hin id hid) ((hs.resolve_left hc).2 id hid).2.1

/-- An empty staging buffer. -/
def Rows.zero (width : Nat) : Rows width := ⟨fun _ => List.replicate width 0, by simp⟩

/-- All its rows can be read. -/
theorem threeRows_readable (id : Nat) (hid : id < threeRows.rowsTotal) : threeRows.Readable id := by
  obtain rfl | rfl | rfl : id = 0 ∨ id = 1 ∨ id = 2 := by
    simp only [Table.rowsTotal, Table.shards, threeRows, List.map_cons, List.map_nil, List.sum_cons,
      List.sum_nil] at hid
    omega
  all_goals
    refine ⟨by decide, by decide, ?_⟩
    rintro _ ⟨⟩
    decide

/-- Ids in the table are gathered. -/
theorem threeRows_guarded : threeRows.Guarded (Rows.zero 2) [2, 0, 2] := by
  refine (gatherCpu_guarded_iff threeRows_init (Rows.zero 2) [2, 0, 2]).2
    ⟨⟨fun _ => .inr ⟨by decide, .inr ⟨by decide, ?_⟩⟩, fun _ => ?_⟩, fun h => absurd h (by decide)⟩
  · simp only [List.forall_mem_cons]
    exact ⟨threeRows_readable 2 (by decide), threeRows_readable 0 (by decide),
      threeRows_readable 2 (by decide), by simp⟩
  · simp [Table.InTable, threeRows, Table.rowsTotal, Table.shards]

/-- The id `-1`, and an id past the end, read the bytes of another tensor. -/
theorem threeRows_not_guarded :
    (threeRows.gatherCpu (Rows.zero 2) [-1]).2 = .ok [[7, 8]] ∧
    (threeRows.gatherCpu (Rows.zero 2) [3]).2 = .ok [[7, 8]] ∧
    ¬threeRows.Guarded (Rows.zero 2) [-1] ∧ ¬threeRows.Guarded (Rows.zero 2) [3] := by
  refine ⟨rfl, rfl, fun h => ?_, fun h => ?_⟩
  · have := h.returns.1 ⟨_, rfl⟩ (-1) (by simp)
    exact absurd this.1 (by decide)
  · have := h.returns.1 ⟨_, rfl⟩ 3 (by simp)
    exact absurd this.2 (by decide)

end FlashNext.Ple
