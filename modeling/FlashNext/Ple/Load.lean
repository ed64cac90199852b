import Mathlib.Algebra.Order.BigOperators.Group.List
import FlashNext.Ple.Gather

/-!
# Loading the table

The checks that `Qwen4ExpNGramEmbedding.load_weights` makes on the row shards of
a checkpoint, and the table that it then opens (`_ple_mmap_table`): shard `i`
must have the rows from `i * ceil(vocab / parts)` on, up to the next one's, as
far as the vocabulary goes.

* `mem_findShards` says where the shards of a table come from;
* `Loaded` is what a table has when the loader has accepted its checkpoint;
* its last shard is then not longer than the others (`Loaded.even`), and every row
  of such a table is read at its place (`Table.Even.locate_row`).
-/

namespace FlashNext.Ple

open Python Safetensors

/-- `ceil(vocab / parts)`: the rows of a full shard. -/
def shardSize (vocab parts : Nat) : Nat := (vocab + parts - 1) / parts

/-- `expected_rows`: the rows that shard `i` must have. -/
def expectedRows (vocab parts i : Nat) : Nat :=
  min (shardSize vocab parts) (vocab - i * shardSize vocab parts)

/-- The embedding of a layer, as far as the loader uses it. -/
structure Embedding where
  layer : Nat
  /-- `ngram_embedding.org_vocab_size`. -/
  vocab : Nat
  /-- `split_ngram_parts`. -/
  parts : Nat
  /-- `ngram_embedding.embedding_dim`. -/
  dim : Nat
  /-- `QWEN4EXP_PLE_MMAP_CHUNK`. -/
  chunkRows : Int

namespace Embedding

variable (self : Embedding)

/-- The check on one tensor of a checkpoint: it is no shard, or its number is one
    of a part and its shape the one expected. -/
def checkShard (entry : Str × Meta) : Except Err Unit :=
  match shardNumber (shardPrefix self.layer) entry.1 with
  | none => .ok ()
  | some i =>
    if self.parts ≤ i then .error .valueError
    else if entry.2.shape ≠ [expectedRows self.vocab self.parts i, self.dim] then
      .error .valueError
    else .ok ()

/-- `_ple_mmap_table`: the table, with as many rows as the vocabulary. -/
def mmapTable (dir : Checkpoint) : Except Err Table := do
  let table ← Table.init self.layer self.chunkRows dir
  if self.vocab ≠ table.rowsTotal then throw .valueError
  return table

/-- `load_weights`, on the shards of the table: the loader is given the tensors of
    the files of the checkpoint, and then opens the table. -/
def loadWeights (dir : Checkpoint) : Except Err Table := do
  let names := dir.selected
    (fun name => (shardNumber (shardPrefix self.layer) name).isSome) true
  names.forM fun name => do
    let file ← dir.open name
    file.header.forM self.checkShard
  self.mmapTable dir

end Embedding

/-! ## Where the shards come from -/

/-- What holds of the state of a loop, and is kept by every round that returns,
    holds of the state it returns. -/
theorem foldlM_invariant {ε σ α : Type} {f : σ → α → Except ε σ} {I : σ → Prop} {xs : List α}
    (h : ∀ x ∈ xs, ∀ s s', I s → f s x = .ok s' → I s') {s s' : σ} (hs : I s)
    (hf : xs.foldlM f s = .ok s') : I s' := by
  induction xs generalizing s with
  | nil => exact Except.ok.inj hf ▸ hs
  | cons x xs ih =>
    rw [List.foldlM_cons] at hf
    obtain ⟨t, ht, hf⟩ := bind_eq_ok.1 hf
    rw [List.forall_mem_cons] at h
    exact ih h.2 (h.1 s t hs ht) hf

/-- A loop without a result has returned when all of its rounds have. -/
theorem forM_eq_ok {ε α : Type} {f : α → Except ε Unit} {xs : List α}
    (h : xs.forM f = .ok ()) : ∀ x ∈ xs, f x = .ok () := by
  induction xs with
  | nil => simp
  | cons x xs ih =>
    obtain ⟨⟨⟩, hx, hxs⟩ := bind_eq_ok.1 h
    exact List.forall_mem_cons.2 ⟨hx, ih hxs⟩

/-- The tensor is that of the shard `i`. -/
structure IsShard (layer : Nat) (file : File) (entry : Str × Meta) (i : Nat) (s : Shard) :
    Prop where
  mem : entry ∈ file.header
  number : shardNumber (shardPrefix layer) entry.1 = some i
  file_eq : s.file = file
  shape : ∃ width size, entry.2.shape = [s.rows, width] ∧ dtypeBytes entry.2.dtype = some size ∧
    s.rowBytes = width * size

/-- Adding a tensor adds its shard, if it is one. -/
theorem addShard_cases {layer : Nat} {file : File} {shards shards' : List (Nat × Shard)}
    {entry : Str × Meta} (he : entry ∈ file.header)
    (h : addShard layer file shards entry = .ok shards') :
    shards' = shards ∨ ∃ i s, shards' = shards ++ [(i, s)] ∧ IsShard layer file entry i s := by
  rw [addShard] at h
  split at h
  · exact .inl (Except.ok.inj h).symm
  · rename_i i hnum
    split at h
    · rename_i rows width first last size hshape _ hsize
      split_ifs at h
      exact .inr ⟨i, _, (Except.ok.inj h).symm, he, hnum, rfl, width, size, hshape, hsize, rfl⟩
    · cases h
    · cases h

/-- The shard is that of a tensor in a file that is looked at. -/
def FromFile (layer : Nat) (dir : Checkpoint) (p : Nat × Shard) : Prop :=
  ∃ name ∈ dir.selected (fun name => (shardNumber (shardPrefix layer) name).isSome) true,
    ∃ file entry, dir.open name = .ok file ∧ IsShard layer file entry p.1 p.2

/-- The shards that are found are those of tensors in the files that are looked at. -/
theorem mem_findShards {layer : Nat} {dir : Checkpoint} {found : List (Nat × Shard)}
    (h : findShards layer dir = .ok found) : ∀ p ∈ found, FromFile layer dir p := by
  refine foldlM_invariant (I := fun found => ∀ p ∈ found, FromFile layer dir p)
    (fun name hname found found' hI hf => ?_) (by simp) h
  obtain ⟨file, hopen, hf⟩ := bind_eq_ok.1 hf
  refine foldlM_invariant (I := fun found => ∀ p ∈ found, FromFile layer dir p)
    (fun entry he found found' hI hf => ?_) hI hf
  rcases addShard_cases he hf with rfl | ⟨i, s, rfl, hs⟩
  · exact hI
  · exact List.forall_mem_append.2 ⟨hI, List.forall_mem_singleton.2
      ⟨name, hname, file, entry, hopen, hs⟩⟩

/-- What a loop that may find nothing has collected. -/
theorem mapM_eq_some {α β : Type} {f : α → Option β} {xs : List α} {ys : List β}
    (h : xs.mapM f = some ys) : ys.length = xs.length ∧
      ∀ (k : Nat) (y : β), ys[k]? = some y → ∃ x, xs[k]? = some x ∧ f x = some y := by
  induction xs generalizing ys with
  | nil =>
    obtain rfl := Option.some.inj h
    simp
  | cons x xs ih =>
    rw [List.mapM_cons, Option.bind_eq_bind, Option.bind_eq_some_iff] at h
    obtain ⟨y, hy, h⟩ := h
    obtain ⟨ys', hys, h⟩ := Option.bind_eq_some_iff.1 h
    obtain rfl := Option.some.inj h
    obtain ⟨hlen, hget⟩ := ih hys
    refine ⟨by rw [List.length_cons, hlen, List.length_cons], fun k z hz => ?_⟩
    cases k with
    | zero => exact ⟨x, rfl, by rw [hy]; exact hz⟩
    | succ k => exact hget k z hz

/-- The shards of a table are the ones that were found, in the order of their
    numbers. -/
theorem mem_found_of_init {layer : Nat} {chunkRows : Int} {dir : Checkpoint} {t : Table}
    (h : Table.init layer chunkRows dir = .ok t) :
    ∃ found, findShards layer dir = .ok found ∧ t.shards.length = found.length ∧
      ∀ k s, t.shards[k]? = some s → (k, s) ∈ found := by
  obtain ⟨found, hfound, h⟩ := bind_eq_ok.1 h
  refine ⟨found, hfound, ?_⟩
  split at h
  · cases h
  · cases h
  · rename_i first rest hshards
    split_ifs at h
    obtain rfl := Except.ok.inj h
    obtain ⟨hlen, hget⟩ := mapM_eq_some hshards
    refine ⟨by rw [Table.shards, hlen, List.length_range], fun k s hk => ?_⟩
    obtain ⟨i, hi, hs⟩ := hget k s hk
    obtain ⟨hlt, hik⟩ := List.getElem?_eq_some_iff.1 hi
    obtain rfl : k = i := by rw [← hik, List.getElem_range]
    obtain ⟨⟨j, s'⟩, hfind, rfl⟩ := Option.map_eq_some_iff.1 hs
    have hj := List.find?_some hfind
    obtain rfl : j = k := by simpa using hj
    exact List.mem_of_find?_eq_some hfind

/-! ## Tables with a short last shard -/

/-- A table whose shards have one number of rows, and the last one no more. -/
structure Table.Even (t : Table) : Prop extends t.Accepted where
  rows_le : ∀ s ∈ t.shards, s.rows ≤ t.shardRows

section Even

variable {t : Table} (ht : t.Even)
include ht

/-- All of the table can be reached by `divmod`. -/
theorem Table.Even.rowsTotal_le : t.rowsTotal ≤ t.shards.length * t.shardRows := by
  have h := List.sum_le_card_nsmul (t.shards.map (·.rows)) t.shardRows
    (List.forall_mem_map.2 ht.rows_le)
  rwa [List.length_map] at h

/-- An id of the table is its address. -/
theorem Table.Even.addr_row {id : Nat} (hid : id < t.rowsTotal) :
    (id : Int) < (t.shards.length * t.shardRows : Nat) ∧ t.addr id = id := by
  have hlt : (id : Int) < (t.shards.length * t.shardRows : Nat) := by
    have := ht.rowsTotal_le
    omega
  have := Table.addr_of_nonneg (t := t) (Int.natCast_nonneg id) hlt
  exact ⟨hlt, by omega⟩

/-- A row of the table is in the shard that `divmod` of its id gives. -/
theorem Table.Even.locate_row {id : Nat} (hid : id < t.rowsTotal) :
    0 < t.shardRows ∧ ∃ s ∈ t.shards, t.locate id = .ok (s, id % t.shardRows) ∧
      id % t.shardRows < s.rows ∧ t.shards[id / t.shardRows]? = some s ∧
      t.row id = s.row (id % t.shardRows) := by
  obtain ⟨hlt, haddr⟩ := ht.addr_row hid
  obtain ⟨s, hs, hloc⟩ := Table.locate_eq (t := t) (by omega) hlt
  have hpos : 0 < t.shardRows := by
    by_contra hz
    rw [show t.shardRows = 0 by omega, Nat.mul_zero] at hlt
    omega
  rw [haddr] at hs hloc
  obtain ⟨hrow, hin⟩ := Table.concatRow_eq hpos ht.rows hs hid
  exact ⟨hpos, s, List.mem_of_getElem? hs, hloc, hin, hs, hrow⟩

end Even

/-! ## What the loader has checked -/

/-- A table whose shards have the rows of their parts. -/
structure Loaded (emb : Embedding) (t : Table) : Prop extends t.Accepted where
  vocab : t.rowsTotal = emb.vocab
  chunkRows : t.chunkRows = emb.chunkRows
  dim : ∃ size, 0 < size ∧ t.rowBytes = emb.dim * size
  parts : t.shards.length ≤ emb.parts
  expected : ∀ k s, t.shards[k]? = some s → s.rows = expectedRows emb.vocab emb.parts k

theorem dtypeBytes_pos {dtype : Str} {size : Nat} (h : dtypeBytes dtype = some size) :
    0 < size := by
  rw [dtypeBytes] at h
  split_ifs at h <;> (obtain rfl := Option.some.inj h; decide)

/-- The table that is opened has the rows of the vocabulary. -/
theorem Embedding.mmapTable_eq_ok {self : Embedding} {dir : Checkpoint} {t : Table} :
    self.mmapTable dir = .ok t ↔
      Table.init self.layer self.chunkRows dir = .ok t ∧ t.rowsTotal = self.vocab := by
  constructor
  · intro h
    obtain ⟨t', hinit, h⟩ := bind_eq_ok.1 h
    split_ifs at h with hvocab
    · cases h
    · obtain rfl := Except.ok.inj h
      exact ⟨hinit, (not_not.1 hvocab).symm⟩
  · rintro ⟨hinit, hvocab⟩
    rw [mmapTable, hinit]
    exact if_neg (not_not.2 hvocab.symm)

/-- The loader accepts a checkpoint only with such a table. -/
theorem Embedding.loaded {self : Embedding} {dir : Checkpoint} {t : Table}
    (h : self.loadWeights dir = .ok t) : Loaded self t := by
  obtain ⟨⟨⟩, hcheck, h⟩ := bind_eq_ok.1 h
  obtain ⟨hinit, hvocab⟩ := mmapTable_eq_ok.1 h
  obtain ⟨hacc, hchunk⟩ := Table.init_accepted hinit
  obtain ⟨found, hfound, -, hmem⟩ := mem_found_of_init hinit
  -- Every shard was checked when its tensor was loaded.
  have hshard : ∀ k s, t.shards[k]? = some s → k < self.parts ∧
      s.rows = expectedRows self.vocab self.parts k ∧
      ∃ size, 0 < size ∧ s.rowBytes = self.dim * size := by
    intro k s hk
    obtain ⟨name, hname, file, entry, hopen, hs⟩ := mem_findShards hfound _ (hmem k s hk)
    have hfile := forM_eq_ok hcheck name hname
    obtain ⟨file', hopen', hentries⟩ := bind_eq_ok.1 hfile
    obtain rfl := Except.ok.inj (hopen.symm.trans hopen')
    have hentry := forM_eq_ok hentries entry hs.mem
    obtain ⟨width, size, hshape, hsize, hbytes⟩ := hs.shape
    simp only [checkShard, hs.number] at hentry
    split_ifs at hentry with hpart hexp
    simp only [hshape, ne_eq, List.cons.injEq, and_true, not_not] at hexp
    exact ⟨not_le.1 hpart, hexp.1, size, dtypeBytes_pos hsize, by rw [hbytes, hexp.2]⟩
  have hlast := hshard (t.shards.length - 1) _
    (List.getElem?_eq_getElem (Nat.sub_lt (by simp [Table.shards]) Nat.one_pos))
  obtain ⟨size, hsize, hbytes⟩ := (hshard 0 t.first rfl).2.2
  exact ⟨hacc, hvocab, hchunk, ⟨size, hsize, hbytes⟩,
    by omega, fun k s hk => (hshard k s hk).2.1⟩

section Loaded

variable {self : Embedding} {t : Table} (ht : Loaded self t)
include ht

/-- The loader accepts no shard that is longer than the first one. -/
theorem Loaded.even : t.Even := by
  refine ⟨ht.toAccepted, fun s hs => ?_⟩
  obtain ⟨k, hk, rfl⟩ := List.mem_iff_getElem.1 hs
  rw [ht.expected k _ (List.getElem?_eq_getElem hk), Table.shardRows, ht.expected 0 t.first rfl,
    expectedRows, expectedRows]
  omega

/-- A row of the table is in the shard that `divmod` of its id gives. -/
theorem Loaded.locate_row {id : Nat} (hid : id < t.rowsTotal) :
    0 < t.shardRows ∧ ∃ s ∈ t.shards, t.locate id = .ok (s, id % t.shardRows) ∧
      id % t.shardRows < s.rows ∧ t.shards[id / t.shardRows]? = some s ∧
      t.row id = s.row (id % t.shardRows) :=
  ht.even.locate_row hid

end Loaded

end FlashNext.Ple
