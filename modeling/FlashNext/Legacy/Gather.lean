import FlashNext.Chunks
import FlashNext.Returns
import FlashNext.Legacy.Table

/-!
# Gathering rows from a legacy table

`MmapPleTable._gather`: a small batch is gathered in place, shard by shard; of a
large one, the distinct ids are gathered in tasks of a thread pool, and then put
in their places.

* `MmapPleTable.returns_gather`: a call returns exactly when every id is a row
  of a mapped shard (`MmapPleTable.Has`), and then with these rows;
* `serves_iff_complete`: a table that loads serves every row id of the vocabulary
  with the row of the checkpoint, exactly when its checkpoint is complete.

The tasks write disjoint parts of a fresh array; they are run in the order in
which they are submitted.
-/

namespace FlashNext.Legacy

open Python Safetensors

/-- The row `r` of a mapped shard. -/
def Memmap.row (m : Memmap) (rowBytes r : Nat) : List UInt8 :=
  slice m.file.bytes (m.offset + r * rowBytes) rowBytes

namespace MmapPleTable

variable (t : MmapPleTable)

/-- `ids.min() < 0 or ids.max() >= shard_size * len(mm)`. -/
def outOfRange (ids : List Int) : Bool :=
  ids.any fun id => id < 0 || (t.shardSize * t.mm.length : Nat) ≤ id

/-- `self.mm[si]`. -/
def memmapAt (si : Nat) : Option Memmap := t.mm[si]?.join

/-- `self.mm[si][local]`, for the ids of the shard `si`; `missing` is what is
    raised if it is `None`. -/
def take (missing : Err) (si : Nat) (ids : List Nat) : Except Err (List (List UInt8)) :=
  match t.memmapAt si with
  | none => .error missing
  | some m =>
    let rows := ids.map (· % t.shardSize)
    if rows.any (m.rows ≤ ·) then .error .indexError else .ok (rows.map (m.row t.rowBytes))

/-- One round of the loop of a small batch: the rows of its ids of the shard `si`. -/
def round (ids : List Nat) (out : List (List UInt8)) (si : Nat) :
    Except Err (List (List UInt8)) := do
  let mask := fun id => decide (id / t.shardSize = si)
  return putMasked (ids.map mask) (← t.take .typeError si (ids.filter mask)) out

/-- The gather of a small batch, in an array `out` that `np.empty` has made. -/
def gatherFast (out : List (List UInt8)) (ids : List Nat) : Except Err (List (List UInt8)) :=
  (unique (ids.map (· / t.shardSize))).foldlM (t.round ids) out

/-- A task of the thread pool: ids of one shard. -/
def run : List Nat → Except Err (List (List UInt8))
  | [] => .ok []
  | id :: ids => t.take .indexError (id / t.shardSize) (id :: ids)

/-- The gather of a large batch, after its ids have been made unique. -/
def gatherSlow (uniq : List Nat) : Except Err (List (List UInt8)) :=
  List.flatten <$> (runChunks (· / t.shardSize) t.chunk uniq).mapM t.run

/-- `_gather`; the rows of `np.empty` are `empty`. -/
def gather (empty : Nat → List UInt8) (ids : List Int) : Except Err (List (List UInt8)) :=
  if ids = [] then .ok []
  else if ids.length ≤ t.fastRows then
    if t.outOfRange ids then .error .indexError
    else t.gatherFast ((List.range ids.length).map empty) (ids.map Int.toNat)
  else
    let uniq := unique ids
    if t.outOfRange uniq then .error .indexError
    else do
      let out ← t.gatherSlow (uniq.map Int.toNat)
      return ids.filterMap fun id => out[uniq.idxOf id]?

/-! ## What a call reads -/

/-- The id is that of a row of a mapped shard. -/
def Has (id : Nat) : Prop :=
  ∃ m, t.memmapAt (id / t.shardSize) = some m ∧ id % t.shardSize < m.rows

/-- The row that is read for the id. -/
def rowAt (id : Nat) : List UInt8 :=
  match t.memmapAt (id / t.shardSize) with
  | some m => m.row t.rowBytes (id % t.shardSize)
  | none => []

variable {t}

/-- A shard gives its rows, if it has them all. -/
theorem returns_take (missing : Err) (si : Nat) {ids : List Nat} (hne : ids ≠ [])
    (hsi : ∀ id ∈ ids, id / t.shardSize = si) :
    Returns (t.take missing si ids) (∀ id ∈ ids, t.Has id) (ids.map t.rowAt) := by
  unfold take
  cases hm : t.memmapAt si with
  | none =>
    -- There are ids, and the shard has none of them.
    refine .error missing fun h => ?_
    obtain ⟨id, hid⟩ := List.exists_mem_of_ne_nil ids hne
    obtain ⟨m, hm', -⟩ := h id hid
    rw [hsi id hid, hm] at hm'
    cases hm'
  | some m =>
    have hhas : (∀ id ∈ ids, t.Has id) ↔ ∀ id ∈ ids, id % t.shardSize < m.rows :=
      forall₂_congr fun id hid => by rw [Has, hsi id hid, hm]; simp
    have hrow : ids.map t.rowAt = (ids.map (· % t.shardSize)).map (m.row t.rowBytes) := by
      rw [List.map_map]
      exact List.map_congr_left fun id hid => by rw [rowAt, hsi id hid, hm]; rfl
    rw [hrow]
    simp only
    split_ifs with h
    · refine .error _ fun hall => ?_
      obtain ⟨id, hid, hle⟩ : ∃ id ∈ ids, m.rows ≤ id % t.shardSize := by simpa using h
      exact absurd (hhas.1 hall id hid) (not_lt.2 hle)
    · exact .ok (hhas.2 (by simpa using h))

/-- One round of a small batch fills the rows of the ids of one shard. -/
theorem returns_round {ids : List Nat} {si : Nat} (hsi : ∃ id ∈ ids, id / t.shardSize = si)
    {out : List (List UInt8)} (hlen : ids.length = out.length) :
    Returns (t.round ids out si) (∀ id ∈ ids, id / t.shardSize = si → t.Has id)
      (overlay (fun id => id / t.shardSize = si) t.rowAt ids out) := by
  obtain ⟨id, hid, hsi⟩ := hsi
  have hne : (ids.filter fun id => decide (id / t.shardSize = si)) ≠ [] :=
    List.ne_nil_of_mem (List.mem_filter.2 ⟨hid, by simpa using hsi⟩)
  have htake := (returns_take (t := t) .typeError si hne (by simp)).map
    (f := fun rows => putMasked (ids.map fun id => decide (id / t.shardSize = si)) rows out)
  exact htake.congr (by simp) fun _ => putMasked_filter hlen

/-- A small batch is gathered when its ids are rows of mapped shards. -/
theorem returns_gatherFast {ids : List Nat} {out : List (List UInt8)}
    (hlen : ids.length = out.length) :
    Returns (t.gatherFast out ids) (∀ id ∈ ids, t.Has id) (ids.map t.rowAt) := by
  have hround : ∀ si ∈ unique (ids.map (· / t.shardSize)), ∀ out : List (List UInt8),
      ids.length = out.length →
      Returns (t.round ids out si) (∀ id ∈ ids, id / t.shardSize = si → t.Has id)
        (overlay (fun id => id / t.shardSize = si) t.rowAt ids out) ∧
      ids.length = (overlay (fun id => id / t.shardSize = si) t.rowAt ids out).length :=
    fun si hsi out hlen => ⟨returns_round (by simpa using hsi) hlen, by simp [hlen]⟩
  refine (Returns.foldlM hround hlen).congr ?_ fun _ => ?_
  · constructor
    · exact fun h id hid => h _ (mem_unique.2 (List.mem_map_of_mem hid)) id hid rfl
    · exact fun h _ _ id hid _ => h id hid
  · rw [foldl_overlay hlen, overlay_of_all hlen]
    exact fun id hid => decide_eq_true (mem_unique.2 (List.mem_map_of_mem hid))

/-- A task gives the rows of its ids. -/
theorem returns_run {task : List Nat}
    (h : ∀ a ∈ task, ∀ b ∈ task, a / t.shardSize = b / t.shardSize) :
    Returns (t.run task) (∀ id ∈ task, t.Has id) (task.map t.rowAt) := by
  cases task with
  | nil => exact .ok (by simp)
  | cons id ids => exact returns_take .indexError _ (by simp) fun b hb => h b hb id (by simp)

/-- The tasks of a large batch give the rows of its ids. -/
theorem returns_gatherSlow (hc : 0 < t.chunk) (uniq : List Nat) :
    Returns (t.gatherSlow uniq) (∀ id ∈ uniq, t.Has id) (uniq.map t.rowAt) := by
  have hflat := flatten_runChunks (· / t.shardSize) hc uniq
  have htasks := Returns.mapM fun task (htask : task ∈ runChunks (· / t.shardSize) t.chunk uniq) =>
    returns_run (t := t) fun a ha b hb => eq_of_mem_runChunks htask ha hb
  refine (htasks.map (f := List.flatten)).congr ?_ fun _ => ?_
  · conv_rhs => rw [← hflat]
    simp only [List.mem_flatten]
    exact ⟨fun h id ⟨task, htask, hid⟩ => h task htask id hid,
      fun h task htask id hid => h id ⟨task, htask, hid⟩⟩
  · rw [← List.map_flatten, hflat]

/-- The range check passes when every id is in the range of the table. -/
theorem not_outOfRange_iff {ids : List Int} :
    ¬t.outOfRange ids = true ↔ ∀ id ∈ ids, 0 ≤ id ∧ id < (t.shardSize * t.mm.length : Nat) := by
  simp [outOfRange]

/-- A call returns exactly when its ids are in the range of the table, and are
    rows of mapped shards. -/
theorem returns_gather (hc : 0 < t.chunk) (empty : Nat → List UInt8) (ids : List Int) :
    Returns (t.gather empty ids)
      (∀ id ∈ ids, (0 ≤ id ∧ id < (t.shardSize * t.mm.length : Nat)) ∧ t.Has id.toNat)
      (ids.map fun id => t.rowAt id.toNat) := by
  unfold gather
  split_ifs with hnil hfast hout
  · subst hnil
    exact .ok (by simp)
  · exact .error _ fun h => not_outOfRange_iff.2 (fun id hid => (h id hid).1) hout
  · have hrange := not_outOfRange_iff.1 hout
    refine (returns_gatherFast (by simp)).congr ?_ fun _ => by simp
    rw [List.forall_mem_map]
    exact forall₂_congr fun id hid => (and_iff_right (hrange id hid)).symm
  · simp only
    split_ifs with hout
    · exact .error _ fun h =>
        not_outOfRange_iff.2 (fun id hid => (h id (mem_unique.1 hid)).1) hout
    · have hrange := not_outOfRange_iff.1 hout
      refine ((returns_gatherSlow hc _).map (f := fun out =>
        ids.filterMap fun id => out[(unique ids).idxOf id]?)).congr ?_ fun _ => ?_
      · rw [List.forall_mem_map]
        exact ⟨fun h id hid => ⟨hrange id (mem_unique.2 hid), h id (mem_unique.2 hid)⟩,
          fun h id hid => (h id (mem_unique.1 hid)).2⟩
      · -- An id is at the place of its first occurrence among the distinct ones.
        have hrow : ∀ id ∈ ids, (((unique ids).map Int.toNat).map t.rowAt)[(unique ids).idxOf id]? =
            some (t.rowAt id.toNat) := fun id hid => by
          have hlt := List.idxOf_lt_length_of_mem (mem_unique.2 hid)
          simp [hlt]
        rw [List.filterMap_congr hrow, ← List.filterMap_eq_map]
        rfl

end MmapPleTable

/-! ## What the checkpoint has -/

/-- The row `r` of a shard tensor, if it is one of its rows and in the file. -/
def Listing.row? (l : Listing) (r : Nat) : Option (List UInt8) :=
  if r < l.rows ∧ l.offset + r * l.rowBytes + l.rowBytes ≤ l.file.bytes.length then
    some (slice l.file.bytes (l.offset + r * l.rowBytes) l.rowBytes)
  else none

/-- `row` is the row `id` of the checkpoint: it has the shard `id / size`, and
    the row is there wherever the shard is listed. -/
def IsRow (ls : List (Nat × Listing)) (size id : Nat) (row : List UInt8) : Prop :=
  (∃ l, (id / size, l) ∈ ls) ∧ ∀ l, (id / size, l) ∈ ls → l.row? (id % size) = some row

/-- The table serves every row of the vocabulary. -/
def MmapPleTable.Serves (t : MmapPleTable) (vocab : Nat) (ls : List (Nat × Listing)) : Prop :=
  ∀ (empty : Nat → List UInt8) (ids : List Int), (∀ id ∈ ids, 0 ≤ id ∧ id < vocab) →
    ∃ rows, t.gather empty ids = .ok rows ∧
      List.Forall₂ (fun id row => IsRow ls t.shardSize id.toNat row) ids rows

/-- The checkpoint is complete for the vocabulary: it has every shard up to its
    end, and wherever one is listed it has the width of the module and the same
    rows. -/
structure Complete (ple : Setup) (size : Nat) (ls : List (Nat × Listing)) : Prop where
  listed : ∀ i, i * size < ple.vocab → ∃ l, (i, l) ∈ ls
  width : ∀ i l, (i, l) ∈ ls → i * size < ple.vocab → l.cols = ple.headDim
  agree : ∀ i l l', (i, l) ∈ ls → (i, l') ∈ ls →
    ∀ r < expectedRows ple.vocab size i, l.row? r = l'.row? r

theorem mem_of_lastListing {ls : List (Nat × Listing)} {i : Nat} {l : Listing}
    (h : lastListing ls i = some l) : (i, l) ∈ ls := by
  obtain ⟨⟨j, l'⟩, hlast, rfl⟩ := Option.map_eq_some_iff.1 h
  obtain ⟨hmem, hj⟩ := List.mem_filter.1 (List.mem_of_getLast? hlast)
  obtain rfl : j = i := by simpa using hj
  exact hmem

theorem exists_lastListing {ls : List (Nat × Listing)} {i : Nat} {l : Listing} (h : (i, l) ∈ ls) :
    ∃ l', lastListing ls i = some l' := by
  have hne : ls.filter (·.1 = i) ≠ [] := List.ne_nil_of_mem (List.mem_filter.2 ⟨h, by simp⟩)
  exact ⟨_, by rw [lastListing, List.getLast?_eq_some_getLast hne]; rfl⟩

/-- A row id is in the shard that the division gives, at a row that it must have. -/
theorem mod_lt_expectedRows {vocab size id : Nat} (hsize : 0 < size) (hid : id < vocab) :
    id % size < expectedRows vocab size (id / size) := by
  have := Nat.mod_lt id hsize
  have := Nat.div_add_mod' id size
  rw [expectedRows]
  omega

section Loaded

variable {self : Setup} {ls : List (Nat × Listing)} {t : MmapPleTable} {id : Nat}

/-- A table that loads has the ids of the last listings. -/
theorem Loaded.has (ht : Loaded self ls t) (hsize : 0 < t.shardSize) (hid : id < self.vocab)
    {l : Listing} (hl : lastListing ls (id / t.shardSize) = some l) :
    id < t.shardSize * t.mm.length ∧ t.Has id := by
  have hm : t.memmapAt (id / t.shardSize) = some ⟨l.file, l.offset, l.rows⟩ := by
    rw [MmapPleTable.memmapAt, ht.mm, hl]
    rfl
  refine ⟨?_, _, hm, ?_⟩
  · -- The list of the shards goes up to the highest number.
    have hlt : id / t.shardSize < t.mm.length := by
      by_contra hle
      simp [MmapPleTable.memmapAt, List.getElem?_eq_none (not_lt.1 hle)] at hm
    rw [Nat.mul_comm]
    exact (Nat.div_lt_iff_lt_mul hsize).1 hlt
  · rw [(ht.rows _ _ hl).1]
    exact mod_lt_expectedRows hsize hid

/-- What is read for an id is a row of the last listing of its shard, if that has
    the width of the table. -/
theorem Loaded.row?_eq (ht : Loaded self ls t) (hhas : t.Has id) :
    ∃ l, lastListing ls (id / t.shardSize) = some l ∧ (t.rowAt id).length = t.rowBytes ∧
      (l.rowBytes = t.rowBytes → l.row? (id % t.shardSize) = some (t.rowAt id)) := by
  obtain ⟨m, hm, hr⟩ := hhas
  have hlast := hm
  rw [MmapPleTable.memmapAt, ht.mm] at hlast
  obtain ⟨l, hl, rfl⟩ := Option.map_eq_some_iff.1 hlast
  have hend : l.offset + id % t.shardSize * t.rowBytes + t.rowBytes ≤ l.file.bytes.length := by
    have := Nat.mul_le_mul_right t.rowBytes (Nat.succ_le_of_lt hr)
    have := (ht.rows _ _ hl).2
    rw [Nat.succ_mul] at *
    simp only at *
    omega
  have hrow : t.rowAt id =
      slice l.file.bytes (l.offset + id % t.shardSize * t.rowBytes) t.rowBytes := by
    rw [MmapPleTable.rowAt, hm]
    rfl
  refine ⟨l, hl, ?_, fun hwidth => ?_⟩
  · rw [hrow, length_slice]
    omega
  · rw [Listing.row?, hwidth, if_pos ⟨hr, hend⟩, hrow]

/-- A complete checkpoint has shards of at least one row, if there are any ids: it
    lists only so many of them. -/
theorem Complete.shardSize_pos {size : Nat} (h : Complete self size ls) (hid : id < self.vocab) :
    0 < size := by
  by_contra hzero
  obtain rfl : size = 0 := by omega
  obtain ⟨l, hl⟩ := h.listed ((ls.map (·.1)).max?.getD 0 + 1) (by omega)
  have := List.le_max?_getD_of_mem (k := 0) (List.mem_map_of_mem (f := (·.1)) hl)
  omega

/-- The first row of a shard that the vocabulary reaches is in the vocabulary. -/
theorem mul_add_div_mod (size i : Nat) {r : Nat} (hr : r < size) :
    (i * size + r) / size = i ∧ (i * size + r) % size = r := by
  constructor
  · rw [Nat.mul_comm, Nat.mul_add_div (by omega), Nat.div_eq_of_lt hr, Nat.add_zero]
  · rw [Nat.mul_comm, Nat.mul_add_mod, Nat.mod_eq_of_lt hr]

/-- A complete checkpoint is served. -/
theorem Loaded.serves (ht : Loaded self ls t) (h : Complete self t.shardSize ls) :
    t.Serves self.vocab ls := by
  intro empty ids hids
  have hrow : ∀ id : Int, 0 ≤ id → id < self.vocab →
      id < (t.shardSize * t.mm.length : Nat) ∧ t.Has id.toNat ∧
        IsRow ls t.shardSize id.toNat (t.rowAt id.toNat) := fun id h0 hid => by
    lift id to ℕ using h0
    rw [Int.toNat_natCast]
    have hid : id < self.vocab := by exact_mod_cast hid
    have hsize := h.shardSize_pos hid
    have hreach : id / t.shardSize * t.shardSize < self.vocab :=
      (Nat.div_mul_le_self _ _).trans_lt hid
    obtain ⟨l, hl⟩ := h.listed _ hreach
    obtain ⟨l', hl'⟩ := exists_lastListing hl
    obtain ⟨hlt, hhas⟩ := ht.has hsize hid hl'
    -- The row is read in the last listing; the others have the same row.
    refine ⟨by exact_mod_cast hlt, hhas, ⟨l, hl⟩, fun l₁ hl₁ => ?_⟩
    obtain ⟨l₂, hl₂, -, hrow⟩ := ht.row?_eq hhas
    have hmem := mem_of_lastListing hl₂
    rw [h.agree _ l₁ l₂ hl₁ hmem _ (mod_lt_expectedRows hsize hid), hrow]
    obtain ⟨item, -, hbytes, hl₂⟩ := ht.rowBytes _ hmem
    rw [hl₂, hbytes, h.width _ _ hmem hreach]
  have hgather := (MmapPleTable.returns_gather ht.chunk empty ids).eq_ok fun id hid =>
    ⟨⟨(hids id hid).1, (hrow id (hids id hid).1 (hids id hid).2).1⟩,
      (hrow id (hids id hid).1 (hids id hid).2).2.1⟩
  refine ⟨_, hgather, ?_⟩
  rw [List.forall₂_map_right_iff, List.forall₂_same]
  exact fun id hid => (hrow id (hids id hid).1 (hids id hid).2).2.2

/-- What is served for an id is its row. -/
theorem Loaded.isRow_of_serves (ht : Loaded self ls t) (h : t.Serves self.vocab ls)
    (hid : id < self.vocab) :
    0 < t.shardSize ∧ t.Has id ∧ IsRow ls t.shardSize id (t.rowAt id) := by
  obtain ⟨rows, hrows, hrow⟩ := h (fun _ => []) [(id : Int)] (by simpa using hid)
  obtain ⟨hhas, rfl⟩ := (MmapPleTable.returns_gather ht.chunk _ _ rows).1 hrows
  obtain ⟨⟨-, hlt⟩, hhas⟩ := hhas id (by simp)
  have hpos := Nat.zero_lt_of_lt (Int.ofNat_lt.1 hlt)
  refine ⟨Nat.pos_of_mul_pos_right hpos, by simpa using hhas, ?_⟩
  simpa using hrow

/-- A checkpoint that is served is complete. -/
theorem Loaded.complete (ht : Loaded self ls t) (h : t.Serves self.vocab ls) :
    Complete self t.shardSize ls := by
  -- The shard `i` has its row `r` in the id `i * size + r`.
  have hrow : ∀ i r, r < expectedRows self.vocab t.shardSize i →
      ∃ row : List UInt8, row.length = t.rowBytes ∧ (∃ l, (i, l) ∈ ls) ∧
        ∀ l, (i, l) ∈ ls → l.row? r = some row := fun i r hr => by
    rw [expectedRows] at hr
    obtain ⟨-, hhas, hrow⟩ := ht.isRow_of_serves h (show i * t.shardSize + r < self.vocab by omega)
    obtain ⟨-, -, hlen, -⟩ := ht.row?_eq hhas
    obtain ⟨hdiv, hmod⟩ := mul_add_div_mod t.shardSize i (r := r) (by omega)
    rw [IsRow, hdiv, hmod] at hrow
    exact ⟨_, hlen, hrow⟩
  have hfirst : ∀ i, i * t.shardSize < self.vocab → 0 < expectedRows self.vocab t.shardSize i :=
    fun i hi => by
      have := (ht.isRow_of_serves h hi).1
      rw [expectedRows]
      omega
  refine ⟨fun i hi => ?_, fun i l hl hi => ?_, fun i l l' hl hl' r hr => ?_⟩
  · obtain ⟨row, -, hlisted, -⟩ := hrow i 0 (hfirst i hi)
    exact hlisted
  · -- The first row of the shard has the size that the width gives.
    obtain ⟨row, hlen, -, hrow⟩ := hrow i 0 (hfirst i hi)
    have hl₀ := hrow l hl
    rw [Listing.row?] at hl₀
    split_ifs at hl₀ with hend
    obtain rfl := Option.some.inj hl₀
    rw [length_slice] at hlen
    obtain ⟨item, hitem, hbytes, hcols⟩ := ht.rowBytes _ hl
    refine Nat.eq_of_mul_eq_mul_right hitem ?_
    rw [← hbytes, ← hcols]
    simp only
    omega
  · obtain ⟨row, -, -, hrow⟩ := hrow i r hr
    rw [hrow l hl, hrow l' hl']

end Loaded

/-- A legacy table that loads serves every row of the vocabulary exactly when its
    checkpoint is complete. -/
theorem serves_iff_complete {self : Setup} {dir : Checkpoint} {t : MmapPleTable}
    (h : setupTable self dir = .ok t) :
    t.Serves self.vocab (listings self.layer dir) ↔
      Complete self t.shardSize (listings self.layer dir) :=
  ⟨(loaded_of_setupTable h).complete, (loaded_of_setupTable h).serves⟩

/-! ## Samples -/

/-- A module with a vocabulary of two rows of two numbers, in two parts. -/
def twoRows : Setup where
  layer := 0
  headDim := 2
  parts := 2
  vocab := 2
  hasScale := false
  chunk := 2048
  fastRows := 512

/-- A file with the shards `0` and `1`, of the widths `w₀` and `w₁`. -/
def shardsFile (w₀ w₁ : Nat) : File where
  name := "a.safetensors"
  header := [
    (str "layers.0.ple.ple_embedding.ngram_embedding.shard_0.weight",
      ⟨"BF16", [1, w₀], [0, 2 * w₀]⟩),
    (str "layers.0.ple.ple_embedding.ngram_embedding.shard_1.weight",
      ⟨"BF16", [1, w₁], [2 * w₀, 2 * w₀ + 2 * w₁]⟩)]
  base := 1
  bytes := [0, 1, 2, 3, 4, 5, 6, 7, 8, 9, 10, 11, 12]

/-- A file with the shard `0` only. -/
def partFile : File where
  name := "a.safetensors"
  header :=
    [(str "layers.0.ple.ple_embedding.ngram_embedding.shard_0.weight", ⟨"BF16", [1, 2], [0, 4]⟩)]
  base := 1
  bytes := [0, 1, 2, 3, 4]

/-- The table that is made from shards of one row at `offsets` in a file. -/
def tableAt (file : File) (offsets : List Nat) : MmapPleTable where
  shardSize := 1
  rowBytes := 4
  mm := offsets.map fun offset => some ⟨file, offset, 1⟩
  chunk := 2048
  fastRows := 512

theorem shardSize_twoRows : shardSize 2 2 = .ok 1 := by
  have hlt : ¬(2 : ℚ) ^ 1024 ≤ 1 := not_le.2 (one_lt_pow₀ (by norm_num) (by norm_num))
  rw [shardSize, if_neg (by decide), show ((2 : Nat) : ℚ) / (2 : Nat) = 1 by norm_num]
  simp [hlt]

/-- Two shards of the width of the module. -/
theorem setupTable_shardsFile :
    setupTable twoRows ⟨none, [shardsFile 2 2]⟩ = .ok (tableAt (shardsFile 2 2) [1, 5]) := by
  simp only [setupTable, mapShards,
    show shardSize twoRows.vocab twoRows.parts = .ok 1 from shardSize_twoRows]
  rfl

/-- A first shard of twice the width loads. -/
theorem setupTable_shardsFile_wide :
    setupTable twoRows ⟨none, [shardsFile 4 2]⟩ = .ok (tableAt (shardsFile 4 2) [1, 9]) := by
  simp only [setupTable, mapShards,
    show shardSize twoRows.vocab twoRows.parts = .ok 1 from shardSize_twoRows]
  rfl

/-- A part of the shards loads. -/
theorem setupTable_partFile :
    setupTable twoRows ⟨none, [partFile]⟩ = .ok (tableAt partFile [1]) := by
  simp only [setupTable, mapShards,
    show shardSize twoRows.vocab twoRows.parts = .ok 1 from shardSize_twoRows]
  rfl

/-- The shard tensors of the file with two shards. -/
theorem listings_shardsFile (w₀ w₁ : Nat) : listings 0 ⟨none, [shardsFile w₀ w₁]⟩ =
    [(0, ⟨shardsFile w₀ w₁, 1, 1, w₀, "BF16"⟩),
      (1, ⟨shardsFile w₀ w₁, 1 + 2 * w₀, 1, w₁, "BF16"⟩)] := by
  rfl

/-- Two shards of the width of the module are served. -/
theorem twoRows_serves :
    (tableAt (shardsFile 2 2) [1, 5]).Serves 2 (listings 0 ⟨none, [shardsFile 2 2]⟩) := by
  refine (serves_iff_complete setupTable_shardsFile).2 ?_
  rw [show listings twoRows.layer ⟨none, [shardsFile 2 2]⟩ = _ from listings_shardsFile 2 2]
  refine ⟨fun i hi => ?_, fun i l hl _ => ?_, fun i l l' hl hl' r _ => ?_⟩
  · obtain rfl | rfl : i = 0 ∨ i = 1 := by
      simp only [twoRows, tableAt] at hi
      omega
    · exact ⟨_, .head _⟩
    · exact ⟨_, .tail _ (.head _)⟩
  · obtain ⟨-, rfl⟩ | ⟨-, rfl⟩ : (i = 0 ∧ l = _) ∨ (i = 1 ∧ l = _) := by simpa using hl
    · rfl
    · rfl
  · simp only [List.mem_cons, Prod.mk.injEq, List.not_mem_nil, or_false] at hl hl'
    rcases hl with ⟨rfl, rfl⟩ | ⟨rfl, rfl⟩ <;> rcases hl' with ⟨hi, rfl⟩ | ⟨hi, rfl⟩
    · rfl
    · cases hi
    · cases hi
    · rfl

/-- A part of the shards loads, and its other rows raise; a first shard of twice
    the width loads, and its row is cut off. -/
theorem twoRows_not_serves :
    setupTable twoRows ⟨none, [partFile]⟩ = .ok (tableAt partFile [1]) ∧
    ¬(tableAt partFile [1]).Serves 2 (listings 0 ⟨none, [partFile]⟩) ∧
    setupTable twoRows ⟨none, [shardsFile 4 2]⟩ = .ok (tableAt (shardsFile 4 2) [1, 9]) ∧
    ¬(tableAt (shardsFile 4 2) [1, 9]).Serves 2 (listings 0 ⟨none, [shardsFile 4 2]⟩) := by
  refine ⟨setupTable_partFile, fun h => ?_, setupTable_shardsFile_wide, fun h => ?_⟩
  · obtain ⟨rows, hrows, -⟩ := h (fun _ => []) [1] (by simp)
    cases hrows
  · obtain ⟨rows, hrows, hrow⟩ := h (fun _ => []) [0] (by simp)
    obtain rfl : rows = [[1, 2, 3, 4]] := (Except.ok.inj (hrows.symm.trans rfl))
    rw [listings_shardsFile] at hrow
    have := (List.forall₂_cons.1 hrow).1.2 _ (.head _)
    cases this

end FlashNext.Legacy
