import FlashNext.Ple.Resident

/-!
# The stock placement

The stock loader puts the rows of shard `i` at the indices from
`i * ceil(vocab / parts)` on, however many rows the last shards have: they may be
short, or empty. The table on disk addresses them by `divmod` with the rows of
the first shard, and its constructor refuses shards of other lengths before the
last one.

`agrees_with_stock_iff` says for which vocabularies and parts the two agree on a
checkpoint that has all the shards: those where only the last shard is short.
-/

namespace FlashNext.Ple

open Python Safetensors

/-! ## Checkpoints with all shards -/

/-- The tensor of a shard: its number, its file, and what the header says. -/
structure ShardTensor where
  number : Nat
  file : File
  info : Meta

/-- The tensors of shards among some tensors of a file. -/
def entryTensors (layer : Nat) (file : File) (entries : List (Str × Meta)) : List ShardTensor :=
  entries.filterMap fun e =>
    (shardNumber (shardPrefix layer) e.1).map fun i => ⟨i, file, e.2⟩

/-- The tensors of shards in a file of a checkpoint. -/
def fileTensors (layer : Nat) (dir : Checkpoint) (name : Str) : List ShardTensor :=
  match dir.open name with
  | .ok file => entryTensors layer file file.header
  | .error _ => []

/-- The tensors of the shards of a checkpoint. -/
def shardTensors (layer : Nat) (dir : Checkpoint) : List ShardTensor :=
  (dir.selected (fun name => (shardNumber (shardPrefix layer) name).isSome) true).flatMap
    (fileTensors layer dir)

/-- The geometry of a table: its layer, the vocabulary, the parts, and the width and
    the type of its rows. -/
structure Geometry where
  layer : Nat
  vocab : Nat
  parts : Nat
  width : Nat
  dtype : Str
  /-- The bytes of a number of the type. -/
  size : Nat
  size_eq : dtypeBytes dtype = some size

variable {g : Geometry}

/-- The tensor has the shape that the loader requires, and its bytes. -/
structure Geometry.Fits (g : Geometry) (w : ShardTensor) : Prop where
  dtype : w.info.dtype = g.dtype
  shape : w.info.shape = [expectedRows g.vocab g.parts w.number, g.width]
  offsets : ∃ first, w.info.offsets =
      [first, first + expectedRows g.vocab g.parts w.number * (g.width * g.size)] ∧
    w.file.base + first + expectedRows g.vocab g.parts w.number * (g.width * g.size) ≤
      w.file.bytes.length

/-- A checkpoint that has each of the shards once. -/
structure Geometry.Holds (g : Geometry) (dir : Checkpoint) : Prop where
  opens : ∀ name ∈ dir.selected
    (fun name => (shardNumber (shardPrefix g.layer) name).isSome) true,
      ∃ file, dir.open name = .ok file
  numbers : ((shardTensors g.layer dir).map (·.number)).Perm (List.range g.parts)
  fits : ∀ w ∈ shardTensors g.layer dir, g.Fits w

/-- The shard of a tensor. -/
def Geometry.shard (g : Geometry) (w : ShardTensor) : Shard where
  file := w.file
  offset := w.file.base + w.info.offsets.headD 0
  rows := expectedRows g.vocab g.parts w.number
  rowBytes := g.width * g.size
  dtype := g.dtype

/-- The weight that the stock loader makes: the rows of each tensor, in the order in
    which they come, from `checkpoint_start` on. -/
def Geometry.stockWeight (g : Geometry) (tensors : List ShardTensor) : Nat → List UInt8 :=
  tensors.foldl (fun weight w =>
    let start := w.number * shardSize g.vocab g.parts
    fun id => if start ≤ id ∧ id < start + (g.shard w).rows then (g.shard w).row (id - start)
      else weight id) fun _ => []

/-- The table on disk is made for the checkpoint, has the vocabulary as its rows, and
    gives for its ids the rows that the stock loader places there. -/
def Geometry.AgreesWithStock (g : Geometry) (chunkRows : Int) (dir : Checkpoint) : Prop :=
  ∃ t, Table.init g.layer chunkRows dir = .ok t ∧ t.rowsTotal = g.vocab ∧
    ∀ ids : List Int, (∀ id ∈ ids, 0 ≤ id ∧ id < g.vocab) → ∀ buf : Rows t.rowBytes,
      (t.gatherCpu buf ids).2 =
        .ok (ids.map fun id => g.stockWeight (shardTensors g.layer dir) id.toNat)

/-! ## What is found -/

theorem addShard_of_fits {file : File} {entry : Str × Meta} {i : Nat}
    (hnum : shardNumber (shardPrefix g.layer) entry.1 = some i) (hfit : g.Fits ⟨i, file, entry.2⟩)
    {shards : List (Nat × Shard)} (hnew : i ∉ shards.map (·.1)) :
    addShard g.layer file shards entry = .ok (shards ++ [(i, g.shard ⟨i, file, entry.2⟩)]) := by
  obtain ⟨first, hoffsets, -⟩ := hfit.offsets
  have hshape := hfit.shape
  have hdtype := hfit.dtype
  simp only at hoffsets hshape hdtype
  have hcontains : (shards.map (·.1)).contains i = false := by
    simpa [List.contains_iff_mem] using hnew
  simp only [addShard, hnum, hshape, hoffsets, hdtype, g.size_eq]
  rw [if_neg (by simp), hcontains, if_neg (by simp), Geometry.shard]
  simp [hoffsets]

/-- The tensors of a file are added in their order. -/
theorem foldlM_addShard {file : File} {entries : List (Str × Meta)}
    (hfits : ∀ w ∈ entryTensors g.layer file entries, g.Fits w) {shards : List (Nat × Shard)}
    (hnodup : (shards.map (·.1) ++
      (entryTensors g.layer file entries).map (·.number)).Nodup) :
    entries.foldlM (addShard g.layer file) shards =
      .ok (shards ++ (entryTensors g.layer file entries).map fun w => (w.number, g.shard w)) := by
  induction entries generalizing shards with
  | nil => simp [entryTensors, pure, Except.pure]
  | cons entry entries ih =>
    rw [List.foldlM_cons]
    cases hnum : shardNumber (shardPrefix g.layer) entry.1 with
    | none =>
      have htail : entryTensors g.layer file (entry :: entries) =
          entryTensors g.layer file entries := by simp [entryTensors, hnum]
      rw [htail] at hfits hnodup ⊢
      rw [addShard, hnum]
      exact ih hfits hnodup
    | some i =>
      have htail : entryTensors g.layer file (entry :: entries) =
          ⟨i, file, entry.2⟩ :: entryTensors g.layer file entries := by simp [entryTensors, hnum]
      rw [htail] at hfits hnodup ⊢
      rw [List.forall_mem_cons] at hfits
      -- No tensor so far has the same number.
      have hnew : i ∉ shards.map (·.1) := fun hmem =>
        (List.nodup_append.1 hnodup).2.2 i hmem i (by simp) rfl
      rw [addShard_of_fits hnum hfits.1 hnew]
      refine (ih hfits.2 ?_).trans ?_
      · simpa [List.append_assoc] using hnodup
      · simp

/-- The tensors of some files are added in their order. -/
theorem foldlM_files {dir : Checkpoint} {names : List Str}
    (hopen : ∀ name ∈ names, ∃ file, dir.open name = .ok file)
    (hfits : ∀ w ∈ names.flatMap (fileTensors g.layer dir), g.Fits w) {shards : List (Nat × Shard)}
    (hnodup : (shards.map (·.1) ++
      (names.flatMap (fileTensors g.layer dir)).map (·.number)).Nodup) :
    names.foldlM (fun shards name => do
      let file ← dir.open name
      file.header.foldlM (addShard g.layer file) shards) shards =
    .ok (shards ++ (names.flatMap (fileTensors g.layer dir)).map
      fun w => (w.number, g.shard w)) := by
  induction names generalizing shards with
  | nil => simp [pure, Except.pure]
  | cons name names ih =>
    rw [List.forall_mem_cons] at hopen
    obtain ⟨file, hfile⟩ := hopen.1
    have hhead : fileTensors g.layer dir name = entryTensors g.layer file file.header := by
      rw [fileTensors, hfile]
    rw [List.flatMap_cons, hhead] at hfits hnodup ⊢
    rw [List.forall_mem_append] at hfits
    -- The tensors of the first file come behind those so far.
    rw [List.map_append, ← List.append_assoc] at hnodup
    have hstep : (do
        let file ← dir.open name
        file.header.foldlM (addShard g.layer file) shards) =
          .ok (shards ++ (entryTensors g.layer file file.header).map
            fun w => (w.number, g.shard w)) := by
      rw [hfile]
      exact foldlM_addShard hfits.1 (List.nodup_append.1 hnodup).1
    rw [List.foldlM_cons, hstep]
    refine (ih hopen.2 hfits.2 ?_).trans ?_
    · simpa [List.map_append, Function.comp_def] using hnodup
    · simp

/-- The shards of such a checkpoint are found. -/
theorem findShards_of_holds {dir : Checkpoint} (h : g.Holds dir) :
    findShards g.layer dir =
      .ok ((shardTensors g.layer dir).map fun w => (w.number, g.shard w)) :=
  @foldlM_files g dir _ h.opens h.fits [] (h.numbers.nodup_iff.2 List.nodup_range)

/-- The tensor of a part. -/
theorem exists_tensor {dir : Checkpoint} (h : g.Holds dir) {i : Nat} (hi : i < g.parts) :
    ∃ w ∈ shardTensors g.layer dir, w.number = i :=
  List.mem_map.1 (h.numbers.mem_iff.2 (List.mem_range.2 hi))

/-- The numbers of tensors are different. -/
theorem eq_of_number_eq {dir : Checkpoint} (h : g.Holds dir) {w w' : ShardTensor}
    (hw : w ∈ shardTensors g.layer dir) (hw' : w' ∈ shardTensors g.layer dir)
    (heq : w.number = w'.number) : w = w' :=
  List.inj_on_of_nodup_map (h.numbers.nodup_iff.2 List.nodup_range) hw hw' heq

/-! ## The stock weight -/

/-- The rows of the parts up to `n`, as far as the vocabulary goes. -/
theorem sum_expectedRows (vocab parts n : Nat) :
    ((List.range n).map (expectedRows vocab parts)).sum =
      min (n * shardSize vocab parts) vocab := by
  induction n with
  | zero => simp
  | succ n ih =>
    rw [List.range_succ, List.map_append, List.sum_append, ih, List.map_singleton,
      List.sum_singleton, expectedRows, Nat.succ_mul]
    omega

/-- An index is in the rows of the part that the division by the rows of a full
    shard gives, and of no other. -/
theorem placed_iff {vocab parts id : Nat} (hid : id < vocab) (hs : 0 < shardSize vocab parts)
    (i : Nat) : i * shardSize vocab parts ≤ id ∧
      id < i * shardSize vocab parts + expectedRows vocab parts i ↔
        i = id / shardSize vocab parts := by
  have hdiv := Nat.div_add_mod id (shardSize vocab parts)
  have hmod := Nat.mod_lt id hs
  rw [Nat.mul_comm] at hdiv
  rw [expectedRows]
  constructor
  · rintro ⟨hle, hlt⟩
    refine (Nat.div_eq_of_lt_le hle ?_).symm
    rw [Nat.succ_mul]
    omega
  · rintro rfl
    omega

/-- The stock weight at an index is the row of its part. -/
theorem stockWeight_eq {dir : Checkpoint} (h : g.Holds dir) {id : Nat} (hid : id < g.vocab)
    (hs : 0 < shardSize g.vocab g.parts) {w : ShardTensor} (hw : w ∈ shardTensors g.layer dir)
    (hnum : w.number = id / shardSize g.vocab g.parts) :
    g.stockWeight (shardTensors g.layer dir) id =
      (g.shard w).row (id % shardSize g.vocab g.parts) := by
  have key : ∀ ws : List ShardTensor, (∀ v ∈ ws, v ∈ shardTensors g.layer dir) → w ∈ ws →
      g.stockWeight ws id = (g.shard w).row (id % shardSize g.vocab g.parts) := by
    -- The part that is copied last decides, and no two have the same number.
    intro ws hws hmem
    induction ws using List.reverseRecOn with
    | nil => cases hmem
    | append_singleton ws v ih =>
      rw [List.forall_mem_append, List.forall_mem_singleton] at hws
      have hplaced : v.number * shardSize g.vocab g.parts ≤ id ∧
          id < v.number * shardSize g.vocab g.parts + (g.shard v).rows ↔
            v.number = id / shardSize g.vocab g.parts := placed_iff hid hs v.number
      rw [Geometry.stockWeight, List.foldl_append, List.foldl_cons, List.foldl_nil]
      by_cases hv : v = w
      · subst hv
        have hsub : id - v.number * shardSize g.vocab g.parts =
            id % shardSize g.vocab g.parts := by
          have := Nat.div_add_mod id (shardSize g.vocab g.parts)
          rw [hnum, Nat.mul_comm]
          omega
        rw [if_pos (hplaced.2 hnum), hsub]
      · have hne : ¬v.number = id / shardSize g.vocab g.parts := fun he =>
          hv (eq_of_number_eq h hws.2 hw (he.trans hnum.symm))
        rw [if_neg (mt hplaced.1 hne)]
        exact ih hws.1 ((List.mem_append.1 hmem).resolve_right fun hmem =>
          hv (List.mem_singleton.1 hmem).symm)
  exact key _ (fun _ hv => hv) hw

/-! ## The table -/

theorem exists_mapM {α β : Type} (f : α → Option β) (xs : List α)
    (h : ∀ x ∈ xs, ∃ y, f x = some y) : ∃ ys, xs.mapM f = some ys := by
  induction xs with
  | nil => exact ⟨[], rfl⟩
  | cons x xs ih =>
    rw [List.forall_mem_cons] at h
    obtain ⟨y, hy⟩ := h.1
    obtain ⟨ys, hys⟩ := ih h.2
    exact ⟨y :: ys, by rw [List.mapM_cons, hy, hys]; rfl⟩

/-- The shards, by their numbers. -/
def Geometry.found (g : Geometry) (dir : Checkpoint) : List (Nat × Shard) :=
  (shardTensors g.layer dir).map fun w => (w.number, g.shard w)

theorem length_found {dir : Checkpoint} (h : g.Holds dir) : (g.found dir).length = g.parts := by
  have hlen := h.numbers.length_eq
  rw [List.length_map, List.length_range] at hlen
  rw [Geometry.found, List.length_map, hlen]

/-- The shards are those of the parts of a checkpoint, in their order. -/
structure Geometry.Sorted (g : Geometry) (dir : Checkpoint) (shards : List Shard) : Prop where
  length : shards.length = g.parts
  tensor : ∀ i s, shards[i]? = some s →
    ∃ w ∈ shardTensors g.layer dir, w.number = i ∧ s = g.shard w

section Sorted

variable {dir : Checkpoint} {shards : List Shard}

/-- Each of them is the shard of a tensor. -/
theorem Geometry.Sorted.exists_tensor (hsorted : g.Sorted dir shards) {s : Shard}
    (hs : s ∈ shards) : ∃ w ∈ shardTensors g.layer dir, s = g.shard w := by
  obtain ⟨i, hi⟩ := List.mem_iff_getElem?.1 hs
  obtain ⟨w, hw, -, heq⟩ := hsorted.tensor i s hi
  exact ⟨w, hw, heq⟩

/-- Each has the rows of its part. -/
theorem Geometry.Sorted.rows (hsorted : g.Sorted dir shards) {i : Nat} {s : Shard}
    (hs : shards[i]? = some s) : s.rows = expectedRows g.vocab g.parts i := by
  obtain ⟨w, -, rfl, rfl⟩ := hsorted.tensor i s hs
  rfl

/-- All have one width. -/
theorem Geometry.Sorted.rowBytes (hsorted : g.Sorted dir shards) {s : Shard} (hs : s ∈ shards) :
    s.rowBytes = g.width * g.size := by
  obtain ⟨w, -, rfl⟩ := hsorted.exists_tensor hs
  rfl

/-- All have one type. -/
theorem Geometry.Sorted.dtype (hsorted : g.Sorted dir shards) {s : Shard} (hs : s ∈ shards) :
    s.dtype = g.dtype := by
  obtain ⟨w, -, rfl⟩ := hsorted.exists_tensor hs
  rfl

end Sorted

/-- There is a shard for each number. -/
theorem sorted_shards {dir : Checkpoint} (h : g.Holds dir) : ∃ shards : List Shard,
    (List.range (g.found dir).length).mapM
      (fun i => ((g.found dir).find? (·.1 = i)).map (·.2)) = some shards ∧
    g.Sorted dir shards := by
  rw [length_found h]
  obtain ⟨shards, hshards⟩ := exists_mapM (fun i => ((g.found dir).find? (·.1 = i)).map (·.2))
    (List.range g.parts) fun i hi => by
      obtain ⟨w, hw, rfl⟩ := exists_tensor h (List.mem_range.1 hi)
      have hfind : ((g.found dir).find? fun p => decide (p.1 = w.number)).isSome := by
        rw [List.find?_isSome]
        exact ⟨_, List.mem_map_of_mem hw, by simp⟩
      obtain ⟨p, hp⟩ := Option.isSome_iff_exists.1 hfind
      exact ⟨p.2, by rw [hp]; rfl⟩
  obtain ⟨hlength, hget⟩ := mapM_eq_some hshards
  refine ⟨shards, hshards, by rw [hlength, List.length_range], fun i s hs => ?_⟩
  obtain ⟨j, hj, hf⟩ := hget i s hs
  obtain ⟨hlt, hji⟩ := List.getElem?_eq_some_iff.1 hj
  obtain rfl : i = j := by rw [← hji, List.getElem_range]
  obtain ⟨⟨k, s'⟩, hfind, rfl⟩ := Option.map_eq_some_iff.1 hf
  have hk := List.find?_some hfind
  obtain rfl : k = i := by simpa using hk
  obtain ⟨w, hw, heq⟩ := List.mem_map.1 (List.mem_of_find?_eq_some hfind)
  obtain ⟨rfl, rfl⟩ := Prod.mk.inj heq
  exact ⟨w, hw, rfl, rfl⟩

/-- The constructor puts the shards in the order of their numbers, and refuses them
    when one before the last has other rows than the first. -/
theorem init_of_holds {dir : Checkpoint} (h : g.Holds dir) (hparts : 0 < g.parts)
    (chunkRows : Int) : ∃ t : Table, t.chunkRows = chunkRows ∧ g.Sorted dir t.shards ∧
      Table.init g.layer chunkRows dir =
        if ∀ s ∈ t.shards.dropLast, s.rows = t.shardRows then .ok t else .error .valueError := by
  obtain ⟨shards, hshards, hsorted⟩ := sorted_shards h
  cases shards with
  | nil =>
    have hlength := hsorted.length
    rw [List.length_nil] at hlength
    omega
  | cons first rest =>
    refine ⟨⟨first, rest, chunkRows⟩, rfl, hsorted, ?_⟩
    -- Rows of one width and type pass the other check.
    have hsame : rest.any (fun s => s.rowBytes ≠ first.rowBytes ∨ s.dtype ≠ first.dtype) =
        false := by
      rw [List.any_eq_false]
      intro s hs
      have hfirst := (List.mem_cons_self : first ∈ first :: rest)
      have hmem := List.mem_cons_of_mem first hs
      simp [hsorted.rowBytes hmem, hsorted.rowBytes hfirst, hsorted.dtype hmem,
        hsorted.dtype hfirst]
    have hfound : findShards g.layer dir = .ok (g.found dir) := findShards_of_holds h
    simp only [Table.init, hfound, bind, Except.bind, hshards, hsame, Bool.false_eq_true, if_false]
    by_cases hrows : ∀ s ∈ (first :: rest).dropLast, s.rows = first.rows
    · rw [if_neg (by simpa using hrows)]
      exact (if_pos hrows).symm
    · rw [if_pos (by simpa using hrows)]
      exact (if_neg hrows).symm

/-! ## The agreement -/

theorem shardSize_pos {vocab parts : Nat} (hv : 0 < vocab) (hp : 0 < parts) :
    0 < shardSize vocab parts :=
  Nat.div_pos (by omega) hp

theorem shardSize_le {vocab parts : Nat} (hv : 0 < vocab) (hp : 0 < parts) :
    shardSize vocab parts ≤ vocab := by
  have hmul := Nat.le_mul_of_pos_right vocab hp
  have hv1 : vocab - 1 ≤ (vocab - 1) * parts := Nat.le_mul_of_pos_right _ hp
  rw [shardSize, ← Nat.lt_succ_iff]
  refine Nat.div_lt_of_lt_mul ?_
  have hsplit : parts * (vocab + 1) = (vocab - 1) * parts + 2 * parts := by
    obtain ⟨v, rfl⟩ : ∃ v, vocab = v + 1 := ⟨vocab - 1, by omega⟩
    rw [Nat.add_sub_cancel]
    ring
  rw [hsplit]
  omega

/-- The shards before the last one are full. -/
def Geometry.FullShards (g : Geometry) : Prop :=
  (g.parts - 1) * shardSize g.vocab g.parts ≤ g.vocab

instance : Decidable g.FullShards := inferInstanceAs (Decidable (_ ≤ _))

section Agree

variable {dir : Checkpoint} {t : Table} {chunkRows : Int} (hvocab : 0 < g.vocab)
  (hparts : 0 < g.parts) (hsorted : g.Sorted dir t.shards)
include hvocab hparts hsorted

/-- The first shard is full. -/
theorem shardRows_eq : t.shardRows = shardSize g.vocab g.parts := by
  have hle := shardSize_le hvocab hparts
  have hfirst : t.first.rows = expectedRows g.vocab g.parts 0 := hsorted.rows rfl
  rw [Table.shardRows, hfirst, expectedRows]
  omega

/-- The check of the constructor passes exactly when the shards are full. -/
theorem rows_eq_iff : (∀ s ∈ t.shards.dropLast, s.rows = t.shardRows) ↔ g.FullShards := by
  rw [shardRows_eq hvocab hparts hsorted, Geometry.FullShards]
  have hlength : t.shards.dropLast.length = g.parts - 1 := by
    rw [List.length_dropLast, hsorted.length]
  have hrows : ∀ i, (hi : i < t.shards.dropLast.length) →
      t.shards.dropLast[i].rows = expectedRows g.vocab g.parts i := by
    intro i hi
    refine hsorted.rows ?_
    rw [List.getElem_dropLast, List.getElem?_eq_getElem]
  constructor
  · intro h
    rcases Nat.lt_or_ge 1 g.parts with hp | hp
    · -- The last shard that is checked decides.
      have hlt : g.parts - 2 < t.shards.dropLast.length := by omega
      have hlast := h _ (List.getElem_mem hlt)
      rw [hrows _ hlt, expectedRows] at hlast
      have hsplit : (g.parts - 1) * shardSize g.vocab g.parts =
          (g.parts - 2) * shardSize g.vocab g.parts + shardSize g.vocab g.parts := by
        rw [← Nat.succ_mul]
        congr 1
        omega
      have hpos := shardSize_pos hvocab hparts
      omega
    · rw [show g.parts - 1 = 0 by omega, Nat.zero_mul]
      exact Nat.zero_le _
  · intro h s hs
    -- No shard but the last one reaches behind the full ones.
    obtain ⟨i, hi, rfl⟩ := List.mem_iff_getElem.1 hs
    have hmul := Nat.mul_le_mul_right (shardSize g.vocab g.parts)
      (show i + 1 ≤ g.parts - 1 by omega)
    rw [Nat.succ_mul] at hmul
    rw [hrows i hi, expectedRows]
    omega

omit hvocab in
/-- The table has the vocabulary as its rows. -/
theorem rowsTotal_eq : t.rowsTotal = g.vocab := by
  have hrows : t.shards.map (·.rows) = (List.range g.parts).map
      (expectedRows g.vocab g.parts) := by
    refine List.ext_getElem (by simp [hsorted.length]) fun i hi _ => ?_
    rw [List.length_map] at hi
    rw [List.getElem_map, List.getElem_map, List.getElem_range,
      hsorted.rows (List.getElem?_eq_getElem hi)]
  rw [Table.rowsTotal, hrows, sum_expectedRows, Nat.mul_comm]
  exact Nat.min_eq_right (le_chunks_mul hparts g.vocab)

/-- With full shards, the table is one that the loader accepts. -/
theorem loaded_of_holds (hchunk : t.chunkRows = chunkRows) (hfull : g.FullShards) :
    Loaded ⟨g.layer, g.vocab, g.parts, g.width, chunkRows⟩ t := by
  have hfirst : t.rowBytes = g.width * g.size := hsorted.rowBytes List.mem_cons_self
  exact {
    rowBytes := fun s hs => (hsorted.rowBytes hs).trans hfirst.symm
    rows := (rows_eq_iff hvocab hparts hsorted).2 hfull
    vocab := rowsTotal_eq hparts hsorted
    chunkRows := hchunk
    dim := ⟨g.size, dtypeBytes_pos g.size_eq, hfirst⟩
    parts := hsorted.length.le
    expected := fun k s hk => hsorted.rows hk }

/-- The row of an id in the table is the one that the stock loader places there. -/
theorem row_eq_stockWeight (h : g.Holds dir)
    (hloaded : Loaded ⟨g.layer, g.vocab, g.parts, g.width, chunkRows⟩ t) {id : Nat}
    (hid : id < g.vocab) : t.row id = g.stockWeight (shardTensors g.layer dir) id := by
  have htotal := rowsTotal_eq hparts hsorted
  obtain ⟨-, s, -, -, -, hs, hrow⟩ := hloaded.locate_row (hid.trans_eq htotal.symm)
  rw [shardRows_eq hvocab hparts hsorted] at hs hrow
  obtain ⟨w, hw, hnum, rfl⟩ := hsorted.tensor _ s hs
  rw [hrow, stockWeight_eq h hid (shardSize_pos hvocab hparts) hw hnum]

end Agree

/-- The files of the shards have their bytes. -/
theorem whole_of_holds {dir : Checkpoint} {t : Table} (h : g.Holds dir)
    (hsorted : g.Sorted dir t.shards) : t.Whole := by
  intro s hs
  obtain ⟨w, hw, rfl⟩ := hsorted.exists_tensor hs
  obtain ⟨first, hoffsets, hbytes⟩ := (h.fits w hw).offsets
  simpa only [Geometry.shard, hoffsets, List.headD_cons] using hbytes

/-- The table agrees with the stock loader exactly when the shards before the last
    one are full, the rows have bytes, and the tasks of the pool are not empty. -/
theorem agrees_with_stock_iff {chunkRows : Int} {dir : Checkpoint} (hvocab : 0 < g.vocab)
    (hparts : 0 < g.parts) (h : g.Holds dir) :
    g.AgreesWithStock chunkRows dir ↔ g.FullShards ∧ 0 < g.width ∧ 0 < chunkRows := by
  obtain ⟨t, hchunk, hsorted, hinit⟩ := init_of_holds h hparts chunkRows
  have hfull_iff := rows_eq_iff hvocab hparts hsorted
  have hbytes : t.rowBytes = g.width * g.size := hsorted.rowBytes List.mem_cons_self
  constructor
  · rintro ⟨t', hinit', -, hrows⟩
    rw [hinit] at hinit'
    split_ifs at hinit' with hfull
    obtain rfl := Except.ok.inj hinit'
    -- The first row is served, whatever the buffer holds.
    have hzero : ∀ id ∈ [(0 : Int)], 0 ≤ id ∧ id < g.vocab := by simpa using hvocab
    have hserved : t.Served [0] := Table.gatherCpu_ok_iff.1
      ⟨_, hrows [0] hzero ⟨fun _ => List.replicate t.rowBytes 0, by simp⟩⟩
    obtain ⟨hb, hserved⟩ := hserved.resolve_left (by simp)
    have hwidth : 0 < g.width := Nat.pos_of_ne_zero fun hz => hb (by rw [hbytes, hz, Nat.zero_mul])
    refine ⟨hfull_iff.1 hfull, hwidth, ?_⟩
    rcases hserved with hneg | ⟨hpos, -⟩
    · -- With a negative chunk the rows would be those of every buffer.
      have hrow : ∀ b : UInt8, List.replicate t.rowBytes b =
          g.stockWeight (shardTensors g.layer dir) 0 := fun b => by
        have hb := hrows [0] hzero ⟨fun _ => List.replicate t.rowBytes b, by simp⟩
        have hb' := Table.gatherCpu_rows hb
        rw [if_pos hneg] at hb'
        simpa using hb'.symm
      have heq := (hrow 0).trans (hrow 1).symm
      rw [List.replicate_inj] at heq
      exact absurd (heq.2.resolve_left hb) (by decide)
    · exact hchunk ▸ hpos
  · rintro ⟨hfull, hwidth, hpos⟩
    have hloaded := loaded_of_holds hvocab hparts hsorted hchunk hfull
    have htotal := rowsTotal_eq hparts hsorted
    refine ⟨t, by rw [hinit, if_pos (hfull_iff.2 hfull)], htotal, fun ids hids buf => ?_⟩
    have hin : ∀ id ∈ ids, t.InTable id := by simpa [Table.InTable, htotal] using hids
    rw [Table.gatherCpu_of_loaded hloaded (whole_of_holds h hsorted)
      (by rw [hbytes]; exact Nat.mul_pos hwidth (dtypeBytes_pos g.size_eq)) (hchunk ▸ hpos) hin buf]
    refine congrArg Except.ok (List.map_congr_left fun id hid => ?_)
    have := hids id hid
    exact row_eq_stockWeight hvocab hparts hsorted h hloaded (by omega)

/-- The geometry of `threeRows`. -/
def threeRowsGeometry : Geometry where
  layer := 0
  vocab := 3
  parts := 2
  width := 2
  dtype := "F8_E4M3"
  size := 1
  size_eq := rfl

theorem threeRows_holds : threeRowsGeometry.Holds ⟨none, [threeRowsFile]⟩ where
  opens := by
    intro name hname
    obtain rfl : name = str "a.safetensors" := List.mem_singleton.1 hname
    exact ⟨threeRowsFile, rfl⟩
  numbers := List.Perm.refl _
  fits := by
    intro w hw
    obtain rfl | rfl : w = _ ∨ w = _ := by simpa using (show w ∈ [_, _] from hw)
    · exact ⟨rfl, rfl, 0, rfl, by decide⟩
    · exact ⟨rfl, rfl, 4, rfl, by decide⟩

/-- Three rows in two parts, of which the last has one. -/
theorem agrees_with_stock_threeRows :
    threeRowsGeometry.AgreesWithStock 8 ⟨none, [threeRowsFile]⟩ :=
  (agrees_with_stock_iff (by decide) (by decide) threeRows_holds).2
    ⟨by decide, by decide, by decide⟩

/-- Five rows in four parts: two, two, one, and none. -/
def fiveRowsGeometry : Geometry where
  layer := 0
  vocab := 5
  parts := 4
  width := 1
  dtype := "F8_E4M3"
  size := 1
  size_eq := rfl

/-- A file with them. -/
def fiveRowsFile : File where
  name := "a.safetensors"
  header := [
    (str "layers.0.ple.ngram_embedding.shard_0.weight", ⟨"F8_E4M3", [2, 1], [0, 2]⟩),
    (str "layers.0.ple.ngram_embedding.shard_1.weight", ⟨"F8_E4M3", [2, 1], [2, 4]⟩),
    (str "layers.0.ple.ngram_embedding.shard_2.weight", ⟨"F8_E4M3", [1, 1], [4, 5]⟩),
    (str "layers.0.ple.ngram_embedding.shard_3.weight", ⟨"F8_E4M3", [0, 1], [5, 5]⟩)]
  base := 0
  bytes := [1, 2, 3, 4, 5]

theorem fiveRows_holds : fiveRowsGeometry.Holds ⟨none, [fiveRowsFile]⟩ where
  opens := by
    intro name hname
    obtain rfl : name = str "a.safetensors" := List.mem_singleton.1 hname
    exact ⟨fiveRowsFile, rfl⟩
  numbers := List.Perm.refl _
  fits := by
    intro w hw
    obtain rfl | rfl | rfl | rfl : w = _ ∨ w = _ ∨ w = _ ∨ w = _ := by
      simpa using (show w ∈ [_, _, _, _] from hw)
    · exact ⟨rfl, rfl, 0, rfl, by decide⟩
    · exact ⟨rfl, rfl, 2, rfl, by decide⟩
    · exact ⟨rfl, rfl, 4, rfl, by decide⟩
    · exact ⟨rfl, rfl, 5, rfl, by decide⟩

/-- The loader accepts each of its shards, and the table on disk refuses them. -/
theorem agrees_with_stock_fails :
    fiveRowsGeometry.Holds ⟨none, [fiveRowsFile]⟩ ∧
    (∀ entry ∈ fiveRowsFile.header, (⟨0, 5, 4, 1, 8⟩ : Embedding).checkShard entry = .ok ()) ∧
    Table.init 0 8 ⟨none, [fiveRowsFile]⟩ = .error .valueError ∧
    ¬fiveRowsGeometry.AgreesWithStock 8 ⟨none, [fiveRowsFile]⟩ := by
  have hraised : Table.init 0 8 ⟨none, [fiveRowsFile]⟩ = .error .valueError := rfl
  refine ⟨fiveRows_holds, ?_, hraised, ?_⟩
  · rw [fiveRowsFile]
    simp only [List.forall_mem_cons]
    exact ⟨rfl, rfl, rfl, rfl, by simp⟩
  · rintro ⟨t, ht, -⟩
    cases hraised.symm.trans ht

end FlashNext.Ple
