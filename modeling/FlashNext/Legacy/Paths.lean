import FlashNext.Legacy.Gather

/-!
# The two paths of the legacy gather

`MmapPleTable._gather` with the tasks of its thread pool in any order, and the
placeholder that calls it (`_MmapNgramEmbedding.forward`).

* `MmapPleTable.gatherOn_eq_gather`: the order of the tasks does not matter;
* `MmapPleTable.gather_paths_iff`: the outcome is that of plain indexing on both
  sides of the threshold `fast_rows`, and the placeholder gives every position of a
  tensor the row of its id, exactly when the loop of the inline path does not get
  to a shard that is missing: there, indexing `None` raises a `TypeError`, where
  the tasks of the pool raise an `IndexError`.
-/

namespace FlashNext.Legacy

open Python Safetensors

/-! ## Tensors -/

/-- A tensor: its elements in the order of their indices. -/
structure Tensor (α : Type) where
  shape : List Nat
  data : List α
  length_data : data.length = shape.foldr (· * ·) 1

namespace Tensor

variable {α β : Type}

/-- The place of a multi-index among the elements. -/
def place : List Nat → List Nat → Option Nat
  | [], [] => some 0
  | n :: shape, i :: idx =>
    if i < n then (place shape idx).map (i * shape.foldr (· * ·) 1 + ·) else none
  | _, _ => none

/-- The element at a multi-index. -/
def get? (x : Tensor α) (idx : List Nat) : Option α := (place x.shape idx).bind (x.data[·]?)

/-- `y[x]` for each element `x`, in the same shape. -/
def map (f : α → β) (x : Tensor α) : Tensor β := ⟨x.shape, x.data.map f, by simp [x.length_data]⟩

theorem map_get? (f : α → β) (x : Tensor α) (idx : List Nat) :
    (x.map f).get? idx = (x.get? idx).map f := by
  rw [get?, get?, Option.map_bind]
  exact congrArg _ (funext fun i => List.getElem?_map)

end Tensor

namespace MmapPleTable

variable (t : MmapPleTable)

/-- An order in which the pool runs its tasks. -/
abbrev Order := List (List (Nat × Nat)) → List (List (Nat × Nat))

/-- A task of the pool writes the rows of its ids at their places:
    `out[a:b] = mm[local[a:b]]`. -/
def runInto (out : Nat → List UInt8) (task : List (Nat × Nat)) :
    Except Err (Nat → List UInt8) := do
  let rows ← t.run (task.map (·.1))
  return scatter (·.1.2) (·.2) (task.zip rows) out

/-- The tasks of the pool: some ids of one shard, with their places in `out`. -/
def poolTasks (uniq : List Nat) : List (List (Nat × Nat)) :=
  runChunks (·.1 / t.shardSize) t.chunk uniq.zipIdx

/-- `_gather`, with the tasks of the pool in the given order. -/
def gatherOn (order : Order) (empty : Nat → List UInt8) (ids : List Int) :
    Except Err (List (List UInt8)) :=
  if ids = [] then .ok []
  else if ids.length ≤ t.fastRows then
    if t.outOfRange ids then .error .indexError
    else t.gatherFast ((List.range ids.length).map empty) (ids.map Int.toNat)
  else
    let uniq := unique ids
    if t.outOfRange uniq then .error .indexError
    else do
      let out ← (order (t.poolTasks (uniq.map Int.toNat))).foldlM t.runInto empty
      return ids.map fun id => out (uniq.idxOf id)

/-- `_MmapNgramEmbedding.forward` on a table: the rows of the distinct ids, at the
    places of the ids. -/
def forward (order : Order) (empty : Nat → List UInt8) (ids : Tensor Int) :
    Except Err (Tensor (List UInt8)) := do
  let uniq := unique ids.data
  let rows ← t.gatherOn order empty uniq
  return ids.map fun id => rows.getD (uniq.idxOf id) []

/-! ## Plain indexing -/

/-- The id has a row. -/
def Backed (id : Int) : Prop := 0 ≤ id ∧ t.Has id.toNat

/-- The outcome of plain indexing: the rows of the ids, or an `IndexError`. -/
structure Plain (ids : List Int) (x : Except Err (List (List UInt8))) : Prop where
  rows : (∀ id ∈ ids, t.Backed id) → x = .ok (ids.map fun id => t.rowAt id.toNat)
  raises : (∃ id ∈ ids, ¬t.Backed id) → x = .error .indexError

/-- The id is past the end of its shard. -/
def PastEnd (id : Nat) : Prop :=
  ∃ m, t.memmapAt (id / t.shardSize) = some m ∧ m.rows ≤ id % t.shardSize

/-- The loop over the shards does not get to one that is missing: an id is out of
    the range of the table, or before every id of a missing shard there is one past
    the end of its own. -/
def MissingUnreached (ids : List Int) : Prop :=
  (∀ id ∈ ids, 0 ≤ id ∧ id < (t.shardSize * t.mm.length : Nat)) →
    ∀ id ∈ ids, t.memmapAt (id.toNat / t.shardSize) = none →
      ∃ id' ∈ ids, id'.toNat / t.shardSize < id.toNat / t.shardSize ∧ t.PastEnd id'.toNat

variable {t}

/-- Ids that have a row are in the range of the table. -/
theorem lt_of_backed (hsize : 0 < t.shardSize) {id : Int} (h : t.Backed id) :
    id < (t.shardSize * t.mm.length : Nat) := by
  obtain ⟨h0, m, hm, -⟩ := h
  have hlt : id.toNat / t.shardSize < t.mm.length := by
    by_contra hle
    rw [memmapAt, List.getElem?_eq_none (not_lt.1 hle)] at hm
    cases hm
  have := (Nat.div_lt_iff_lt_mul hsize).1 hlt
  rw [Nat.mul_comm] at this
  omega

/-- A computation that returns the rows of ids that have some is plain indexing if
    it raises nothing else than an `IndexError`. -/
theorem plain_iff {ids : List Int} {x : Except Err (List (List UInt8))}
    (h : Returns x (∀ id ∈ ids, t.Backed id) (ids.map fun id => t.rowAt id.toNat)) :
    t.Plain ids x ↔ ∀ e, x = .error e → e = .indexError := by
  constructor
  · rintro ⟨hrows, hraises⟩ e rfl
    by_cases hall : ∀ id ∈ ids, t.Backed id
    · cases hrows hall
    · push Not at hall
      exact Except.error.inj (hraises hall)
  · refine fun herr => ⟨fun hall => h.eq_ok hall, fun ⟨id, hid, hnot⟩ => ?_⟩
    obtain ⟨e, rfl⟩ := h.exists_error fun hall => hnot (hall id hid)
    rw [herr e rfl]

/-! ## The tasks of the pool -/

theorem returns_runInto {task : List (Nat × Nat)} (out : Nat → List UInt8)
    (h : ∀ a ∈ task, ∀ b ∈ task, a.1 / t.shardSize = b.1 / t.shardSize) :
    Returns (t.runInto out task) (∀ x ∈ task, t.Has x.1)
      (scatter (·.2) (fun x => t.rowAt x.1) task out) := by
  have hrun : Returns (t.run (task.map (·.1))) _ _ := returns_run fun a ha b hb => by
    obtain ⟨x, hx, rfl⟩ := List.mem_map.1 ha
    obtain ⟨y, hy, rfl⟩ := List.mem_map.1 hb
    exact h x hx y hy
  refine (hrun.map (f := fun rows => scatter (·.1.2) (·.2) (task.zip rows) out)).congr
    List.forall_mem_map fun _ => ?_
  rw [List.map_map, ← List.map_prod_left_eq_zip, scatter, List.foldl_map]
  rfl

/-- In any order, the tasks of the pool return the rows of their ids. -/
theorem returns_tasks (hc : 0 < t.chunk) (uniq : List Nat) {tasks : List (List (Nat × Nat))}
    (htasks : tasks.Perm (t.poolTasks uniq)) (empty : Nat → List UInt8) :
    ∃ out, Returns (tasks.foldlM t.runInto empty) (∀ id ∈ uniq, t.Has id) out ∧
      ∀ k id, uniq[k]? = some id → out k = t.rowAt id := by
  -- Together the tasks have every place once.
  have hflat : tasks.flatten.Perm uniq.zipIdx := by
    have := htasks.flatten
    rwa [poolTasks, flatten_runChunks _ hc] at this
  have hone : ∀ task ∈ tasks, ∀ out, True → Returns (t.runInto out task) (∀ x ∈ task, t.Has x.1)
      (scatter (·.2) (fun x => t.rowAt x.1) task out) ∧ True := fun task htask out _ =>
    ⟨returns_runInto out fun a ha b hb => eq_of_mem_runChunks (htasks.subset htask) ha hb, trivial⟩
  refine ⟨_, (Returns.foldlM hone trivial).congr ?_ fun _ => rfl, fun k id hk => ?_⟩
  · constructor
    · intro h id hid
      obtain ⟨k, hk⟩ := List.mem_iff_getElem?.1 hid
      have hmem := hflat.symm.subset (List.mem_zipIdx_iff_getElem?.2 hk : (id, k) ∈ uniq.zipIdx)
      obtain ⟨task, htask, hx⟩ := List.mem_flatten.1 hmem
      exact h task htask _ hx
    · intro h task htask x hx
      have hmem := hflat.subset (List.mem_flatten.2 ⟨task, htask, hx⟩)
      exact h _ (List.mem_of_getElem? (List.mem_zipIdx_iff_getElem?.1 hmem))
  · -- Each place is written by one task only.
    have hmem := hflat.symm.subset (List.mem_zipIdx_iff_getElem?.2 hk : (id, k) ∈ uniq.zipIdx)
    have honce : ∀ y ∈ tasks.flatten, y.2 = (id, k).2 → y = (id, k) := fun y hy hkey => by
      have hy' := List.mem_zipIdx_iff_getElem?.1 (hflat.subset hy)
      obtain ⟨id', k'⟩ := y
      obtain rfl : k' = k := hkey
      obtain rfl : id' = id := Option.some.inj (hy'.symm.trans hk)
      rfl
    have hscatter : scatter (·.2) (fun x => t.rowAt x.1) tasks.flatten empty (id, k).2 =
        t.rowAt id :=
      scatter_of_mem hmem honce
    rw [scatter, List.foldl_flatten] at hscatter
    exact hscatter

/-- A task of the pool raises nothing else than an `IndexError`. -/
theorem error_of_run {ids : List Nat} {e : Err} (h : t.run ids = .error e) : e = .indexError := by
  cases ids with
  | nil => cases h
  | cons id ids =>
    simp only [run, take] at h
    split at h
    · exact (Except.error.inj h).symm
    · split_ifs at h
      exact (Except.error.inj h).symm

theorem error_of_runInto {out : Nat → List UInt8} {task : List (Nat × Nat)} {e : Err}
    (h : t.runInto out task = .error e) : e = .indexError := by
  cases hrun : t.run (task.map (·.1)) with
  | error e' =>
    rw [runInto, hrun] at h
    obtain rfl := Except.error.inj h
    exact error_of_run hrun
  | ok rows =>
    rw [runInto, hrun] at h
    cases h

/-! ## The order of the tasks -/

/-- A call returns the rows of its ids, when every one of them has a row. -/
theorem returns_gatherOn (hc : 0 < t.chunk) (hsize : 0 < t.shardSize) {order : Order}
    (horder : ∀ tasks, (order tasks).Perm tasks) (empty : Nat → List UInt8) (ids : List Int) :
    Returns (t.gatherOn order empty ids) (∀ id ∈ ids, t.Backed id)
      (ids.map fun id => t.rowAt id.toNat) := by
  have hback : ∀ {ids : List Int}, (∀ id ∈ ids, t.Backed id) → ∀ id ∈ ids, 0 ≤ id ∧
      id < (t.shardSize * t.mm.length : Nat) :=
    fun h id hid => ⟨(h id hid).1, lt_of_backed hsize (h id hid)⟩
  unfold gatherOn
  split_ifs with hnil hfast hout
  · subst hnil
    exact .ok (by simp)
  · exact .error _ fun h => not_outOfRange_iff.2 (hback h) hout
  · have hrange := not_outOfRange_iff.1 hout
    refine (returns_gatherFast (by simp)).congr ?_ fun _ => by simp
    rw [List.forall_mem_map]
    exact forall₂_congr fun id hid => (and_iff_right (hrange id hid).1).symm
  · simp only
    split_ifs with hout
    · exact .error _ fun h => not_outOfRange_iff.2
        (fun id hid => hback h id (mem_unique.1 hid)) hout
    · have hrange := not_outOfRange_iff.1 hout
      -- The rows of the distinct ids, in any order, and then those of all ids.
      obtain ⟨out, hreturns, hrow⟩ := returns_tasks hc ((unique ids).map Int.toNat) (horder _) empty
      refine (hreturns.map (f := fun out => ids.map fun id => out ((unique ids).idxOf id))).congr ?_
        fun _ => List.map_congr_left fun id hid => ?_
      · rw [List.forall_mem_map]
        exact ⟨fun h id hid => ⟨(hrange id (mem_unique.2 hid)).1, h id (mem_unique.2 hid)⟩,
          fun h id hid => (h id (mem_unique.1 hid)).2⟩
      · have hlt := List.idxOf_lt_length_of_mem (mem_unique.2 hid)
        exact hrow _ _ (by simp [hlt])

/-- A large batch raises nothing else than an `IndexError`. -/
theorem error_of_gatherOn {order : Order} {empty : Nat → List UInt8} {ids : List Int} {e : Err}
    (hslow : ¬ids.length ≤ t.fastRows) (h : t.gatherOn order empty ids = .error e) :
    e = .indexError := by
  simp only [gatherOn, hslow, if_false] at h
  split_ifs at h
  · exact (Except.error.inj h).symm
  · cases hfold : (order (t.poolTasks ((unique ids).map Int.toNat))).foldlM t.runInto empty with
    | error e' =>
      rw [hfold] at h
      obtain rfl := Except.error.inj h
      obtain ⟨task, -, out, herr⟩ := exists_error_of_foldlM hfold
      exact error_of_runInto herr
    | ok out =>
      rw [hfold] at h
      cases h

theorem error_of_gather {empty : Nat → List UInt8} {ids : List Int} {e : Err}
    (hslow : ¬ids.length ≤ t.fastRows) (h : t.gather empty ids = .error e) : e = .indexError := by
  simp only [gather, hslow, if_false] at h
  split_ifs at h
  · exact (Except.error.inj h).symm
  · cases hrun : (runChunks (· / t.shardSize) t.chunk ((unique ids).map Int.toNat)).mapM t.run with
    | error e' =>
      rw [gatherSlow, hrun] at h
      obtain rfl := Except.error.inj h
      obtain ⟨task, -, herr⟩ := exists_error_of_mapM hrun
      exact error_of_run herr
    | ok rows =>
      rw [gatherSlow, hrun] at h
      cases h

/-- The order of the tasks does not matter. -/
theorem gatherOn_eq_gather (hc : 0 < t.chunk) (hsize : 0 < t.shardSize) {order : Order}
    (horder : ∀ tasks, (order tasks).Perm tasks) (empty : Nat → List UInt8) (ids : List Int) :
    t.gatherOn order empty ids = t.gather empty ids := by
  by_cases hfast : ids.length ≤ t.fastRows
  · simp only [gatherOn, gather, hfast, if_true]
  · have hon := returns_gatherOn hc hsize horder empty ids
    have hseq := returns_gather hc empty ids
    by_cases hall : ∀ id ∈ ids, t.Backed id
    · rw [hon.eq_ok hall, hseq.eq_ok fun id hid =>
        ⟨⟨(hall id hid).1, lt_of_backed hsize (hall id hid)⟩, (hall id hid).2⟩]
    · obtain ⟨e, he⟩ := hon.exists_error hall
      obtain ⟨e', he'⟩ := hseq.exists_error fun h => hall fun id hid =>
        ⟨(h id hid).1.1, (h id hid).2⟩
      rw [he, he', error_of_gatherOn hfast he, error_of_gather hfast he']

/-! ## The inline path -/

/-- What the loop raises for the ids of the shard `si`. -/
def fault (t : MmapPleTable) (ids : List Nat) (si : Nat) : Option Err :=
  match t.memmapAt si with
  | none => some .typeError
  | some m =>
    if ids.any fun id => id / t.shardSize = si && m.rows ≤ id % t.shardSize then some .indexError
    else none

theorem round_eq_error_iff (ids : List Nat) (out : List (List UInt8)) (si : Nat) (e : Err) :
    t.round ids out si = .error e ↔ t.fault ids si = some e := by
  unfold round take fault
  cases t.memmapAt si with
  | none =>
    exact ⟨fun h => congrArg some (Except.error.inj h),
      fun h => congrArg Except.error (Option.some.inj h)⟩
  | some m =>
    have hany : (((ids.filter fun id => decide (id / t.shardSize = si)).map
        (· % t.shardSize)).any (m.rows ≤ ·)) =
        ids.any fun id => id / t.shardSize = si && m.rows ≤ id % t.shardSize := by
      rw [List.any_map, List.any_filter]
      rfl
    simp only [hany]
    split_ifs
    · exact ⟨fun h => congrArg some (Except.error.inj h),
        fun h => congrArg Except.error (Option.some.inj h)⟩
    · exact iff_of_false (fun h => by cases h) (fun h => by cases h)

/-- What the loop raises at the ids of one shard. -/
theorem fault_cases (ids : List Nat) (si : Nat) :
    (t.memmapAt si = none ∧ t.fault ids si = some .typeError) ∨
    (t.memmapAt si ≠ none ∧ (∃ id ∈ ids, id / t.shardSize = si ∧ t.PastEnd id) ∧
      t.fault ids si = some .indexError) ∨
    (t.memmapAt si ≠ none ∧ (∀ id ∈ ids, id / t.shardSize = si → ¬t.PastEnd id) ∧
      t.fault ids si = none) := by
  cases hm : t.memmapAt si with
  | none => exact .inl ⟨rfl, by rw [fault, hm]⟩
  | some m =>
    have hpast : ∀ id, id / t.shardSize = si → (t.PastEnd id ↔ m.rows ≤ id % t.shardSize) := by
      intro id hid
      simp [PastEnd, hid, hm]
    refine .inr ?_
    by_cases hany : (ids.any fun id => id / t.shardSize = si && m.rows ≤ id % t.shardSize) = true
    · obtain ⟨id, hid, h⟩ := List.any_eq_true.1 hany
      simp only [Bool.and_eq_true, decide_eq_true_eq] at h
      exact .inl ⟨by simp, ⟨id, hid, h.1, (hpast id h.1).2 h.2⟩,
        by simp only [fault, hm, hany, if_true]⟩
    · refine .inr ⟨by simp, fun id hid hsi hend => hany (List.any_eq_true.2 ⟨id, hid, ?_⟩), ?_⟩
      · simpa [hsi] using (hpast id hsi).1 hend
      · simp only [fault, hm, hany, if_false, Bool.false_eq_true]

/-- The loop raises a `TypeError` at a missing shard. -/
theorem fault_eq_typeError_iff (ids : List Nat) (si : Nat) :
    t.fault ids si = some .typeError ↔ t.memmapAt si = none := by
  rcases t.fault_cases ids si with ⟨hnone, hf⟩ | ⟨hsome, -, hf⟩ | ⟨hsome, -, hf⟩
  · simp [hf, hnone]
  · simp [hf, hsome]
  · simp [hf, hsome]

/-- It raises nothing at a shard that is there, if no id is past its end. -/
theorem fault_eq_none_iff (ids : List Nat) (si : Nat) :
    t.fault ids si = none ↔
      t.memmapAt si ≠ none ∧ ∀ id ∈ ids, id / t.shardSize = si → ¬t.PastEnd id := by
  rcases t.fault_cases ids si with ⟨hnone, hf⟩ | ⟨hsome, hend, hf⟩ | ⟨hsome, hin, hf⟩
  · simp [hf, hnone]
  · simpa [hf, hsome] using hend
  · simpa [hf, hsome] using hin

/-- The inline path raises what its loop raises first. -/
theorem gatherFast_eq_error_iff (ids : List Nat) (out : List (List UInt8)) (e : Err) :
    t.gatherFast out ids = .error e ↔ ∃ id ∈ ids, t.fault ids (id / t.shardSize) = some e ∧
      ∀ id' ∈ ids, id' / t.shardSize < id / t.shardSize →
        t.fault ids (id' / t.shardSize) = none := by
  have hround : ∀ si ∈ unique (ids.map (· / t.shardSize)), ∀ out, True →
      (∀ e, t.round ids out si = .error e ↔ t.fault ids si = some e) ∧
        ∀ out', t.round ids out si = .ok out' → True :=
    fun si _ out _ => ⟨round_eq_error_iff ids out si, fun _ _ => trivial⟩
  rw [gatherFast, foldlM_eq_error_iff hround trivial,
    findSome?_eq_some_iff_of_pairwise (pairwise_unique _)]
  simp only [mem_unique, List.mem_map, exists_exists_and_eq_and, forall_exists_index, and_imp,
    forall_apply_eq_imp_iff₂]

/-- The inline path raises a `TypeError` when its loop gets to a missing shard. -/
theorem gatherFast_eq_typeError_iff (ids : List Nat) (out : List (List UInt8)) :
    t.gatherFast out ids = .error .typeError ↔
      ¬∀ id ∈ ids, t.memmapAt (id / t.shardSize) = none →
        ∃ id' ∈ ids, id' / t.shardSize < id / t.shardSize ∧ t.PastEnd id' := by
  rw [gatherFast_eq_error_iff]
  push Not
  constructor
  · rintro ⟨id, hid, hfault, hbefore⟩
    refine ⟨id, hid, (fault_eq_typeError_iff ids _).1 hfault, fun id' hid' hlt => ?_⟩
    -- An id past the end of an earlier shard would have raised before.
    exact ((fault_eq_none_iff ids _).1 (hbefore id' hid' hlt)).2 id' hid' rfl
  · rintro ⟨id, hid, hnone, hpast⟩
    classical
    have hfault : t.fault ids (id / t.shardSize) ≠ none := by
      rw [(fault_eq_typeError_iff ids _).2 hnone]
      exact Option.some_ne_none _
    have hex : ∃ si, ∃ id ∈ ids, id / t.shardSize = si ∧ t.fault ids si ≠ none :=
      ⟨_, id, hid, rfl, hfault⟩
    -- The first shard at which something is raised.
    obtain ⟨id₀, hid₀, hsi, hfirst⟩ := Nat.find_spec hex
    rw [← hsi] at hfirst
    refine ⟨id₀, hid₀, (fault_eq_typeError_iff ids _).2 ?_, fun id' hid' hlt => ?_⟩
    · by_contra hsome
      obtain ⟨id', hid', hsi', hend⟩ : ∃ id' ∈ ids, id' / t.shardSize = id₀ / t.shardSize ∧
          t.PastEnd id' := by
        by_contra hin
        push Not at hin
        exact hfirst ((fault_eq_none_iff ids _).2 ⟨hsome, hin⟩)
      have hle : id₀ / t.shardSize ≤ id / t.shardSize :=
        hsi ▸ Nat.find_min' hex ⟨id, hid, rfl, hfault⟩
      rcases Nat.eq_or_lt_of_le hle with heq | hlt
      · exact hsome (heq ▸ hnone)
      · exact hpast id' hid' (hsi' ▸ hlt) hend
    · by_contra hraised
      exact Nat.find_min hex (hsi ▸ hlt) ⟨id', hid', rfl, hraised⟩

/-- A small batch raises an `IndexError` or a `TypeError`. -/
theorem error_of_gatherFast {ids : List Nat} {out : List (List UInt8)} {e : Err}
    (h : t.gatherFast out ids = .error e) : e = .indexError ∨ e = .typeError := by
  obtain ⟨id, -, hfault, -⟩ := (gatherFast_eq_error_iff ids out e).1 h
  rcases t.fault_cases ids (id / t.shardSize) with ⟨-, hf⟩ | ⟨-, -, hf⟩ | ⟨-, -, hf⟩
  · exact .inr (Option.some.inj (hfault.symm.trans hf))
  · exact .inl (Option.some.inj (hfault.symm.trans hf))
  · rw [hf] at hfault
    cases hfault

/-! ## The outcome on both sides of the threshold -/

/-- The table with another threshold. -/
def withFastRows (t : MmapPleTable) (fastRows : Int) : MmapPleTable :=
  { t with fastRows := fastRows }

@[simp] theorem withFastRows_fastRows (t : MmapPleTable) (fastRows : Int) :
    (t.withFastRows fastRows).fastRows = fastRows := rfl

@[simp] theorem withFastRows_outOfRange (t : MmapPleTable) (fastRows : Int) (ids : List Int) :
    (t.withFastRows fastRows).outOfRange ids = t.outOfRange ids := rfl

@[simp] theorem withFastRows_gatherFast (t : MmapPleTable) (fastRows : Int)
    (out : List (List UInt8)) (ids : List Nat) :
    (t.withFastRows fastRows).gatherFast out ids = t.gatherFast out ids := rfl

/-- On both sides of the threshold, in any order of the tasks and whatever
    `np.empty` leaves in the array, the outcome is that of plain indexing. -/
def PathsAgree (t : MmapPleTable) (ids : List Int) : Prop :=
  ∀ (fastRows : Int) (order : Order) (empty : Nat → List UInt8),
    (∀ tasks, (order tasks).Perm tasks) →
      t.Plain ids ((t.withFastRows fastRows).gatherOn order empty ids)

/-- The placeholder gives every position of a tensor the row of its id, if every id
    has a row. -/
def ForwardAgrees (t : MmapPleTable) (ids : Tensor Int) : Prop :=
  ∀ (fastRows : Int) (order : Order) (empty : Nat → List UInt8),
    (∀ tasks, (order tasks).Perm tasks) → (∀ id ∈ ids.data, t.Backed id) →
      ∃ out, (t.withFastRows fastRows).forward order empty ids = .ok out ∧ out.shape = ids.shape ∧
        ∀ idx, out.get? idx = (ids.get? idx).map fun id => t.rowAt id.toNat

/-- The placeholder gives the rows. -/
theorem forwardAgrees (hsize : 0 < t.shardSize) (hc : 0 < t.chunk) (ids : Tensor Int) :
    t.ForwardAgrees ids := by
  intro fastRows order empty horder hall
  have hgather : (t.withFastRows fastRows).gatherOn order empty (unique ids.data) =
      .ok ((unique ids.data).map fun id => t.rowAt id.toNat) :=
    (returns_gatherOn (t := t.withFastRows fastRows) hc hsize horder empty _).eq_ok
      fun id hid => hall id (mem_unique.1 hid)
  refine ⟨ids.map fun id => t.rowAt id.toNat, ?_, rfl, fun idx => Tensor.map_get? _ ids idx⟩
  have hmap : (ids.data.map fun id =>
      ((unique ids.data).map fun id => t.rowAt id.toNat).getD ((unique ids.data).idxOf id) []) =
      ids.data.map fun id => t.rowAt id.toNat := by
    refine List.map_congr_left fun id hid => ?_
    have hlt := List.idxOf_lt_length_of_mem (mem_unique.2 hid)
    rw [getD_map_of_lt _ hlt 0, List.getD_eq_getElem _ _ hlt, List.getElem_idxOf]
  rw [forward, hgather]
  simp only [Tensor.map, bind, Except.bind, pure, Except.pure, hmap]

/-- The inline path and the tasks of the pool have the outcome of plain indexing,
    and the placeholder gives the rows, exactly when the inline path does not get to
    a missing shard. -/
theorem gather_paths_iff (hsize : 0 < t.shardSize) (hc : 0 < t.chunk) (ids : Tensor Int) :
    t.PathsAgree ids.data ∧ t.ForwardAgrees ids ↔ t.MissingUnreached ids.data := by
  rw [and_iff_left (forwardAgrees hsize hc ids)]
  have hplain : ∀ (fastRows : Int) (order : Order) (empty : Nat → List UInt8),
      (∀ tasks, (order tasks).Perm tasks) →
        (t.Plain ids.data ((t.withFastRows fastRows).gatherOn order empty ids.data) ↔
          ∀ e, (t.withFastRows fastRows).gatherOn order empty ids.data = .error e →
            e = .indexError) := fun fastRows order empty horder =>
    plain_iff (returns_gatherOn (t := t.withFastRows fastRows) hc hsize horder empty ids.data)
  -- The ids as the inline path has them.
  have hids : (∀ id ∈ ids.data.map Int.toNat, t.memmapAt (id / t.shardSize) = none →
      ∃ id' ∈ ids.data.map Int.toNat, id' / t.shardSize < id / t.shardSize ∧ t.PastEnd id') ↔
      ∀ id ∈ ids.data, t.memmapAt (id.toNat / t.shardSize) = none →
        ∃ id' ∈ ids.data, id'.toNat / t.shardSize < id.toNat / t.shardSize ∧
          t.PastEnd id'.toNat := by simp
  constructor
  · intro hagree hrange
    rw [← hids]
    by_contra hnot
    have hne : ids.data ≠ [] := by
      rintro hnil
      simp [hnil] at hnot
    have herr := (hplain ids.data.length id (fun _ => []) fun _ => .refl _).1
      (hagree _ _ _ fun _ => .refl _) .typeError
    simp only [gatherOn, withFastRows_fastRows, withFastRows_outOfRange, withFastRows_gatherFast,
      hne, le_refl, if_true, if_false, not_outOfRange_iff.2 hrange, Bool.false_eq_true] at herr
    cases herr ((gatherFast_eq_typeError_iff _ _).2 hnot)
  · intro hun fastRows order empty horder
    refine (hplain fastRows order empty horder).2 fun e he => ?_
    by_cases hslow : ids.data.length ≤ fastRows
    · by_cases hnil : ids.data = []
      · simp only [gatherOn, hnil, if_true] at he
        cases he
      · simp only [gatherOn, withFastRows_fastRows, withFastRows_outOfRange,
          withFastRows_gatherFast, hslow, hnil, if_true, if_false] at he
        by_cases hout : t.outOfRange ids.data = true
        · simp only [hout, if_true] at he
          exact (Except.error.inj he).symm
        · simp only [hout, if_false, Bool.false_eq_true] at he
          rcases error_of_gatherFast he with rfl | rfl
          · rfl
          · have hnot := (gatherFast_eq_typeError_iff (t := t) _ _).1 he
            exact absurd (hids.2 (hun (not_outOfRange_iff.1 hout))) hnot
    · exact error_of_gatherOn hslow he

end MmapPleTable

/-! ## A table with a missing shard -/

/-- A file of three rows of two bytes. -/
def sixBytes : File := ⟨"a.safetensors", [], 0, [0, 1, 2, 3, 4, 5]⟩

/-- The shards `0` and `2` of one row each. -/
def missingOne : MmapPleTable where
  shardSize := 1
  rowBytes := 2
  mm := [some ⟨sixBytes, 0, 1⟩, none, some ⟨sixBytes, 4, 1⟩]
  chunk := 2048
  fastRows := 512

/-- Ids of the shards that are there. -/
theorem gather_paths_missingOne :
    missingOne.PathsAgree [2, 0, 2] ∧ missingOne.ForwardAgrees ⟨[3], [2, 0, 2], rfl⟩ :=
  (MmapPleTable.gather_paths_iff (by decide) (by decide) ⟨[3], [2, 0, 2], rfl⟩).2
    fun _ id hid hnone => by
    simp only [List.mem_cons, List.not_mem_nil, or_false] at hid
    rcases hid with rfl | rfl | rfl <;> cases hnone

/-- An id of the shard that is missing: the inline path raises a `TypeError`, and
    the tasks of the pool an `IndexError`. -/
theorem gather_paths_missingOne_not :
    missingOne.gatherOn id (fun _ => []) [1] = .error .typeError ∧
    (missingOne.withFastRows 0).gatherOn id (fun _ => []) [1] = .error .indexError ∧
    ¬missingOne.PathsAgree [1] := by
  refine ⟨rfl, rfl, fun h => ?_⟩
  have hback : ∃ id ∈ [(1 : Int)], ¬missingOne.Backed id :=
    ⟨1, .head _, fun ⟨_, m, hm, _⟩ => (by cases hm)⟩
  cases (h 512 id (fun _ => []) fun _ => .refl _).raises hback

end FlashNext.Legacy
