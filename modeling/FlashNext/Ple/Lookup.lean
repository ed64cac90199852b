import FlashNext.Ple.Pool
import FlashNext.Ple.Resident

/-!
# The gather is a lookup

A call of `gather_cpu` with ids of the table, on a table whose last shard may be
short but not long, with the tasks of the pool in any order and any staging buffer
from the calls before it.

* `gatherCpu_lookup`: if the call returns, its rows are those of its ids, and each
  of them was written once, by one of its tasks; if the files have all the bytes
  of the table and every read is full, the call returns, however its tasks run;
* `Rows.flat_write`: a row of the buffer is written where `dst` says among the flat
  bytes of the staging tensor.
-/

namespace FlashNext.Ple

open Python

/-! ## The bytes of the staging buffer -/

/-- What a read of some bytes into `mv[dst:]` leaves of the flat bytes. -/
def readInto (mv : Nat → UInt8) (dst : Nat) (bytes : List UInt8) (p : Nat) : UInt8 :=
  if dst ≤ p ∧ p < dst + bytes.length then bytes.getD (p - dst) 0 else mv p

namespace Rows

variable {width : Nat}

/-- `memoryview(out.numpy()).cast("B")`: the rows, one behind the other. -/
def flat (buf : Rows width) (p : Nat) : UInt8 := (buf.row (p / width)).getD (p % width) 0

/-- A read into the row `k` is one at `dst = k * rb`. -/
theorem flat_write (buf : Rows width) (k : Nat) {bytes : List UInt8} (h : bytes.length ≤ width) :
    (buf.write k bytes).flat = readInto buf.flat (k * width) bytes := by
  funext p
  rcases Nat.eq_zero_or_pos width with rfl | hpos
  · have hrow : ∀ (b : Rows 0) j, b.row j = [] := fun b j =>
      List.length_eq_zero_iff.1 (b.length_row j)
    have hbytes : bytes = [] := List.length_eq_zero_iff.1 (Nat.le_zero.1 h)
    simp [flat, readInto, hrow, hbytes]
  · have hp := Nat.div_add_mod p width
    have hlt := Nat.mod_lt p hpos
    rw [readInto, flat]
    by_cases hk : p / width = k
    · -- A byte of the row: one that is read, or one that a short read leaves.
      have hdst : k * width = width * (p / width) := by rw [hk, Nat.mul_comm]
      have hrow : (buf.write k bytes).row k = bytes ++ (buf.row k).drop bytes.length := by
        simp [write, List.take_of_length_le h]
      rw [hk, hrow, List.getD_eq_getElem?_getD, List.getElem?_append]
      by_cases hj : p % width < bytes.length
      · rw [if_pos hj, if_pos (by omega), List.getD_eq_getElem?_getD]
        congr 2
        omega
      · rw [if_neg hj, if_neg (by omega), List.getElem?_drop, flat, hk, List.getD_eq_getElem?_getD]
        congr 2
        omega
    · -- A byte of another row is not in the range.
      have hout : ¬(k * width ≤ p ∧ p < k * width + bytes.length) := by
        rintro ⟨h1, h2⟩
        refine hk (Nat.div_eq_of_lt_le h1 ?_)
        rw [Nat.succ_mul]
        omega
      rw [if_neg hout, flat, write_of_ne _ hk]

end Rows

/-! ## Ids that can be read -/

/-- The ids of a table whose files have all its bytes can be read. -/
theorem Table.Even.readable {t : Table} (ht : t.Even) (hfiles : t.Whole) {id : Int}
    (hin : t.InTable id) : t.Readable id := by
  obtain ⟨n, rfl⟩ := Int.eq_ofNat_of_zero_le hin.1
  have hn : n < t.rowsTotal := Int.ofNat_lt.1 hin.2
  obtain ⟨hlt, haddr⟩ := ht.addr_row hn
  obtain ⟨-, s, hs, -, hrow, hk, -⟩ := ht.locate_row hn
  refine ⟨by omega, hlt, fun shard hshard => ?_⟩
  rw [haddr] at hshard ⊢
  obtain rfl := Option.some.inj (hk.symm.trans hshard)
  have hmul := Nat.mul_le_mul_right s.rowBytes hrow
  have hend := hfiles s hs
  rw [Nat.succ_mul, ht.rowBytes s hs] at hmul
  rw [ht.rowBytes s hs] at hend
  omega

/-! ## A call -/

variable {t : Table}

/-- No call is running, and no task of an earlier one; the staging buffer is any
    that has been allocated, or none. -/
structure Pool.Quiet (s : Pool t) : Prop where
  staging : ∀ buf cap, s.staging = some (buf, cap) → buf < s.next
  left : ∀ task ∈ s.left, task.buf < s.next ∧ (task.failed ≠ none ∨ task.ids = [])
  main : ∀ ids buf futs rest k, s.main ≠ .running ids buf futs rest k

/-- The steps of a call, up to the next call. -/
def InCall (_ : Pool t) : PoolLabel t → Prop
  | .call .. => False
  | _ => True

/-- The steps of a call whose reads are full. -/
def FullReads (_ : Pool t) : PoolLabel t → Prop
  | .call .. => False
  | .work _ r => r = .full
  | .late _ r => r = .full
  | _ => True

/-- The task of the call that a step runs, and the row that it writes. -/
def Pool.writes (s : Pool t) : PoolLabel t → List (Nat × Nat)
  | .work _ (.raised _) => []
  | .work i _ =>
    match s.main with
    | .running _ _ futs _ _ => (futs[i]?).toList.map fun task => (i, task.row)
    | _ => []
  | _ => []

/-- The rows that tasks of a call have yet to write. -/
def owed (futs : List Task) (rest : List (List Int × Nat)) : List Nat :=
  (futs.flatMap fun task => List.range' task.row task.ids.length) ++
    rest.flatMap fun r => List.range' r.2 r.1.length

/-- The invariant of the rows that a call has written: with those it has yet to
    write they are its rows, each of them once, as long as no task has failed. -/
def Pool.Once (ids : List Int) (s : Pool t) (w : List (Nat × Nat)) : Prop :=
  match s.main with
  | .idle => True
  | .running ids' _ futs rest _ =>
    ids' = ids ∧ (∀ task ∈ futs, task.failed ≠ none → task.ids ≠ []) ∧
    ((∀ task ∈ futs, task.failed = none) →
      (w.map (·.2) ++ owed futs rest).Perm (List.range ids.length))
  | .returned ids' _ => ids' = ids ∧ (w.map (·.2)).Perm (List.range ids.length)

/-! ## The start of a call -/

/-- A call does not depend on what the calling thread did before. -/
theorem Pool.begin_main (s : Pool t) (main : Main) (ids : List Int) (fresh : Rows t.rowBytes) :
    ({ s with main := main } : Pool t).begin ids fresh = s.begin ids fresh := by
  cases hst : s.staging with
  | none => simp [Pool.begin, Pool.stagingFor, hst]
  | some bc =>
    obtain ⟨buf, cap⟩ := bc
    by_cases hcap : cap < ids.length <;> simp [Pool.begin, Pool.stagingFor, hst, hcap]

/-- A call with a positive chunk keeps the invariant of the pool, whatever the
    calling thread did before. -/
theorem Pool.Quiet.sound_begin {s : Pool t} (hs : s.Quiet) (hc : 0 < t.chunkRows) (ids : List Int)
    (fresh : Rows t.rowBytes) : (s.begin ids fresh).Sound := by
  have hidle : Pool.Sound { s with main := .idle } :=
    ⟨hs.staging, fun task ht => (hs.left task ht).1, trivial⟩
  rw [← s.begin_main .idle]
  refine Ple.sound_begin hidle fresh ⟨fun hneg => by omega, fun buf cap _ _ task ht hf hids => ?_⟩
  exact absurd hids (not_not.2 ((hs.left task ht).2.resolve_left (not_not.2 hf)))

/-- The tasks that a call submits write its rows, each of them once. -/
theorem owed_tasks (hc : 0 < t.chunkRows) (ids : List Int) :
    owed [] (t.tasks ids) = List.range ids.length := by
  have hchunk : ∀ i, ((List.range ids.length).drop (i * t.chunkRows.toNat)).take t.chunkRows.toNat =
      List.range' (i * t.chunkRows.toNat)
        ((ids.drop (i * t.chunkRows.toNat)).take t.chunkRows.toNat).length := fun i =>
    List.ext_getElem (by simp) fun j _ _ => by simp
  have hflat := flatten_chunks (show 0 < t.chunkRows.toNat by omega) (List.range ids.length)
  rw [chunks, List.length_range] at hflat
  rw [owed, List.flatMap_nil, List.nil_append, Table.tasks, List.flatMap_map, List.flatMap, ← hflat]
  congr 1
  exact List.map_congr_left fun i _ => (hchunk i).symm

theorem once_begin (s : Pool t) (hc : 0 < t.chunkRows) (ids : List Int) (fresh : Rows t.rowBytes) :
    Pool.Once ids (s.begin ids fresh) [] := by
  simp only [Pool.Once, Pool.begin]
  split_ifs with hne hb hle hzero
  · exact ⟨hne.symm, by simp [hne]⟩
  · trivial
  · refine ⟨rfl, by simp, fun _ => ?_⟩
    rw [List.range_eq_range']
    simp [owed]
  · trivial
  · refine ⟨rfl, by simp, fun _ => ?_⟩
    rw [owed_tasks hc]
    rfl

/-! ## The steps of a call -/

/-- A task that has not failed has read its row in full, and is done with it. -/
theorem Task.step_writes {heap heap' : Nat → Rows t.rowBytes} {task task' : Task} {r : Outcome}
    (h : task.step heap r = some (heap', task')) (hf : task'.failed = none) :
    r = .full ∧ List.range' task.row task.ids.length =
      task.row :: List.range' task'.row task'.ids.length := by
  obtain ⟨-, -, -, i, ids, hids, hcase⟩ := Task.step_spec h
  obtain ⟨hfull, -, hids', hrow, -⟩ := hcase.resolve_right fun hr => hr.2.1 hf
  exact ⟨hfull, by rw [hids, hids', hrow, List.length_cons, List.range'_succ]⟩

theorem once_work {s : Pool t} {ids ids' : List Int} {buf k i : Nat} {futs : List Task}
    {rest : List (List Int × Nat)} {task task' : Task} {r : Outcome}
    {heap : Nat → Rows t.rowBytes} {w : List (Nat × Nat)} (h : s.Once ids w)
    (hm : s.main = .running ids' buf futs rest k) (hi : futs[i]? = some task)
    (hs : task.step s.heap r = some (heap, task')) :
    Pool.Once ids { s with heap := heap, main := .running ids' buf (futs.set i task') rest k }
      (w ++ s.writes (.work i r)) := by
  obtain ⟨hf, -, -, id, ids'', hids, hcase⟩ := Task.step_spec hs
  rw [Pool.Once, hm] at h
  obtain ⟨rfl, hfailed, hperm⟩ := h
  refine ⟨rfl, forall_mem_set hfailed i fun hf' => ?_, fun hnone => ?_⟩
  · rcases hcase with hdone | ⟨-, -, hids', -⟩
    · exact absurd hdone.2.1 hf'
    · simp [hids', hids]
  · -- No task has failed before, and this one has written its row.
    have hlt := (List.getElem?_eq_some_iff.1 hi).1
    have hbefore : ∀ x ∈ futs, x.failed = none := by
      intro x hx
      obtain ⟨j, hj⟩ := List.mem_iff_getElem?.1 hx
      by_cases hij : i = j
      · subst hij
        rwa [← Option.some.inj (hi.symm.trans hj)]
      · exact hnone x (List.mem_of_getElem? (i := j) (by rwa [List.getElem?_set_ne hij]))
    have htask' := hnone task' (List.mem_of_getElem? (i := i) (by simp [hlt]))
    obtain ⟨rfl, hrange⟩ := Task.step_writes hs htask'
    have hset := perm_flatMap_set (f := fun task : Task => List.range' task.row task.ids.length)
      hi hrange
    have hw : s.writes (.work i .full) = [(i, task.row)] := by simp [Pool.writes, hm, hi]
    refine List.Perm.trans ?_ (hperm hbefore)
    rw [hw, List.map_append, List.append_assoc]
    exact (hset.symm.append_right _).append_left _

/-- All tasks of a call that returns are done. -/
theorem Pool.Sound.ids_of_finish {s : Pool t} (hs : s.Sound) {ids : List Int} {buf k : Nat}
    {futs : List Task} {rest : List (List Int × Nat)} (hm : s.main = .running ids buf futs rest k)
    (hk : futs[k]? = none) : ∀ task ∈ futs, task.ids = [] := by
  intro task ht
  have hmain := hs.main
  rw [Pool.MainSound, hm] at hmain
  obtain ⟨-, -, -, -, ⟨-, hdone⟩, -⟩ := hmain
  obtain ⟨j, hj⟩ := List.mem_iff_getElem?.1 ht
  have hlt := (List.getElem?_eq_some_iff.1 hj).1
  exact hdone j task (hlt.trans_le (List.getElem?_eq_none_iff.1 hk)) hj

/-- A step of a call preserves the invariant. -/
theorem once_step {s s' : Pool t} {a : PoolLabel t} {ids : List Int} {w : List (Nat × Nat)}
    (hs : s.Sound) (h : s.Once ids w) (hc : InCall s a) (hstep : s.step a = some s') :
    s'.Once ids (w ++ s.writes a) := by
  cases Pool.steps_of_step hstep with
  | call ids fresh => exact absurd hc id
  | submit hm =>
    rw [Pool.Once, hm] at h
    -- What a new task owes is no longer owed by the chunks that are left.
    obtain ⟨rfl, hfailed, hperm⟩ := h
    refine ⟨rfl, List.forall_mem_append.2 ⟨hfailed, by simp⟩, fun hnone => ?_⟩
    have := hperm fun task ht => hnone task (List.mem_append_left _ ht)
    simpa [Pool.writes, owed] using this
  | work hm hi htask => exact once_work h hm hi htask
  | late hi htask =>
    rw [show s.writes _ = [] from rfl, List.append_nil]
    exact h
  | finish hm hk =>
    -- Nothing is owed any more: every task is done, and none has failed.
    have hids := hs.ids_of_finish hm hk
    rw [Pool.Once, hm] at h
    obtain ⟨rfl, hfailed, hperm⟩ := h
    have howed := hperm fun task ht => by
      by_contra hf
      exact hfailed task ht hf (hids task ht)
    rw [owed, List.flatMap_nil, List.append_nil,
      List.flatMap_eq_nil_iff.2 fun task ht => by simp [hids task ht], List.append_nil] at howed
    exact ⟨rfl, by simpa [Pool.writes] using howed⟩
  | fail hm hk hf => trivial
  | done hm hk hids =>
    rw [Pool.Once, hm] at h
    simpa [Pool.Once, Pool.writes] using h

/-! ## Calls that return -/

/-- The invariant of a call whose reads are full: no task fails. -/
structure Pool.Going (ids : List Int) (s : Pool t) : Prop where
  sound : s.Sound
  left : ∀ task ∈ s.left, task.failed ≠ none ∨ task.ids = []
  main : (∃ buf, s.main = .returned ids buf) ∨
    ∃ buf futs rest k, s.main = .running ids buf futs rest k ∧ ∀ task ∈ futs, task.failed = none

/-- What is left to do in a call. -/
def Pool.todo (s : Pool t) : Nat :=
  match s.main with
  | .running _ _ futs rest k => (owed futs rest).length + 2 * rest.length + (futs.length - k) + 1
  | _ => 0

/-- A call on rows that have bytes starts without a failure. -/
theorem going_begin {s : Pool t} (hs : s.Quiet) (hc : 0 < t.chunkRows) (hb : t.rowBytes ≠ 0)
    (ids : List Int) (fresh : Rows t.rowBytes) : (s.begin ids fresh).Going ids := by
  refine ⟨hs.sound_begin hc ids fresh, fun task ht => (hs.left task ?_).2, ?_⟩
  · cases hst : s.staging with
    | none => simpa [Pool.begin, Pool.stagingFor, hst] using ht
    | some bc =>
      by_cases hcap : bc.2 < ids.length <;>
        simpa [Pool.begin, Pool.stagingFor, hst, hcap] using ht
  · simp only [Pool.begin, if_neg hb, if_neg (show t.chunkRows ≠ 0 by omega)]
    split_ifs with hne
    · exact .inl ⟨_, by rw [hne]⟩
    · exact .inr ⟨_, _, _, _, rfl, by simp⟩
    · exact .inr ⟨_, _, _, _, rfl, by simp⟩

/-- A step of a call whose reads are full. -/
theorem going_step {s s' : Pool t} {a : PoolLabel t} {ids : List Int} (h : s.Going ids)
    (hc : FullReads s a) (hstep : s.step a = some s') : s'.Going ids ∧ s'.todo < s.todo := by
  have hundisturbed : Undisturbed s a := by
    cases a with
    | call ids fresh => exact absurd hc id
    | _ => trivial
  have hsound := sound_step h.sound hundisturbed hstep
  obtain ⟨hs, hleft, hmain⟩ := h
  -- Unless the call has returned, it is running.
  have hrun : ∀ {ids' buf futs rest k}, s.main = .running ids' buf futs rest k →
      ids' = ids ∧ ∀ task ∈ futs, task.failed = none := by
    intro ids' buf futs rest k hm
    rcases hmain with ⟨_, hm'⟩ | ⟨_, _, _, _, hm', hnone⟩
    · rw [hm] at hm'
      cases hm'
    · rw [hm] at hm'
      cases hm'
      exact ⟨rfl, hnone⟩
  cases Pool.steps_of_step hstep with
  | call ids fresh => exact absurd hc id
  | submit hm =>
    obtain ⟨rfl, hnone⟩ := hrun hm
    refine ⟨⟨hsound, hleft, .inr ⟨_, _, _, _, rfl, ?_⟩⟩, ?_⟩
    · exact List.forall_mem_append.2 ⟨hnone, by simp⟩
    · simp only [Pool.todo, hm, owed, List.length_append, List.flatMap_append, List.flatMap_cons,
        List.flatMap_nil, List.length_range', List.length_cons, List.length_nil]
      omega
  | @work _ _ k i futs rest task task' _ _ hm hi htask =>
    obtain ⟨rfl, hnone⟩ := hrun hm
    obtain rfl : _ = Outcome.full := hc
    have htask' := Task.failed_of_full htask
    refine ⟨⟨hsound, hleft, .inr ⟨_, _, _, _, rfl, forall_mem_set hnone i htask'⟩⟩, ?_⟩
    have hset := perm_flatMap_set (f := fun task : Task => List.range' task.row task.ids.length)
      hi (Task.step_writes htask htask').2
    have hlen := hset.length_eq
    rw [List.length_cons] at hlen
    simp only [Pool.todo, hm, owed, List.length_append, List.length_set, hlen]
    omega
  | late hi htask =>
    rw [Task.step_of_ended (hleft _ (List.mem_of_getElem? hi))] at htask
    cases htask
  | finish hm hk =>
    obtain ⟨rfl, -⟩ := hrun hm
    exact ⟨⟨hsound, hleft, .inl ⟨_, rfl⟩⟩, by simp [Pool.todo, hm]⟩
  | fail hm hk hf => exact absurd ((hrun hm).2 _ (List.mem_of_getElem? hk)) hf
  | done hm hk hids =>
    obtain ⟨rfl, hnone⟩ := hrun hm
    refine ⟨⟨hsound, hleft, .inr ⟨_, _, _, _, rfl, hnone⟩⟩, ?_⟩
    have hlt := (List.getElem?_eq_some_iff.1 hk).1
    simp only [Pool.todo, hm]
    omega

/-- A task whose next id can be read goes on. -/
theorem Task.step_of_readable (heap : Nat → Rows t.rowBytes) {task : Task} {i : Int}
    {ids : List Int} (hf : task.failed = none) (hids : task.ids = i :: ids) (hi : t.Readable i) :
    ∃ w, task.step heap .full = some w := by
  obtain ⟨hp, hlen⟩ := Table.pread_of_readable hi
  simp only [Task.step, hf, hids, hp, hlen, if_true]
  exact ⟨_, rfl⟩

/-- A call whose ids can be read has returned, or goes on. -/
theorem going_progress {s : Pool t} {ids : List Int} (h : s.Going ids)
    (hread : ∀ id ∈ ids, t.Readable id) :
    (∃ buf, s.main = .returned ids buf) ∨ ∃ a s', FullReads s a ∧ s.step a = some s' := by
  obtain ⟨hs, -, hmain⟩ := h
  refine hmain.imp_right fun ⟨buf, futs, rest, k, hm, hnone⟩ => ?_
  cases rest with
  | cons r rest => exact ⟨.submit, _, trivial, by simp only [Pool.step, hm]; rfl⟩
  | nil =>
    cases hk : futs[k]? with
    | none => exact ⟨.await, _, trivial, by simp only [Pool.step, hm, hk]; rfl⟩
    | some task =>
      have hf := hnone task (List.mem_of_getElem? hk)
      cases hids : task.ids with
      | nil => exact ⟨.await, _, trivial, by simp [Pool.step, hm, hk, hf, hids]; rfl⟩
      | cons i is =>
        -- The next future is not done: it reads its next row.
        have hsound := hs.main
        rw [Pool.MainSound, hm] at hsound
        have hpre := (hsound.2.2.1 task (List.mem_of_getElem? hk)).2
        have hi : i ∈ ids := List.mem_of_mem_drop (hpre.subset (by rw [hids]; exact .head _))
        obtain ⟨w, hw⟩ := Task.step_of_readable s.heap hf hids (hread i hi)
        exact ⟨.work k .full, _, rfl, by simp [Pool.step, hm, hk, hw]; rfl⟩

/-! ## Lookups -/

/-- The call has returned the rows of its ids. -/
def Pool.Returns (ids : List Int) (s : Pool t) : Prop :=
  ∃ buf, s.main = .returned ids buf ∧
    (List.range ids.length).map (s.heap buf).row = ids.map fun id => t.row id.toNat

/-- A call with ids of the table, in any state without tasks in flight, is a lookup. -/
theorem gatherCpu_lookup (ht : t.Even) (hc : 1 ≤ t.chunkRows) {s s₀ : Pool t} (hs : s.Quiet)
    {ids : List Int} (hin : ∀ id ∈ ids, t.InTable id) {fresh : Rows t.rowBytes}
    (hcall : (pool t).step s (.call ids fresh) s₀) :
    (∀ s' w, (((pool t).restrict InCall).logged Pool.writes).Leads (s₀, []) (s', w) →
      ∀ ids' buf, s'.main = .returned ids' buf →
        s'.Returns ids ∧ (w.map (·.2)).Perm (List.range ids.length)) ∧
    (t.Whole → t.rowBytes ≠ 0 → ((pool t).restrict FullReads).Ends (·.Returns ids) s₀) := by
  have hpos : 0 < t.chunkRows := hc
  obtain rfl : s.begin ids fresh = s₀ := by
    cases Pool.steps_of_step hcall with
    | call ids fresh => rfl
  have hsound := hs.sound_begin hpos ids fresh
  -- What a call returns, from the two invariants.
  have hreturns : ∀ s' : Pool t, s'.Sound → ∀ buf, s'.main = .returned ids buf →
      s'.Returns ids := by
    intro s' hs' buf hm
    have hmain := hs'.main
    rw [Pool.MainSound, hm] at hmain
    refine ⟨buf, hm, List.ext_getElem (by simp) fun k hk hk' => ?_⟩
    simp only [List.length_map] at hk'
    have hget := List.getElem?_eq_getElem hk'
    rw [List.getElem_map, List.getElem_map, List.getElem_range]
    exact Table.pread_eq_row ht.toAccepted (hin _ (List.getElem_mem hk'))
      (hmain.2.2 k _ hget not_false)
  refine ⟨fun s' w hrun ids' buf hm => ?_, fun hfiles hb => ?_⟩
  · obtain ⟨hs', honce⟩ := hrun.invariant (P := fun p => p.1.Sound ∧ Pool.Once ids p.1 p.2)
      ⟨hsound, once_begin s hpos ids fresh⟩ fun p a p' hp hstep => by
        obtain ⟨⟨hcond, hstep⟩, hw⟩ := hstep
        rw [hw]
        have hund : Undisturbed p.1 a := by
          cases a with
          | call ids fresh => exact absurd hcond id
          | _ => trivial
        exact ⟨sound_step hp.1 hund hstep, once_step hp.1 hp.2 hcond hstep⟩
    rw [Pool.Once, hm] at honce
    obtain ⟨rfl, hperm⟩ := honce
    exact ⟨hreturns s' hs' buf hm, hperm⟩
  · refine System.Ends.of_measure (I := Pool.Going ids) Pool.todo
      (fun s a s' h (hstep : ((pool t).restrict FullReads).step s a s') =>
        going_step h hstep.1 hstep.2)
      (fun s' h => ?_) (going_begin hs hpos hb ids fresh)
    have hread : ∀ id ∈ ids, t.Readable id := fun id hid => ht.readable hfiles (hin id hid)
    refine (going_progress h hread).imp_left fun hmain => ?_
    obtain ⟨buf, hm⟩ := hmain
    exact hreturns s' h.sound buf hm

/-! ## A call of two tasks -/

theorem oneByOne_even : oneByOne.Even where
  rowBytes := by simp [Table.shards, Table.rowBytes, oneByOne, threeRows]
  rows := by simp [Table.shards, Table.shardRows, oneByOne, threeRows]
  rows_le := by simp [Table.shards, Table.shardRows, oneByOne, threeRows]

/-- In any order of its two tasks, the call returns its two rows. -/
theorem gatherCpu_lookup_twoTasks :
    ((pool oneByOne).restrict FullReads).Ends (·.Returns [2, 0])
      ((Pool.empty oneByOne).begin [2, 0] (.zero 2)) := by
  have hquiet : (Pool.empty oneByOne).Quiet :=
    ⟨fun _ _ h => (by cases h), fun _ h => (by cases h), fun _ _ _ _ _ h => (by cases h)⟩
  have hin : ∀ id ∈ [(2 : Int), 0], oneByOne.InTable id := by
    simp [Table.InTable, oneByOne, threeRows, Table.rowsTotal, Table.shards]
  exact (gatherCpu_lookup oneByOne_even (by decide) hquiet hin rfl).2
    (by simp [Table.Whole, Table.shards, oneByOne, threeRows, threeRowsFile]) (by decide)

end FlashNext.Ple
