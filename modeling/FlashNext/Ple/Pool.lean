import FlashNext.System
import FlashNext.Ple.Gather

/-!
# The thread pool of the gather

The calls of `gather_cpu` on one table, with the tasks of its thread pool in any
order. A call submits its tasks and awaits them one after the other; it raises
from the first one that has failed, and leaves the others in flight. They go on
writing into the staging buffer, which the next call uses again unless it needs
a larger one.

* `gather_undisturbed`: every call that returns gives the rows of its own ids, from
  its return to the next call, if no call starts on a buffer while a task of an
  earlier call has yet to write one of its rows. The invariant behind it
  (`Pool.Sound`) is that a row which no task of the call has yet to write is right;
* `gather_unshared`: if moreover all tasks of earlier calls in that buffer have
  ended, none of them writes into the buffer of a call that runs or has returned.
-/

namespace FlashNext.Ple

open Python

/-- A task of the pool. -/
structure Task where
  /-- The staging buffer it writes into. -/
  buf : Nat
  /-- The ids it has yet to read. -/
  ids : List Int
  /-- The row of the next one. -/
  row : Nat
  /-- The exception it has ended with. -/
  failed : Option Err

/-- What becomes of the read of a row. -/
inductive Outcome
  | full
  /-- A short read, of these bytes. -/
  | short (bytes : List UInt8)
  | raised (e : Err)

/-- The thread that calls `gather_cpu`. -/
inductive Main
  /-- No call has returned since the last one raised. -/
  | idle
  /-- In a call: the tasks submitted, those to submit, and how many have been
      awaited. A call of few ids runs its only task itself. -/
  | running (ids : List Int) (buf : Nat) (futs : List Task) (rest : List (List Int × Nat)) (k : Nat)
  /-- The call has returned the first rows of the buffer. -/
  | returned (ids : List Int) (buf : Nat)

/-- The state: the buffers that were ever allocated, the one in use with its
    number of rows, the tasks of earlier calls, and the calling thread. -/
structure Pool (t : Table) where
  heap : Nat → Rows t.rowBytes
  staging : Option (Nat × Nat)
  next : Nat
  left : List Task
  main : Main

/-- The steps. -/
inductive PoolLabel (t : Table)
  /-- A call, with what is in the buffer if it allocates one. -/
  | call (ids : List Int) (fresh : Rows t.rowBytes)
  | submit
  /-- A task of the call reads its next row. -/
  | work (i : Nat) (r : Outcome)
  /-- A task of an earlier call does. -/
  | late (i : Nat) (r : Outcome)
  /-- `f.result()`, when the next future is done, or the return. -/
  | await

variable {t : Table}

/-- One row of a task. -/
def Task.step (heap : Nat → Rows t.rowBytes) (task : Task) (r : Outcome) :
    Option ((Nat → Rows t.rowBytes) × Task) :=
  let write (bytes : List UInt8) :=
    Function.update heap task.buf ((heap task.buf).write task.row bytes)
  match task.failed, task.ids, r with
  | none, i :: ids, .full =>
    match t.pread i with
    | .ok bytes =>
      if bytes.length = t.rowBytes then
        some (write bytes, { task with ids := ids, row := task.row + 1 })
      else none
    | .error _ => none
  | none, _ :: _, .short bytes =>
    if bytes.length < t.rowBytes then some (write bytes, { task with failed := some .osError })
    else none
  | none, _ :: _, .raised e => some (heap, { task with failed := some e })
  | _, _, _ => none

/-- `_staging_for(n)`. -/
def Pool.stagingFor (s : Pool t) (n : Nat) (fresh : Rows t.rowBytes) : Pool t × Nat :=
  let alloc : Pool t × Nat :=
    ({ s with
      heap := Function.update s.heap s.next fresh
      staging := some (s.next, max n 4096)
      next := s.next + 1 }, s.next)
  match s.staging with
  | none => alloc
  | some (buf, cap) => if cap < n then alloc else (s, buf)

/-- The start of a call, up to its first submission. -/
def Pool.begin (s : Pool t) (ids : List Int) (fresh : Rows t.rowBytes) : Pool t :=
  let (s, buf) := s.stagingFor ids.length fresh
  { s with main :=
      if ids = [] then .returned [] buf
      else if t.rowBytes = 0 then .idle
      else if (ids.length : Int) ≤ t.chunkRows then .running ids buf [] [(ids, 0)] 0
      else if t.chunkRows = 0 then .idle
      else .running ids buf [] (t.tasks ids) 0 }

/-- One step; `none` where it is not enabled. -/
def Pool.step (s : Pool t) : PoolLabel t → Option (Pool t)
  | .call ids fresh =>
    match s.main with
    | .running .. => none
    | _ => some (s.begin ids fresh)
  | .submit =>
    match s.main with
    | .running ids buf futs ((ids', start) :: rest) k =>
      some { s with main := .running ids buf (futs ++ [⟨buf, ids', start, none⟩]) rest k }
    | _ => none
  | .work i r =>
    match s.main with
    | .running ids buf futs rest k => do
      let (heap, task) ← (← futs[i]?).step s.heap r
      return { s with heap := heap, main := .running ids buf (futs.set i task) rest k }
    | _ => none
  | .late i r => do
    let (heap, task) ← (← s.left[i]?).step s.heap r
    return { s with heap := heap, left := s.left.set i task }
  | .await =>
    match s.main with
    | .running ids buf futs [] k =>
      match futs[k]? with
      | none => some { s with main := .returned ids buf }
      | some task =>
        -- The call raises; the tasks behind this one are not awaited.
        if task.failed ≠ none then some { s with left := s.left ++ futs, main := .idle }
        else if task.ids = [] then some { s with main := .running ids buf futs [] (k + 1) }
        else none
    | _ => none

/-- Initially no buffer is allocated, and there is no call. -/
def Pool.Initial (s : Pool t) : Prop := s.staging = none ∧ s.left = [] ∧ s.main = .idle

/-- The calls and the pool of a table. -/
def pool (t : Table) : System (Pool t) (PoolLabel t) := .ofStep Pool.Initial Pool.step

/-- The task writes no more. -/
def Task.Ended (task : Task) : Prop := task.failed ≠ none ∨ task.ids = []

/-- The buffer of the call that runs or has returned. -/
def Pool.shared (s : Pool t) : Option Nat :=
  match s.main with
  | .idle => none
  | .running _ buf .. => some buf
  | .returned _ buf => some buf

/-- A condition on the steps of a run: a call that uses the buffer again finds
    no task of an earlier call that has yet to write one of its rows (and the
    chunk is not negative, so that there are tasks at all). -/
def Undisturbed (s : Pool t) : PoolLabel t → Prop
  | .call ids _ => (t.chunkRows < 0 → ids = []) ∧
      ∀ buf cap, s.staging = some (buf, cap) → ids.length ≤ cap →
        ∀ task ∈ s.left, task.failed = none → task.ids ≠ [] → task.buf = buf → ids.length ≤ task.row
  | _ => True

/-- The condition that moreover the tasks of earlier calls in that buffer have all
    ended. -/
def Unshared (s : Pool t) : PoolLabel t → Prop
  | .call ids _ => (t.chunkRows < 0 → ids = []) ∧
      ∀ buf cap, s.staging = some (buf, cap) → ids.length ≤ cap →
        ∀ task ∈ s.left, task.buf = buf → task.Ended
  | _ => True

/-! ## The invariant -/

/-- The task has yet to write the row `k` of its buffer. -/
def Task.Owes (task : Task) (k : Nat) : Prop := task.row ≤ k ∧ k < task.row + task.ids.length

/-- The task of an earlier call does not write the first `n` rows of the buffer. -/
def Task.Spares (task : Task) (buf n : Nat) : Prop :=
  task.failed = none → task.ids ≠ [] → task.buf = buf → n ≤ task.row

/-- The first rows of the buffer are what is read for the ids, where `owed` does
    not say that they have yet to be written. -/
def RowsRight (t : Table) (buf : Rows t.rowBytes) (ids : List Int) (owed : Nat → Prop) : Prop :=
  ∀ k id, ids[k]? = some id → ¬owed k → t.pread id = .ok (buf.row k)

/-- The invariant of the calling thread. -/
def Pool.MainSound (s : Pool t) : Prop :=
  match s.main with
  | .idle => True
  | .running ids buf futs rest k =>
    buf < s.next ∧ (∀ task ∈ s.left, task.Spares buf ids.length) ∧
    (∀ task ∈ futs, task.buf = buf ∧ task.ids <+: ids.drop task.row) ∧
    (∀ r ∈ rest, r.1 <+: ids.drop r.2) ∧
    (k ≤ futs.length ∧ ∀ j task, j < k → futs[j]? = some task → task.ids = []) ∧
    RowsRight t (s.heap buf) ids fun k =>
      (∃ task ∈ futs, task.Owes k) ∨ ∃ r ∈ rest, r.2 ≤ k ∧ k < r.2 + r.1.length
  | .returned ids buf =>
    buf < s.next ∧ (∀ task ∈ s.left, task.Spares buf ids.length) ∧
    RowsRight t (s.heap buf) ids fun _ => False

/-- The invariant: the buffers of the tasks have been allocated, and a row that
    no task of the call has yet to write is right. -/
structure Pool.Sound (s : Pool t) : Prop where
  staging : ∀ buf cap, s.staging = some (buf, cap) → buf < s.next
  left : ∀ task ∈ s.left, task.buf < s.next
  main : s.MainSound

/-! ## The steps -/

/-- All that one row of a task can do: it writes nothing but its next row, which a full
    read gets right and is done with, and with any other outcome the task fails. -/
theorem Task.step_spec {heap heap' : Nat → Rows t.rowBytes} {task task' : Task} {r : Outcome}
    (h : task.step heap r = some (heap', task')) :
    task.failed = none ∧ task'.buf = task.buf ∧
    (∀ buf k, buf ≠ task.buf ∨ k ≠ task.row → (heap' buf).row k = (heap buf).row k) ∧
    ∃ i ids, task.ids = i :: ids ∧
      ((r = .full ∧ task'.failed = none ∧ task'.ids = ids ∧ task'.row = task.row + 1 ∧
          t.pread i = .ok ((heap' task.buf).row task.row)) ∨
        (r ≠ .full ∧ task'.failed ≠ none ∧ task'.ids = task.ids ∧ task'.row = task.row)) := by
  obtain ⟨buf, ids, row, failed⟩ := task
  -- A read writes into one row.
  have frame : ∀ bytes b k, b ≠ buf ∨ k ≠ row →
      ((Function.update heap buf ((heap buf).write row bytes)) b).row k = (heap b).row k := by
    intro bytes b k hk
    by_cases hb : b = buf
    · subst hb
      rw [Function.update_self, Rows.write_of_ne _ (hk.resolve_left (not_not.2 rfl))]
    · rw [Function.update_of_ne hb]
  -- A task steps if it has not failed and has ids left.
  cases failed with
  | some e => cases r <;> simp [Task.step] at h
  | none =>
    cases ids with
    | nil => cases r <;> simp [Task.step] at h
    | cons i ids =>
      cases r with
      | full =>
        cases hp : t.pread i with
        | error e => simp [Task.step, hp] at h
        | ok bytes =>
          by_cases hlen : bytes.length = t.rowBytes
          · obtain ⟨rfl, rfl⟩ := by simpa [Task.step, hp, hlen] using h
            refine ⟨rfl, rfl, frame bytes, i, ids, rfl, .inl ⟨rfl, rfl, rfl, rfl, ?_⟩⟩
            rw [Function.update_self, Rows.write_self _ hlen, hp]
          · simp [Task.step, hp, hlen] at h
      | short bytes =>
        by_cases hlen : bytes.length < t.rowBytes
        · obtain ⟨rfl, rfl⟩ := by simpa [Task.step, hlen] using h
          exact ⟨rfl, rfl, frame bytes, i, ids, rfl, .inr ⟨by simp, by simp, rfl, rfl⟩⟩
        · simp [Task.step, hlen] at h
      | raised e =>
        obtain ⟨rfl, rfl⟩ := by simpa [Task.step] using h
        exact ⟨rfl, rfl, fun _ _ _ => rfl, i, ids, rfl, .inr ⟨by simp, by simp, rfl, rfl⟩⟩

/-- A task that has ended does not go on. -/
theorem Task.step_of_ended {heap : Nat → Rows t.rowBytes} {task : Task} (h : task.Ended)
    (r : Outcome) : task.step heap r = none := by
  by_contra hne
  obtain ⟨⟨heap', task'⟩, hs⟩ := Option.ne_none_iff_exists'.1 hne
  obtain ⟨hf, -, -, i, ids, hids, -⟩ := Task.step_spec hs
  rcases h with h | h
  · exact h hf
  · rw [hids] at h
    cases h

/-- A full read leaves its task without an exception. -/
theorem Task.failed_of_full {heap heap' : Nat → Rows t.rowBytes} {task task' : Task}
    (h : task.step heap .full = some (heap', task')) : task'.failed = none := by
  obtain ⟨-, -, -, i, ids, -, hcase⟩ := Task.step_spec h
  exact (hcase.resolve_right fun hr => hr.1 rfl).2.1

/-- A task that spares the first rows of a buffer leaves them, and goes on sparing
    them. -/
theorem Task.Spares.step {heap heap' : Nat → Rows t.rowBytes} {task task' : Task} {r : Outcome}
    {buf n : Nat} (hs : task.Spares buf n) (h : task.step heap r = some (heap', task')) :
    task'.Spares buf n ∧ ∀ k < n, (heap' buf).row k = (heap buf).row k := by
  obtain ⟨hf, hbuf, hframe, i, ids, hids, hcase⟩ := Task.step_spec h
  have hrow : task.buf = buf → n ≤ task.row := hs hf (by simp [hids])
  refine ⟨fun _ _ hb => ?_, fun k hk => hframe buf k ?_⟩
  · have := hrow (hbuf ▸ hb)
    rcases hcase with ⟨-, -, -, hr, -⟩ | ⟨-, -, -, hr⟩ <;> omega
  · by_cases hb : task.buf = buf
    · exact .inr (by have := hrow hb; omega)
    · exact .inl (Ne.symm hb)

/-- A condition on the tasks of a list holds when one of them is replaced. -/
theorem forall_mem_set {P : Task → Prop} {tasks : List Task} (h : ∀ task ∈ tasks, P task) (i : Nat)
    {task : Task} (ht : P task) : ∀ x ∈ tasks.set i task, P x :=
  fun _ hx => (List.mem_or_eq_of_mem_set hx).elim (h _) fun h => h ▸ ht

/-- Rows that are right stay so when the first rows of the buffer are left. -/
theorem RowsRight.congr {buf buf' : Rows t.rowBytes} {ids : List Int} {owed : Nat → Prop}
    (h : RowsRight t buf ids owed) (hrow : ∀ k < ids.length, buf'.row k = buf.row k) :
    RowsRight t buf' ids owed := fun k id hk ho => by
  rw [hrow k (List.getElem?_eq_some_iff.1 hk).1]
  exact h k id hk ho

/-- A late row of a task of an earlier call. -/
theorem sound_late {s : Pool t} (h : s.Sound) {i : Nat} {task task' : Task} {r : Outcome}
    {heap : Nat → Rows t.rowBytes} (hi : s.left[i]? = some task)
    (hs : task.step s.heap r = some (heap, task')) :
    Pool.Sound { s with heap := heap, left := s.left.set i task' } := by
  have hmem := List.mem_of_getElem? hi
  have hbuf := (Task.step_spec hs).2.1
  refine ⟨h.staging, forall_mem_set h.left i (hbuf ▸ h.left task hmem), ?_⟩
  have hmain := h.main
  simp only [Pool.MainSound] at hmain ⊢
  cases hm : s.main with
  | idle => trivial
  | running ids buf futs rest k =>
    rw [hm] at hmain
    obtain ⟨hlt, hspare, hfuts, hrest, hdone, hright⟩ := hmain
    obtain ⟨hspare', hrow⟩ := (hspare task hmem).step hs
    exact ⟨hlt, forall_mem_set hspare i hspare', hfuts, hrest, hdone, hright.congr hrow⟩
  | returned ids buf =>
    rw [hm] at hmain
    obtain ⟨hlt, hspare, hright⟩ := hmain
    obtain ⟨hspare', hrow⟩ := (hspare task hmem).step hs
    exact ⟨hlt, forall_mem_set hspare i hspare', hright.congr hrow⟩

/-- A row that a task owes is owed after its step, or is the one that the step gets
    right. -/
theorem Task.Owes.step {heap heap' : Nat → Rows t.rowBytes} {task task' : Task} {r : Outcome}
    {j : Nat} (ho : task.Owes j) (h : task.step heap r = some (heap', task')) :
    task'.Owes j ∨ ∃ i ids, task.ids = i :: ids ∧ j = task.row ∧
      t.pread i = .ok ((heap' task.buf).row j) := by
  obtain ⟨-, -, -, i, ids, hids, hcase⟩ := Task.step_spec h
  obtain ⟨h1, h2⟩ := ho
  rcases hcase with ⟨-, -, hids', hrow, hval⟩ | ⟨-, -, hids', hrow⟩
  · rcases Nat.eq_or_lt_of_le h1 with rfl | hlt
    · exact .inr ⟨i, ids, hids, rfl, hval⟩
    · rw [hids, List.length_cons] at h2
      exact .inl ⟨by omega, by rw [hids', hrow]; omega⟩
  · exact .inl ⟨by omega, by rw [hids', hrow]; exact h2⟩

/-- A row that a task does not owe is left by its step. -/
theorem Task.row_of_not_owes {heap heap' : Nat → Rows t.rowBytes} {task task' : Task} {r : Outcome}
    {j : Nat} (ho : ¬task.Owes j) (h : task.step heap r = some (heap', task')) (buf : Nat) :
    (heap' buf).row j = (heap buf).row j := by
  obtain ⟨-, -, hframe, i, ids, hids, -⟩ := Task.step_spec h
  refine hframe buf j (.inr ?_)
  rintro rfl
  exact ho ⟨le_rfl, by simp [hids]⟩

/-- A row of a task of the call. -/
theorem sound_work {s : Pool t} (h : s.Sound) {ids : List Int} {buf k i : Nat} {futs : List Task}
    {rest : List (List Int × Nat)} (hm : s.main = .running ids buf futs rest k) {task task' : Task}
    {r : Outcome} {heap : Nat → Rows t.rowBytes} (hi : futs[i]? = some task)
    (hs : task.step s.heap r = some (heap, task')) :
    Pool.Sound { s with heap := heap, main := .running ids buf (futs.set i task') rest k } := by
  have hmem := List.mem_of_getElem? hi
  obtain ⟨-, hbuf, -, id, ids', hids, hcase⟩ := Task.step_spec hs
  have hmain := h.main
  rw [Pool.MainSound, hm] at hmain
  obtain ⟨hlt, hspare, hfuts, hrest, ⟨hle, hdone⟩, hright⟩ := hmain
  obtain ⟨rfl, hpre⟩ := hfuts task hmem
  refine ⟨h.staging, h.left, hlt, hspare, forall_mem_set hfuts i ⟨hbuf, ?_⟩, hrest,
    ⟨by simpa using hle, fun j task'' hj hget => ?_⟩, fun j id' hj howed => ?_⟩
  · -- The ids of the task are those from its row on.
    rcases hcase with ⟨-, -, hids', hrow, -⟩ | ⟨-, -, hids', hrow⟩
    · obtain ⟨after, hafter⟩ := hids ▸ hpre
      rw [hids', hrow, ← List.tail_drop, ← hafter]
      exact ⟨after, rfl⟩
    · rwa [hids', hrow]
  · -- A task that has been awaited reads no more rows.
    rw [List.getElem?_set] at hget
    split_ifs at hget with hij
    · subst hij
      rw [hdone i task hj hi] at hids
      cases hids
    · exact hdone j task'' hj hget
  · by_cases ho : task.Owes j
    · rcases ho.step hs with ho' | ⟨id, ids', hids, rfl, hval⟩
      · refine absurd (.inl ⟨task', List.mem_iff_getElem?.2 ⟨i, ?_⟩, ho'⟩) howed
        simp [(List.getElem?_eq_some_iff.1 hi).1]
      · -- The row of the task has the id that it has read.
        rw [hids, List.prefix_iff_getElem?] at hpre
        have := hpre 0 (by simp)
        simp only [List.getElem?_drop, List.getElem_cons_zero, add_zero] at this
        rwa [Option.some.inj (hj.symm.trans this)]
    · rw [Task.row_of_not_owes ho hs]
      refine hright j id' hj ?_
      rintro (⟨task'', hmem'', ho''⟩ | hr)
      · obtain ⟨l, hl⟩ := List.mem_iff_getElem?.1 hmem''
        by_cases hil : i = l
        · subst hil
          obtain rfl := Option.some.inj (hi.symm.trans hl)
          exact ho ho''
        · refine howed (.inl ⟨task'', List.mem_iff_getElem?.2 ⟨l, ?_⟩, ho''⟩)
          rw [List.getElem?_set_ne hil, hl]
      · exact howed (.inr hr)

/-- A call takes a buffer that no task of an earlier call writes into where the
    call does, if the buffer in use is such a one when it is used again. -/
theorem sound_stagingFor {s : Pool t} (h : s.Sound) (n : Nat) (fresh : Rows t.rowBytes)
    (hs : ∀ buf cap, s.staging = some (buf, cap) → n ≤ cap → ∀ task ∈ s.left, task.Spares buf n) :
    (∀ buf cap, (s.stagingFor n fresh).1.staging = some (buf, cap) →
      buf < (s.stagingFor n fresh).1.next) ∧
    (∀ task ∈ (s.stagingFor n fresh).1.left, task.buf < (s.stagingFor n fresh).1.next) ∧
    (s.stagingFor n fresh).2 < (s.stagingFor n fresh).1.next ∧
    ∀ task ∈ (s.stagingFor n fresh).1.left, task.Spares (s.stagingFor n fresh).2 n := by
  have alloc : (∀ buf cap, some (s.next, max n 4096) = some (buf, cap) → buf < s.next + 1) ∧
      (∀ task ∈ s.left, task.buf < s.next + 1) ∧ s.next < s.next + 1 ∧
      ∀ task ∈ s.left, task.Spares s.next n := by
    refine ⟨fun buf cap hb => ?_, fun task ht => (h.left task ht).trans (Nat.lt_succ_self _),
      Nat.lt_succ_self _, fun task ht _ _ hb => absurd hb (h.left task ht).ne⟩
    obtain ⟨rfl, -⟩ := Prod.mk.inj (Option.some.inj hb)
    exact Nat.lt_succ_self _
  cases hst : s.staging with
  | none => simpa only [Pool.stagingFor, hst] using alloc
  | some bc =>
    obtain ⟨buf, cap⟩ := bc
    by_cases hcap : cap < n
    · simpa only [Pool.stagingFor, hst, if_pos hcap] using alloc
    · simp only [Pool.stagingFor, hst, if_neg hcap]
      exact ⟨hst ▸ h.staging, h.left, h.staging buf cap hst, hs buf cap hst (not_lt.1 hcap)⟩

/-- The tasks of a call are chunks of its ids, and cover them. -/
theorem tasks_spec (ids : List Int) :
    (∀ r ∈ t.tasks ids, r.1 <+: ids.drop r.2) ∧
    (0 < t.chunkRows → ∀ k < ids.length, ∃ r ∈ t.tasks ids, r.2 ≤ k ∧ k < r.2 + r.1.length) := by
  refine ⟨fun r hr => ?_, fun hc k hk => ?_⟩
  · obtain ⟨i, -, rfl⟩ := List.mem_map.1 hr
    exact List.take_prefix _ _
  · -- The row `k` is in the chunk `k / chunk`.
    have hc' : 0 < t.chunkRows.toNat := by omega
    have hdiv := Nat.div_add_mod k t.chunkRows.toNat
    have hmod := Nat.mod_lt k hc'
    rw [mul_comm] at hdiv
    refine ⟨_, List.mem_map.2 ⟨k / t.chunkRows.toNat, List.mem_range.2 ?_, rfl⟩, ?_, ?_⟩
    · rw [Nat.div_lt_iff_lt_mul hc']
      exact hk.trans_le (le_chunks_mul hc' _)
    · simp only
      omega
    · simp only [List.length_take, List.length_drop]
      omega

/-- The start of a call that meets the condition. -/
theorem sound_begin {s : Pool t} (h : s.Sound) {ids : List Int} (fresh : Rows t.rowBytes)
    (hc : Undisturbed s (.call ids fresh)) : (s.begin ids fresh).Sound := by
  obtain ⟨hstaging, hleft, hlt, hspare⟩ := sound_stagingFor h ids.length fresh
    fun buf cap hst hcap task ht => hc.2 buf cap hst hcap task ht
  refine ⟨hstaging, hleft, ?_⟩
  simp only [Pool.MainSound, Pool.begin]
  split_ifs with hne hb hle hzero
  · exact ⟨hlt, by simpa [hne] using hspare, fun k id hk => by simp at hk⟩
  · trivial
  · refine ⟨hlt, hspare, by simp, by simp, by simp, fun k id hk howed => ?_⟩
    exact absurd (.inr ⟨_, List.mem_singleton_self _, Nat.zero_le k, by
      simpa using (List.getElem?_eq_some_iff.1 hk).1⟩) howed
  · trivial
  · have hpos : 0 < t.chunkRows := by
      by_contra hn
      exact hne (hc.1 (by omega))
    refine ⟨hlt, hspare, by simp, (tasks_spec ids).1, by simp, fun k id hk howed => ?_⟩
    exact absurd (.inr ((tasks_spec ids).2 hpos k (List.getElem?_eq_some_iff.1 hk).1)) howed

/-- A task of the call is submitted: its rows are owed as before. -/
theorem sound_submit {s : Pool t} (h : s.Sound) {ids ids' : List Int} {buf start k : Nat}
    {futs : List Task} {rest : List (List Int × Nat)}
    (hm : s.main = .running ids buf futs ((ids', start) :: rest) k) :
    Pool.Sound { s with main := .running ids buf (futs ++ [⟨buf, ids', start, none⟩]) rest k } := by
  have hmain := h.main
  rw [Pool.MainSound, hm] at hmain
  obtain ⟨hlt, hspare, hfuts, hrest, ⟨hle, hdone⟩, hright⟩ := hmain
  rw [List.forall_mem_cons] at hrest
  refine ⟨h.staging, h.left, hlt, hspare, ?_, hrest.2, ⟨?_, fun j task hj hget => ?_⟩, ?_⟩
  · exact List.forall_mem_append.2 ⟨hfuts, List.forall_mem_singleton.2 ⟨rfl, hrest.1⟩⟩
  · rw [List.length_append]
    exact hle.trans (Nat.le_add_right _ _)
  · rw [List.getElem?_append_left (hj.trans_le hle)] at hget
    exact hdone j task hj hget
  · intro k id hk howed
    refine hright k id hk fun ho => howed ?_
    simp only [List.mem_append, List.mem_cons, List.not_mem_nil, or_false] at ho ⊢
    rcases ho with ⟨task, ht, ho⟩ | ⟨r, rfl | hr, ho⟩
    · exact .inl ⟨task, .inl ht, ho⟩
    · exact .inl ⟨_, .inr rfl, ho⟩
    · exact .inr ⟨r, hr, ho⟩

section Await

variable {s : Pool t} {ids : List Int} {buf k : Nat} {futs : List Task} {task : Task}

/-- The call returns: all its tasks have been awaited, and none owes a row. -/
theorem sound_finish (h : s.Sound) (hm : s.main = .running ids buf futs [] k)
    (hk : futs[k]? = none) : Pool.Sound { s with main := .returned ids buf } := by
  have hmain := h.main
  rw [Pool.MainSound, hm] at hmain
  obtain ⟨hlt, hspare, -, -, ⟨-, hdone⟩, hright⟩ := hmain
  refine ⟨h.staging, h.left, hlt, hspare, fun j id hj _ => hright j id hj ?_⟩
  rintro (⟨task, ht, h1, h2⟩ | ⟨r, hr, -⟩)
  · obtain ⟨l, hl⟩ := List.mem_iff_getElem?.1 ht
    have hlk : l < k := (List.getElem?_eq_some_iff.1 hl).1.trans_le (List.getElem?_eq_none_iff.1 hk)
    rw [hdone l task hlk hl] at h2
    exact absurd h1 (not_le.2 h2)
  · cases hr

/-- The call raises, and leaves its tasks. -/
theorem sound_fail (h : s.Sound) (hm : s.main = .running ids buf futs [] k) :
    Pool.Sound { s with left := s.left ++ futs, main := .idle } := by
  have hmain := h.main
  rw [Pool.MainSound, hm] at hmain
  obtain ⟨hlt, -, hfuts, -⟩ := hmain
  refine ⟨h.staging, List.forall_mem_append.2 ⟨h.left, fun task ht => ?_⟩, trivial⟩
  exact (hfuts task ht).1 ▸ hlt

/-- The next task is done. -/
theorem sound_done (h : s.Sound) (hm : s.main = .running ids buf futs [] k)
    (hk : futs[k]? = some task) (hids : task.ids = []) :
    Pool.Sound { s with main := .running ids buf futs [] (k + 1) } := by
  have hmain := h.main
  rw [Pool.MainSound, hm] at hmain
  obtain ⟨hlt, hspare, hfuts, hrest, ⟨-, hdone⟩, hright⟩ := hmain
  refine ⟨h.staging, h.left, hlt, hspare, hfuts, hrest,
    ⟨(List.getElem?_eq_some_iff.1 hk).1, fun j task' hj hget => ?_⟩, hright⟩
  rcases Nat.lt_succ_iff_lt_or_eq.1 hj with hj | rfl
  · exact hdone j task' hj hget
  · rw [← Option.some.inj (hk.symm.trans hget), hids]

end Await

/-- What a step does. -/
inductive Pool.Steps (s : Pool t) : PoolLabel t → Pool t → Prop
  | call (ids : List Int) (fresh : Rows t.rowBytes) : Steps s (.call ids fresh) (s.begin ids fresh)
  | submit {ids ids' : List Int} {buf start k : Nat} {futs : List Task}
      {rest : List (List Int × Nat)} :
      s.main = .running ids buf futs ((ids', start) :: rest) k →
      Steps s .submit
        { s with main := .running ids buf (futs ++ [⟨buf, ids', start, none⟩]) rest k }
  | work {ids : List Int} {buf k i : Nat} {futs : List Task} {rest : List (List Int × Nat)}
      {task task' : Task} {heap : Nat → Rows t.rowBytes} {r : Outcome} :
      s.main = .running ids buf futs rest k → futs[i]? = some task →
      task.step s.heap r = some (heap, task') →
      Steps s (.work i r)
        { s with heap := heap, main := .running ids buf (futs.set i task') rest k }
  | late {i : Nat} {task task' : Task} {heap : Nat → Rows t.rowBytes} {r : Outcome} :
      s.left[i]? = some task → task.step s.heap r = some (heap, task') →
      Steps s (.late i r) { s with heap := heap, left := s.left.set i task' }
  | finish {ids : List Int} {buf k : Nat} {futs : List Task} :
      s.main = .running ids buf futs [] k → futs[k]? = none →
      Steps s .await { s with main := .returned ids buf }
  | fail {ids : List Int} {buf k : Nat} {futs : List Task} {task : Task} :
      s.main = .running ids buf futs [] k → futs[k]? = some task → task.failed ≠ none →
      Steps s .await { s with left := s.left ++ futs, main := .idle }
  | done {ids : List Int} {buf k : Nat} {futs : List Task} {task : Task} :
      s.main = .running ids buf futs [] k → futs[k]? = some task → task.ids = [] →
      Steps s .await { s with main := .running ids buf futs [] (k + 1) }

/-- A step that is enabled is one of these. -/
theorem Pool.steps_of_step {s s' : Pool t} {a : PoolLabel t} (h : s.step a = some s') :
    s.Steps a s' := by
  cases a with
  | call ids fresh =>
    cases hm : s.main with
    | running => simp [Pool.step, hm] at h
    | _ =>
      obtain rfl : s.begin ids fresh = s' := by simpa [Pool.step, hm] using h
      exact .call ids fresh
  | submit =>
    cases hm : s.main with
    | running ids buf futs rest k =>
      cases rest with
      | nil => simp [Pool.step, hm] at h
      | cons r rest =>
        obtain rfl := by simpa [Pool.step, hm] using h
        exact .submit hm
    | _ => simp [Pool.step, hm] at h
  | work i r =>
    cases hm : s.main with
    | running ids buf futs rest k =>
      cases hi : futs[i]? with
      | none => simp [Pool.step, hm, hi] at h
      | some task =>
        cases hstep : task.step s.heap r with
        | none => simp [Pool.step, hm, hi, hstep] at h
        | some w =>
          obtain rfl := by simpa [Pool.step, hm, hi, hstep] using h
          exact .work hm hi hstep
    | _ => simp [Pool.step, hm] at h
  | late i r =>
    cases hi : s.left[i]? with
    | none => simp [Pool.step, hi] at h
    | some task =>
      cases hstep : task.step s.heap r with
      | none => simp [Pool.step, hi, hstep] at h
      | some w =>
        obtain rfl := by simpa [Pool.step, hi, hstep] using h
        exact .late hi hstep
  | await =>
    cases hm : s.main with
    | running ids buf futs rest k =>
      cases rest with
      | cons r rest => simp [Pool.step, hm] at h
      | nil =>
        cases hk : futs[k]? with
        | none =>
          obtain rfl := by simpa [Pool.step, hm, hk] using h
          exact .finish hm hk
        | some task =>
          by_cases hf : task.failed = none
          · by_cases hids : task.ids = []
            · obtain rfl := by simpa [Pool.step, hm, hk, hf, hids] using h
              exact .done hm hk hids
            · simp [Pool.step, hm, hk, hf, hids] at h
          · obtain rfl := by simpa [Pool.step, hm, hk, hf] using h
            exact .fail hm hk hf
    | _ => simp [Pool.step, hm] at h

/-- A step that meets the condition preserves the invariant. -/
theorem sound_step {s s' : Pool t} {a : PoolLabel t} (h : s.Sound) (hc : Undisturbed s a)
    (hs : s.step a = some s') : s'.Sound := by
  cases Pool.steps_of_step hs with
  | call ids fresh => exact sound_begin h fresh hc
  | submit hm => exact sound_submit h hm
  | work hm hi hstep => exact sound_work h hm hi hstep
  | late hi hstep => exact sound_late h hi hstep
  | finish hm hk => exact sound_finish h hm hk
  | fail hm _ _ => exact sound_fail h hm
  | done hm hk hids => exact sound_done h hm hk hids

theorem sound_initial {s : Pool t} (h : s.Initial) : s.Sound := by
  obtain ⟨hst, hl, hm⟩ := h
  refine ⟨by simp [hst], by simp [hl], ?_⟩
  rw [Pool.MainSound, hm]
  trivial

/-- In a run whose steps meet the condition, the rows of a call that has returned
    are those of its own ids, until the next call. -/
theorem gather_undisturbed {layer : Nat} {chunkRows : Int} {dir : Safetensors.Checkpoint}
    (ht : Table.init layer chunkRows dir = .ok t) {s : Pool t}
    (hs : ((pool t).restrict Undisturbed).Reachable s) {ids : List Int} {buf : Nat}
    (hm : s.main = .returned ids buf) (k : Nat) (id : Int) (hk : ids[k]? = some id)
    (hin : t.InTable id) : (s.heap buf).row k = t.row id.toNat := by
  have hsound : s.Sound := hs.invariant (fun s h => sound_initial h)
    fun s a s' h hstep => sound_step h hstep.1 hstep.2
  have hmain := hsound.main
  rw [Pool.MainSound, hm] at hmain
  exact Table.pread_eq_row (Table.init_accepted ht).1 hin (hmain.2.2 k id hk not_false)

/-! ## The buffer of a call -/

/-- No task of an earlier call has yet to write into the buffer of the call. -/
def Pool.Apart (s : Pool t) : Prop :=
  ∀ buf, s.shared = some buf → ∀ task ∈ s.left, task.buf = buf → task.Ended

/-- The stronger condition on the steps. -/
theorem Unshared.undisturbed {s : Pool t} {a : PoolLabel t} (h : Unshared s a) :
    Undisturbed s a := by
  cases a with
  | call ids fresh =>
    refine ⟨h.1, fun buf cap hst hcap task ht hf hids hb => ?_⟩
    rcases h.2 buf cap hst hcap task ht hb with hended | hended
    · exact absurd hf hended
    · exact absurd hended hids
  | _ => trivial

/-- The buffer that a call takes has no unfinished tasks of earlier calls: it is a new
    one, or the condition says so. -/
theorem ended_stagingFor {s : Pool t} (h : s.Sound) (n : Nat) (fresh : Rows t.rowBytes)
    (hs : ∀ buf cap, s.staging = some (buf, cap) → n ≤ cap →
      ∀ task ∈ s.left, task.buf = buf → task.Ended) :
    (s.stagingFor n fresh).1.left = s.left ∧
      ∀ task ∈ s.left, task.buf = (s.stagingFor n fresh).2 → task.Ended := by
  have hnew : ∀ task ∈ s.left, task.buf = s.next → task.Ended :=
    fun task ht hb => absurd hb (h.left task ht).ne
  cases hst : s.staging with
  | none => simpa only [Pool.stagingFor, hst] using ⟨trivial, hnew⟩
  | some bc =>
    obtain ⟨buf, cap⟩ := bc
    by_cases hcap : cap < n
    · simpa only [Pool.stagingFor, hst, if_pos hcap] using ⟨trivial, hnew⟩
    · simp only [Pool.stagingFor, hst, if_neg hcap]
      exact ⟨trivial, hs buf cap hst (not_lt.1 hcap)⟩

/-- A step that meets the stronger condition keeps the buffer of the call apart. -/
theorem apart_step {s s' : Pool t} {a : PoolLabel t} (hsound : s.Sound) (h : s.Apart)
    (hc : Unshared s a) (hs : s.step a = some s') : s'.Apart := by
  cases Pool.steps_of_step hs with
  | call ids fresh =>
    obtain ⟨hleft, hended⟩ := ended_stagingFor hsound ids.length fresh hc.2
    intro buf hbuf task ht hb
    have hbuf' : buf = (s.stagingFor ids.length fresh).2 := by
      simp only [Pool.shared, Pool.begin] at hbuf
      split_ifs at hbuf <;> simp_all
    exact hended task (hleft ▸ ht) (hb.trans hbuf')
  | submit hm => simpa [Pool.Apart, Pool.shared, hm] using h
  | work hm _ _ => simpa [Pool.Apart, Pool.shared, hm] using h
  | @late i task task' _ _ hi hstep =>
    intro buf hbuf x hx hb
    rcases List.mem_or_eq_of_mem_set hx with hx | rfl
    · exact h buf hbuf x hx hb
    · -- The task that steps has not ended, so it is in another buffer.
      have hended := h buf hbuf task (List.mem_of_getElem? hi)
        ((Task.step_spec hstep).2.1.symm.trans hb)
      rw [Task.step_of_ended hended] at hstep
      cases hstep
  | finish hm _ => simpa [Pool.Apart, Pool.shared, hm] using h
  | fail _ _ _ => simp [Pool.Apart, Pool.shared]
  | done hm _ _ => simpa [Pool.Apart, Pool.shared, hm] using h

/-- In a run whose steps meet the stronger condition, a failed gather does not corrupt
    a later one: the rows of a call that has returned are those of its own ids, until
    the next call, and no task of an earlier call writes into the buffer of a call that
    runs or has returned. -/
theorem gather_unshared {layer : Nat} {chunkRows : Int} {dir : Safetensors.Checkpoint}
    (ht : Table.init layer chunkRows dir = .ok t) {s : Pool t}
    (hs : ((pool t).restrict Unshared).Reachable s) :
    (∀ ids buf, s.main = .returned ids buf → ∀ k id, ids[k]? = some id → t.InTable id →
      (s.heap buf).row k = t.row id.toNat) ∧
    ∀ buf, s.shared = some buf → ∀ i r s', (pool t).step s (.late i r) s' →
      s'.heap buf = s.heap buf := by
  have hund : ((pool t).restrict Undisturbed).Reachable s :=
    hs.mono fun _ _ h => h.undisturbed
  have hinv : s.Sound ∧ s.Apart := by
    refine hs.invariant (P := fun s => s.Sound ∧ s.Apart) (fun s h => ⟨sound_initial h, ?_⟩)
      fun s a s' h hstep =>
        ⟨sound_step h.1 hstep.1.undisturbed hstep.2, apart_step h.1 h.2 hstep.1 hstep.2⟩
    simp [Pool.Apart, Pool.shared, h.2.2]
  refine ⟨fun ids buf hm k id hk hin => gather_undisturbed ht hund hm k id hk hin,
    fun buf hbuf i r s' hstep => ?_⟩
  cases Pool.steps_of_step hstep with
  | @late _ task task' _ _ hi htask =>
    have hne : buf ≠ task.buf := by
      rintro rfl
      rw [Task.step_of_ended (hinv.2 _ hbuf task (List.mem_of_getElem? hi) rfl)] at htask
      cases htask
    exact Rows.ext (funext fun k => (Task.step_spec htask).2.2.1 buf k (.inl hne))

/-! ## Runs -/

/-- A pool without a buffer. -/
def Pool.empty (t : Table) : Pool t := ⟨fun _ => .zero _, none, 0, [], .idle⟩

/-- The table of three rows, with tasks of one row. -/
def oneByOne : Table := { threeRows with chunkRows := 1 }

/-- A call whose first task fails and leaves its second one in flight. -/
def failedCall : List (PoolLabel oneByOne) :=
  [.call [0, 1] (.zero 2), .submit, .submit, .work 0 (.raised .osError), .await]

/-- The next call, on the same buffer. -/
def nextCall : List (PoolLabel oneByOne) :=
  [.call [2, 0] (.zero 2), .submit, .submit, .work 0 .full, .work 1 .full, .await, .await]

/-- The task that the failed call has left ends before the next call. -/
def endedTask : List (PoolLabel oneByOne) := failedCall ++ .late 1 .full :: nextCall ++ [.await]

/-- It writes its row after the next call has written its own. -/
def lateTask : List (PoolLabel oneByOne) := failedCall ++ nextCall ++ [.late 1 .full, .await]

/-- A call after a failed one, all of whose tasks have ended, returns its rows, and no
    task is left that could write into its buffer. -/
theorem gather_unshared_endedTask :
    ∃ s, endedTask.foldlM Pool.step (Pool.empty oneByOne) = some s ∧
      s.main = .returned [2, 0] 0 ∧ s.left.map Task.buf = [0, 0] ∧
      (s.heap 0).row 1 = oneByOne.row 0 ∧
      ∀ i r s', (pool oneByOne).step s (.late i r) s' → s'.heap 0 = s.heap 0 := by
  have hinit : Table.init 0 1 ⟨none, [threeRowsFile]⟩ = .ok oneByOne := rfl
  have hfirst : Unshared (Pool.empty oneByOne) (.call [0, 1] (.zero 2)) :=
    ⟨fun h => absurd h (by decide), fun _ _ h => by cases h⟩
  have hbegin : ((pool oneByOne).restrict Unshared).Reachable
      ((Pool.empty oneByOne).begin [0, 1] (.zero 2)) :=
    .step (.init ⟨rfl, rfl, rfl⟩) ⟨hfirst, rfl⟩
  have hfailed := System.Reachable.replay hbegin (l := failedCall.tail ++ [.late 1 .full])
    (by simp [failedCall, Unshared]) rfl
  -- The next call finds two tasks in its buffer: the one that raised, and one without ids.
  have hnext : ∀ s : Pool oneByOne, s.left = [⟨0, [0], 0, some .osError⟩, ⟨0, [], 2, none⟩] →
      Unshared s (.call [2, 0] (.zero 2)) := by
    intro s hleft
    refine ⟨fun h => absurd h (by decide), fun _ _ _ _ => ?_⟩
    simp [hleft, Task.Ended]
  have hreturned := System.Reachable.replay (.step hfailed ⟨hnext _ rfl, rfl⟩)
    (l := nextCall.tail ++ [.await]) (by simp [nextCall, Unshared]) rfl
  obtain ⟨hrows, hwrites⟩ := gather_unshared hinit hreturned
  exact ⟨_, rfl, rfl, rfl, hrows [2, 0] 0 rfl 1 0 rfl ⟨by decide, by decide⟩, hwrites 0 rfl⟩

/-- After a failed gather, the next one returns the row of another id. -/
theorem gather_disturbed :
    ∃ s, (pool oneByOne).Reachable s ∧ s.main = .returned [2, 0] 0 ∧
      (s.heap 0).row 1 = oneByOne.row 1 ∧ (s.heap 0).row 1 ≠ oneByOne.row 0 :=
  ⟨_, System.Reachable.foldlM (s := Pool.empty oneByOne) ⟨rfl, rfl, rfl⟩ (l := lateTask) rfl,
    rfl, rfl, by decide⟩

end FlashNext.Ple
