import Mathlib.Data.List.Forall2
import FlashNext.Ple.Pool

/-!
# The stream of the copies

A gather returns a view of the staging buffer, and the rows are copied to the
device from there by an asynchronous copy: it is enqueued on the stream of the
device, and reads the buffer when everything that was enqueued before it has
run. The next gather may write into the same buffer, or replace it.

The calls that gather (`_ple_stage_rows`, `_ple_mmap_gather_into`, and `gather`)
all bring the ids to the host first, which takes until the stream is empty.
`copies_exact` says that this is enough, for gathers that do not fail: the copies
transfer the rows gathered for them, and nothing touches a staging buffer while
a copy is on the stream. The invariant behind it (`Streamed.Inv`) is that the
stream is empty whenever a call is between its ids and its copy.

The steps of the host, of the threads of the pool, and of the stream interleave in
any order, and a copy reads one row at a time.
-/

namespace FlashNext.Ple

open Python

/-- What is enqueued on the stream. -/
inductive Work
  /-- A kernel, which leaves the memory of the host alone. -/
  | kernel
  /-- A copy of the first `n` rows of a staging buffer, with the rows it has read. -/
  | copy (buf n : Nat) (got : List (List UInt8))

/-- The layer, as far as its calls use it. -/
structure PleLayer where
  /-- `ngram_heads`. -/
  heads : Nat
  /-- The rows of `_ple_staging`, on the device. -/
  stagingRows : Nat
  /-- The rows of the rank are resident. -/
  resident : Bool

/-- A call that gathers, with the ids that are computed on the stream for it. -/
inductive GatherCall
  | stageRows (ids : List Int) (numTokens paddedTokens : Int) (real : Bool)
  /-- `_ple_mmap_gather_into`, with the rows of `out`. -/
  | gatherInto (ids : List Int) (out : Nat)
  | gather (ids : List Int) (out : Option Nat)

namespace GatherCall

variable (l : PleLayer)

/-- The ids that are gathered, if any: a step without real tokens only sets rows to
    zero, and resident rows are looked up on the device. -/
def ids? : GatherCall → Option (List Int)
  | stageRows ids numTokens _ real => if !real ∨ numTokens ≤ 0 then none else some ids
  | gatherInto ids _ => if l.resident then none else some ids
  | gather ids _ => some ids

/-- The rows of the slice that `n` rows are copied into. -/
def room (n : Nat) : GatherCall → Nat
  | stageRows _ numTokens _ _ => min (numTokens.toNat * l.heads) l.stagingRows
  | gatherInto _ out => out
  | gather _ none => n
  | gather _ (some out) => min n out

/-- What is enqueued after the copy: the rows of the padding are set to zero. -/
def afterCopy : GatherCall → List Work
  | stageRows _ numTokens paddedTokens _ => if paddedTokens > numTokens then [.kernel] else []
  | _ => []

end GatherCall

/-- The thread that makes the calls. -/
inductive Caller
  | idle
  /-- In `.to("cpu")`, for these ids. -/
  | syncing (c : GatherCall) (ids : List Int)
  /-- In `gather_cpu`, or between its return and the copy. -/
  | gathering (c : GatherCall)

/-- The state: the pool, the stream, and the calling thread. The rows that the
    gathers have returned are recorded with their ids when their copy is enqueued,
    and the rows that the copies have transferred when they have run. -/
structure Streamed (t : Table) where
  pool : Pool t
  stream : List Work
  caller : Caller
  gathered : List (List Int × List (List UInt8))
  copied : List (List (List UInt8))

/-- The steps. -/
inductive StreamLabel (t : Table)
  | call (c : GatherCall)
  /-- The calling thread enqueues a kernel of its own. -/
  | other
  /-- `.to("cpu")` returns, and `gather_cpu` is called. -/
  | toCpu (fresh : Rows t.rowBytes)
  /-- A step of `gather_cpu` and its tasks. -/
  | pool (a : PoolLabel t)
  /-- `copy_(rows, non_blocking=True)`. -/
  | copy
  /-- The stream goes on: a kernel runs, or a copy reads a row, or is done. -/
  | stream

variable {t : Table}

/-- Where the calling thread is when the pool has made a step: a gather that raises
    ends the call. -/
def Caller.after (caller : Caller) (main : Main) : Caller :=
  match caller, main with
  | .gathering _, .idle => .idle
  | _, _ => caller

/-- One step; `none` where it is not enabled. -/
def Streamed.step (l : PleLayer) (s : Streamed t) : StreamLabel t → Option (Streamed t)
  | .call c =>
    match s.caller with
    | .idle => some { s with
        stream := s.stream ++ [.kernel]
        caller := match c.ids? l with
          | some ids => .syncing c ids
          | none => .idle }
    | _ => none
  | .other =>
    match s.caller with
    | .idle => some { s with stream := s.stream ++ [.kernel] }
    | _ => none
  | .toCpu fresh =>
    match s.caller, s.stream with
    | .syncing c ids, [] => do
      let pool ← s.pool.step (.call ids fresh)
      return { s with pool := pool, caller := (Caller.gathering c).after pool.main }
    | _, _ => none
  | .pool (.call ..) => none
  | .pool a => do
    let pool ← s.pool.step a
    return { s with pool := pool, caller := s.caller.after pool.main }
  | .copy =>
    match s.caller, s.pool.main with
    | .gathering c, .returned ids buf =>
      let n := ids.length
      -- The rows must fit the slice, or be a single one, which is then repeated.
      if n = c.room l n ∨ n = 1 then
        some { s with
          stream := s.stream ++ .copy buf n [] :: c.afterCopy
          caller := .idle
          gathered := s.gathered ++ [(ids, (List.range n).map (s.pool.heap buf).row)] }
      else some { s with caller := .idle }
    | _, _ => none
  | .stream =>
    match s.stream with
    | [] => none
    | .kernel :: rest => some { s with stream := rest }
    | .copy buf n got :: rest =>
      if got.length < n then
        some { s with stream := .copy buf n (got ++ [(s.pool.heap buf).row got.length]) :: rest }
      else some { s with stream := rest, copied := s.copied ++ [got] }

/-- Initially no buffer is allocated, and nothing is enqueued. -/
def Streamed.Initial (s : Streamed t) : Prop :=
  s.pool.Initial ∧ s.stream = [] ∧ s.caller = .idle ∧ s.gathered = [] ∧ s.copied = []

/-- The calls, the pool and the stream. -/
def streamed (t : Table) (l : PleLayer) : System (Streamed t) (StreamLabel t) :=
  .ofStep Streamed.Initial (Streamed.step l)

/-- The gathers do not fail: every read of a row is a full one. -/
def ReadsFull (_ : Streamed t) : StreamLabel t → Prop
  | .pool (.work _ r) => r = .full
  | .pool (.late _ r) => r = .full
  | _ => True

/-- The copies on the stream: their buffers, their numbers of rows, and what they
    have read. -/
def pendingCopies (stream : List Work) : List (Nat × Nat × List (List UInt8)) :=
  stream.filterMap fun
    | .kernel => none
    | .copy buf n got => some (buf, n, got)

/-! ## The invariant -/

/-- The tasks that have been submitted by the call in progress. -/
def Main.futs : Main → List Task
  | .running _ _ futs _ _ => futs
  | _ => []

/-- A call of `gather_cpu` is in progress. -/
def Main.isRunning : Main → Bool
  | .running .. => true
  | _ => false

/-- The tasks of the call in progress have not failed, and none is left of an
    earlier one. -/
def Pool.NoFailure (s : Pool t) : Prop := s.left = [] ∧ ∀ task ∈ s.main.futs, task.failed = none

/-- The copy finds the rows in its buffer, and has read some of them. -/
def InFlight (heap : Nat → Rows t.rowBytes) (copy : Nat × Nat × List (List UInt8))
    (rows : List (List UInt8)) : Prop :=
  (List.range copy.2.1).map (heap copy.1).row = rows ∧ copy.2.2 <+: rows

/-- The invariant: no task has failed, the stream is empty while a call gathers,
    and the copies on the stream find the rows of the last gathers. -/
structure Streamed.Inv (s : Streamed t) : Prop where
  noFailure : s.pool.NoFailure
  gathering : s.pool.main.isRunning → ∃ c, s.caller = .gathering c
  drained : ∀ c, s.caller = .gathering c → s.stream = []
  copies : ∃ pending, s.gathered.map (·.2) = s.copied ++ pending ∧
    List.Forall₂ (InFlight s.pool.heap) (pendingCopies s.stream) pending

@[simp] theorem pendingCopies_nil : pendingCopies [] = [] := rfl

@[simp] theorem pendingCopies_append (xs ys : List Work) :
    pendingCopies (xs ++ ys) = pendingCopies xs ++ pendingCopies ys := List.filterMap_append

@[simp] theorem pendingCopies_kernel (stream : List Work) :
    pendingCopies (.kernel :: stream) = pendingCopies stream := rfl

@[simp] theorem pendingCopies_copy (buf n : Nat) (got : List (List UInt8)) (stream : List Work) :
    pendingCopies (.copy buf n got :: stream) = (buf, n, got) :: pendingCopies stream := rfl

@[simp] theorem pendingCopies_afterCopy (c : GatherCall) : pendingCopies c.afterCopy = [] := by
  unfold GatherCall.afterCopy
  split
  · split <;> rfl
  · rfl

/-! ## The pool, while nothing fails -/

theorem Pool.left_begin (s : Pool t) (ids : List Int) (fresh : Rows t.rowBytes) :
    (s.begin ids fresh).left = s.left := by
  simp only [Pool.begin, Pool.stagingFor]
  split
  · rfl
  · split_ifs <;> rfl

/-- No task has been submitted when a call starts. -/
theorem Pool.futs_begin (s : Pool t) (ids : List Int) (fresh : Rows t.rowBytes) :
    (s.begin ids fresh).main.futs = [] := by
  simp only [Pool.begin]
  split_ifs <;> rfl

/-- A call starts without a failure. -/
theorem Pool.NoFailure.begin {s : Pool t} (h : s.NoFailure) (ids : List Int)
    (fresh : Rows t.rowBytes) : (s.begin ids fresh).NoFailure := by
  refine ⟨(s.left_begin ids fresh).trans h.1, ?_⟩
  rw [s.futs_begin]
  exact List.forall_mem_nil _

/-- With full reads, nothing happens in the pool but the steps of a call in
    progress, and it goes on or returns. -/
theorem Pool.NoFailure.step {s s' : Pool t} {a : PoolLabel t} (h : s.NoFailure)
    (hcall : ∀ ids fresh, a ≠ .call ids fresh) (hfull : ∀ i r, a = .work i r → r = .full)
    (hs : s.step a = some s') : s'.NoFailure ∧ s'.main ≠ .idle ∧ s.main.isRunning := by
  obtain ⟨hleft, hfuts⟩ := h
  cases Pool.steps_of_step hs with
  | call ids fresh => exact absurd rfl (hcall ids fresh)
  | submit hm =>
    rw [hm] at hfuts ⊢
    exact ⟨⟨hleft, List.forall_mem_append.2 ⟨hfuts, List.forall_mem_singleton.2 rfl⟩⟩,
      fun hn => (by cases hn), rfl⟩
  | work hm hi hstep =>
    obtain rfl := hfull _ _ rfl
    rw [hm] at hfuts ⊢
    exact ⟨⟨hleft, forall_mem_set hfuts _ (Task.failed_of_full hstep)⟩, fun hn => (by cases hn),
      rfl⟩
  | late hi hstep => simp [hleft] at hi
  | finish hm hk =>
    rw [hm]
    exact ⟨⟨hleft, List.forall_mem_nil _⟩, fun hn => (by cases hn), rfl⟩
  | fail hm hk hf =>
    rw [hm] at hfuts
    exact absurd (hfuts _ (List.mem_of_getElem? hk)) hf
  | done hm hk hids =>
    rw [hm] at hfuts ⊢
    exact ⟨⟨hleft, hfuts⟩, fun hn => (by cases hn), rfl⟩

/-! ## The steps -/

section Steps

variable {s s' : Streamed t} {l : PleLayer}

/-- Kernels are enqueued by a thread that is not gathering. -/
theorem inv_enqueue (h : s.Inv) (hidle : s.caller = .idle) {caller : Caller}
    (hcaller : ∀ c, caller ≠ .gathering c) :
    Streamed.Inv { s with stream := s.stream ++ [.kernel], caller := caller } := by
  obtain ⟨hpool, hgathering, hdrained, hcopies⟩ := h
  refine ⟨hpool, fun hrun => ?_, fun c hc => absurd hc (hcaller c), by simpa using hcopies⟩
  obtain ⟨c, hc⟩ := hgathering hrun
  rw [hidle] at hc
  cases hc

/-- With the stream empty, all copies are done. -/
theorem copied_of_drained (h : s.Inv) (hstream : s.stream = []) :
    s.gathered.map (·.2) = s.copied := by
  obtain ⟨pending, hsplit, hcopies⟩ := h.copies
  rw [hstream] at hcopies
  cases hcopies
  rw [hsplit, List.append_nil]

/-- A step of the pool, with the stream empty. -/
theorem inv_of_drained (h : s.Inv) (hstream : s.stream = []) {pool : Pool t} {caller : Caller}
    (hpool : pool.NoFailure) (hcaller : pool.main.isRunning → ∃ c, caller = .gathering c) :
    Streamed.Inv { s with pool := pool, caller := caller } where
  noFailure := hpool
  gathering := hcaller
  drained := fun _ _ => hstream
  copies := ⟨[], by rw [List.append_nil]; exact copied_of_drained (s := s) h hstream, by
    rw [hstream]
    exact .nil⟩

/-- The calling thread goes on in a call that is running or has returned. -/
theorem after_of_ne_idle (c : GatherCall) {main : Main} (h : main ≠ .idle) :
    (Caller.gathering c).after main = .gathering c := by
  cases main with
  | idle => exact absurd rfl h
  | running => rfl
  | returned => rfl

/-- A call of `gather_cpu` starts when the ids are on the host. -/
theorem inv_toCpu (h : s.Inv) (hstream : s.stream = []) (c : GatherCall) {ids : List Int}
    {fresh : Rows t.rowBytes} {pool : Pool t} (hs : s.pool.step (.call ids fresh) = some pool) :
    Streamed.Inv { s with pool := pool, caller := (Caller.gathering c).after pool.main } := by
  cases Pool.steps_of_step hs
  refine inv_of_drained h hstream (h.noFailure.begin ids fresh) fun hrun => ⟨c, ?_⟩
  refine after_of_ne_idle c fun hidle => ?_
  rw [hidle] at hrun
  cases hrun

/-- A step of `gather_cpu`, or of one of its tasks. -/
theorem inv_pool (h : s.Inv) {a : PoolLabel t} (hcall : ∀ ids fresh, a ≠ .call ids fresh)
    (hfull : ∀ i r, a = .work i r → r = .full) {pool : Pool t} (hs : s.pool.step a = some pool) :
    s.stream = [] ∧ Streamed.Inv { s with pool := pool, caller := s.caller.after pool.main } := by
  obtain ⟨hpool, hmain, hrun⟩ := h.noFailure.step hcall hfull hs
  obtain ⟨c, hc⟩ := h.gathering hrun
  have hstream := h.drained c hc
  exact ⟨hstream, inv_of_drained h hstream hpool fun _ =>
    ⟨c, by rw [hc]; exact after_of_ne_idle c hmain⟩⟩

/-- The call ends, and its copy, if it makes one, is enqueued. -/
theorem inv_copy (h : s.Inv) {c : GatherCall} {ids : List Int} {buf : Nat}
    (hc : s.caller = .gathering c) (hmain : s.pool.main = .returned ids buf) :
    Streamed.Inv { s with
      stream := s.stream ++ .copy buf ids.length [] :: c.afterCopy
      caller := .idle
      gathered := s.gathered ++ [(ids, (List.range ids.length).map (s.pool.heap buf).row)] } ∧
    Streamed.Inv { s with caller := .idle } := by
  have hstream := h.drained c hc
  have hnot : s.pool.main.isRunning → ∃ c, Caller.idle = .gathering c := by
    rw [hmain]
    exact fun hrun => by cases hrun
  refine ⟨⟨h.noFailure, hnot, fun c hc => (by cases hc), ?_⟩,
    ⟨h.noFailure, hnot, fun c hc => (by cases hc), h.copies⟩⟩
  refine ⟨[(List.range ids.length).map (s.pool.heap buf).row], ?_, ?_⟩
  · rw [List.map_append, copied_of_drained h hstream]
    rfl
  · rw [hstream, List.nil_append, pendingCopies_copy, pendingCopies_afterCopy]
    exact .cons ⟨rfl, List.nil_prefix⟩ .nil

/-- The first copy of the stream reads a row, or is done. -/
theorem inv_stream_copy (h : s.Inv) {buf n : Nat} {got : List (List UInt8)} {rest : List Work}
    (hstream : s.stream = .copy buf n got :: rest) :
    (got.length < n → Streamed.Inv { s with
      stream := .copy buf n (got ++ [(s.pool.heap buf).row got.length]) :: rest }) ∧
    (¬got.length < n → Streamed.Inv { s with stream := rest, copied := s.copied ++ [got] }) := by
  obtain ⟨hpool, hgathering, hdrained, pending, hsplit, hcopies⟩ := h
  have hnot : ∀ c, s.caller ≠ .gathering c := fun c hc => by
    rw [hdrained c hc] at hstream
    cases hstream
  rw [hstream, pendingCopies_copy] at hcopies
  obtain ⟨rows, pending, ⟨hrows, hgot⟩, hrest, rfl⟩ := List.forall₂_cons_left_iff.1 hcopies
  simp only at hrows hgot
  have hlength : rows.length = n := by rw [← hrows, List.length_map, List.length_range]
  refine ⟨fun hlt =>
      ⟨hpool, hgathering, fun c hc => absurd hc (hnot c), rows :: pending, hsplit, ?_⟩,
    fun hge => ⟨hpool, hgathering, fun c hc => absurd hc (hnot c), pending, ?_, hrest⟩⟩
  · -- The row that is read is the next one.
    refine .cons ⟨hrows, ?_⟩ hrest
    have hlt' : got.length < rows.length := hlength ▸ hlt
    have hrow : (s.pool.heap buf).row got.length = rows[got.length] := by simp [← hrows]
    have htake := List.take_append_getElem hlt'
    rw [← List.prefix_iff_eq_take.1 hgot] at htake
    rw [hrow, htake]
    exact List.take_prefix _ _
  · -- All rows have been read.
    rw [hsplit, hgot.eq_of_length (by have := hgot.length_le; omega), List.append_assoc]
    rfl

/-- A kernel runs. -/
theorem inv_kernel (h : s.Inv) {rest : List Work} (hstream : s.stream = .kernel :: rest) :
    Streamed.Inv { s with stream := rest } := by
  obtain ⟨hpool, hgathering, hdrained, hcopies⟩ := h
  rw [hstream] at hdrained hcopies
  exact ⟨hpool, hgathering, fun c hc => (by cases hdrained c hc), hcopies⟩

end Steps

/-- What a step does. -/
inductive Streamed.Steps (l : PleLayer) (s : Streamed t) : StreamLabel t → Streamed t → Prop
  | enqueue {a : StreamLabel t} {caller : Caller} :
      s.caller = .idle → (∀ c, caller ≠ .gathering c) →
      Steps l s a { s with stream := s.stream ++ [.kernel], caller := caller }
  | toCpu {c : GatherCall} {ids : List Int} {fresh : Rows t.rowBytes} {pool : Pool t} :
      s.caller = .syncing c ids → s.stream = [] → s.pool.step (.call ids fresh) = some pool →
      Steps l s (.toCpu fresh)
        { s with pool := pool, caller := (Caller.gathering c).after pool.main }
  | pool {a : PoolLabel t} {pool : Pool t} :
      (∀ ids fresh, a ≠ .call ids fresh) → s.pool.step a = some pool →
      Steps l s (.pool a) { s with pool := pool, caller := s.caller.after pool.main }
  | copy {c : GatherCall} {ids : List Int} {buf : Nat} :
      s.caller = .gathering c → s.pool.main = .returned ids buf →
      Steps l s .copy { s with
        stream := s.stream ++ .copy buf ids.length [] :: c.afterCopy
        caller := .idle
        gathered := s.gathered ++ [(ids, (List.range ids.length).map (s.pool.heap buf).row)] }
  | noRoom {c : GatherCall} {ids : List Int} {buf : Nat} :
      s.caller = .gathering c → s.pool.main = .returned ids buf →
      Steps l s .copy { s with caller := .idle }
  | kernel {rest : List Work} :
      s.stream = .kernel :: rest → Steps l s .stream { s with stream := rest }
  | row {buf n : Nat} {got : List (List UInt8)} {rest : List Work} :
      s.stream = .copy buf n got :: rest → got.length < n →
      Steps l s .stream { s with
        stream := .copy buf n (got ++ [(s.pool.heap buf).row got.length]) :: rest }
  | done {buf n : Nat} {got : List (List UInt8)} {rest : List Work} :
      s.stream = .copy buf n got :: rest → ¬got.length < n →
      Steps l s .stream { s with stream := rest, copied := s.copied ++ [got] }

/-- A step that is enabled is one of these. -/
theorem Streamed.steps_of_step {l : PleLayer} {s s' : Streamed t} {a : StreamLabel t}
    (h : s.step l a = some s') : s.Steps l a s' := by
  cases a with
  | call c =>
    cases hc : s.caller with
    | idle =>
      obtain rfl := by simpa [Streamed.step, hc] using h
      refine .enqueue hc fun c' => ?_
      split <;> (intro h; cases h)
    | _ => simp [Streamed.step, hc] at h
  | other =>
    cases hc : s.caller with
    | idle =>
      obtain rfl := by simpa [Streamed.step, hc] using h
      exact .enqueue hc fun c' h => (by cases h)
    | _ => simp [Streamed.step, hc] at h
  | toCpu fresh =>
    cases hc : s.caller with
    | syncing c ids =>
      cases hstream : s.stream with
      | nil =>
        cases hpool : s.pool.step (.call ids fresh) with
        | none => simp [Streamed.step, hc, hstream, hpool] at h
        | some pool =>
          obtain rfl := by simpa [Streamed.step, hc, hstream, hpool] using h
          exact hstream ▸ .toCpu hc hstream hpool
      | cons w rest => simp [Streamed.step, hc, hstream] at h
    | _ => simp [Streamed.step, hc] at h
  | pool a =>
    have hcall : ∀ ids fresh, a ≠ .call ids fresh := by
      rintro ids fresh rfl
      simp [Streamed.step] at h
    cases hpool : s.pool.step a with
    | none => cases a <;> simp [Streamed.step, hpool] at h
    | some pool =>
      have hs' : s' = { s with pool := pool, caller := s.caller.after pool.main } := by
        cases a with
        | call ids fresh => exact absurd rfl (hcall ids fresh)
        | _ => simpa [Streamed.step, hpool, eq_comm] using h
      exact hs' ▸ .pool hcall hpool
  | copy =>
    cases hc : s.caller with
    | gathering c =>
      cases hm : s.pool.main with
      | returned ids buf =>
        simp only [Streamed.step, hc, hm] at h
        split_ifs at h <;> obtain rfl := Option.some.inj h
        · exact .copy hc hm
        · exact .noRoom hc hm
      | _ => simp [Streamed.step, hc, hm] at h
    | _ => simp [Streamed.step, hc] at h
  | stream =>
    cases hstream : s.stream with
    | nil => simp [Streamed.step, hstream] at h
    | cons w rest =>
      cases w with
      | kernel =>
        obtain rfl := by simpa [Streamed.step, hstream] using h
        exact .kernel hstream
      | copy buf n got =>
        simp only [Streamed.step, hstream] at h
        split_ifs at h with hn <;> obtain rfl := Option.some.inj h
        · exact .row hstream hn
        · exact .done hstream hn

/-- A step preserves the invariant, and leaves the pool alone while a copy is on the
    stream. -/
theorem inv_step {l : PleLayer} {s s' : Streamed t} {a : StreamLabel t} (h : s.Inv)
    (hfull : ReadsFull s a) (hs : s.step l a = some s') :
    s'.Inv ∧ (pendingCopies s.stream ≠ [] → s'.pool = s.pool) := by
  cases Streamed.steps_of_step hs with
  | enqueue hidle hcaller => exact ⟨inv_enqueue h hidle hcaller, fun _ => rfl⟩
  | @toCpu c _ _ _ hc hstream hpool =>
    exact ⟨inv_toCpu h hstream c hpool, fun hn => absurd (by rw [hstream]; rfl) hn⟩
  | pool hcall hpool =>
    obtain ⟨hstream, hinv⟩ := inv_pool h hcall (fun i r ha => by subst ha; exact hfull) hpool
    exact ⟨hinv, fun hn => absurd (by rw [hstream]; rfl) hn⟩
  | copy hc hm => exact ⟨(inv_copy h hc hm).1, fun _ => rfl⟩
  | noRoom hc hm => exact ⟨(inv_copy h hc hm).2, fun _ => rfl⟩
  | kernel hstream => exact ⟨inv_kernel h hstream, fun _ => rfl⟩
  | row hstream hn => exact ⟨(inv_stream_copy h hstream).1 hn, fun _ => rfl⟩
  | done hstream hn => exact ⟨(inv_stream_copy h hstream).2 hn, fun _ => rfl⟩

theorem inv_initial {s : Streamed t} (h : s.Initial) : s.Inv := by
  obtain ⟨⟨-, hleft, hmain⟩, hstream, hcaller, hgathered, hcopied⟩ := h
  refine ⟨⟨hleft, by rw [hmain]; exact List.forall_mem_nil _⟩, fun hrun => ?_, fun c _ => hstream,
    [], by rw [hgathered, hcopied]; rfl, by rw [hstream]; exact .nil⟩
  rw [hmain] at hrun
  cases hrun

/-! ## The rows of the ids -/

/-- A loop whose rounds return has their results. -/
theorem mapM_eq_ok {ε α β : Type} {f : α → Except ε β} {xs : List α} {g : Nat → β}
    (h : ∀ k x, xs[k]? = some x → f x = .ok (g k)) :
    xs.mapM f = .ok ((List.range xs.length).map g) := by
  induction xs generalizing g with
  | nil => rfl
  | cons x xs ih =>
    rw [List.mapM_cons, h 0 x rfl, ih (g := fun k => g (k + 1)) fun k y hk => h (k + 1) y hk,
      List.length_cons, List.range_succ_eq_map, List.map_cons, List.map_map]
    rfl

/-- The rows that were gathered are those that are read for the ids. -/
structure Streamed.RowsRead (s : Streamed t) : Prop where
  sound : s.pool.Sound
  gathered : ∀ g ∈ s.gathered, g.1.mapM t.pread = .ok g.2

theorem rowsRead_step {l : PleLayer} {s s' : Streamed t} {a : StreamLabel t}
    (hchunk : 0 ≤ t.chunkRows) (hinv : s.Inv) (h : s.RowsRead) (hs : s.step l a = some s') :
    s'.RowsRead := by
  cases Streamed.steps_of_step hs with
  | enqueue _ _ => exact ⟨h.sound, h.gathered⟩
  | @toCpu c ids fresh pool _ _ hpool =>
    refine ⟨sound_step h.sound (a := .call ids fresh)
      ⟨fun hneg => absurd hneg (by omega), ?_⟩ hpool, h.gathered⟩
    intro buf cap _ _ task ht
    rw [hinv.noFailure.1] at ht
    cases ht
  | @pool a pool hcall hpool =>
    refine ⟨sound_step h.sound ?_ hpool, h.gathered⟩
    cases a with
    | call ids fresh => exact absurd rfl (hcall ids fresh)
    | _ => trivial
  | @copy c ids buf hc hm =>
    refine ⟨h.sound, List.forall_mem_append.2 ⟨h.gathered, List.forall_mem_singleton.2 ?_⟩⟩
    have hmain := h.sound.main
    rw [Pool.MainSound, hm] at hmain
    exact mapM_eq_ok fun k id hk => hmain.2.2 k id hk not_false
  | noRoom _ _ => exact ⟨h.sound, h.gathered⟩
  | kernel _ => exact ⟨h.sound, h.gathered⟩
  | row _ _ => exact ⟨h.sound, h.gathered⟩
  | done _ _ => exact ⟨h.sound, h.gathered⟩

/-! ## Runs -/

/-- In every run whose gathers do not fail: the copies that have run transferred the
    rows gathered for them, one after the other, and the others are on the stream;
    the rows gathered are those that are read for the ids of the call; and while a
    copy is on the stream, no step writes into a staging buffer or replaces the one
    in use. -/
theorem copies_exact {l : PleLayer} {s : Streamed t}
    (hs : ((streamed t l).restrict ReadsFull).Reachable s) :
    s.copied <+: s.gathered.map (·.2) ∧
    s.copied.length + (pendingCopies s.stream).length = s.gathered.length ∧
    (0 ≤ t.chunkRows → ∀ g ∈ s.gathered, g.1.mapM t.pread = .ok g.2) ∧
    ∀ a s', ((streamed t l).restrict ReadsFull).step s a s' → pendingCopies s.stream ≠ [] →
      s'.pool.heap = s.pool.heap ∧ s'.pool.staging = s.pool.staging := by
  obtain ⟨hinv, hread⟩ : s.Inv ∧ (0 ≤ t.chunkRows → s.RowsRead) := by
    refine hs.invariant (P := fun s => s.Inv ∧ (0 ≤ t.chunkRows → s.RowsRead)) (fun s h => ?_)
      fun s a s' h hstep => ?_
    · refine ⟨inv_initial h, fun _ => ⟨sound_initial h.1, ?_⟩⟩
      rw [h.2.2.2.1]
      exact List.forall_mem_nil _
    · exact ⟨(inv_step h.1 hstep.1 hstep.2).1,
        fun hchunk => rowsRead_step hchunk h.1 (h.2 hchunk) hstep.2⟩
  obtain ⟨pending, hsplit, hcopies⟩ := hinv.copies
  refine ⟨⟨pending, hsplit.symm⟩, ?_, fun hchunk => (hread hchunk).gathered,
    fun a s' hstep hn => ?_⟩
  · rw [hcopies.length_eq, ← List.length_append, ← hsplit, List.length_map]
  · have hpool := (inv_step hinv hstep.1 hstep.2).2 hn
    rw [hpool]
    exact ⟨rfl, rfl⟩

/-- Nothing is allocated or enqueued. -/
def Streamed.empty (t : Table) : Streamed t := ⟨.empty t, [], .idle, [], []⟩

/-- A step of one token with two heads, and a padding token; its copy lags behind
    the next call, which waits for it. -/
def twoGathers : List (StreamLabel oneByOne) :=
  [.call (.stageRows [2, 0] 1 2 true), .stream, .toCpu (.zero 2), .pool .submit, .pool .submit,
    .pool (.work 1 .full), .pool (.work 0 .full), .pool .await, .pool .await, .pool .await, .copy,
    .call (.gatherInto [1] 1), .stream, .stream, .stream, .stream, .stream, .toCpu (.zero 2),
    .pool .submit, .pool (.work 0 .full), .pool .await, .pool .await, .copy, .stream]

/-- The second copy has read its row, and is not yet done. -/
theorem copies_exact_twoGathers :
    ∃ s, twoGathers.foldlM (Streamed.step ⟨2, 8, false⟩) (Streamed.empty oneByOne) = some s ∧
      s.copied = [[[5, 6], [1, 2]]] ∧ s.copied <+: s.gathered.map (·.2) ∧
      s.copied.length + (pendingCopies s.stream).length = s.gathered.length := by
  have hfull : ∀ a ∈ twoGathers, ∀ s, ReadsFull s a := by
    simp [twoGathers, ReadsFull]
  have hstart : ((streamed oneByOne ⟨2, 8, false⟩).restrict ReadsFull).Reachable
      (Streamed.empty oneByOne) := .init ⟨⟨rfl, rfl, rfl⟩, rfl, rfl, rfl, rfl⟩
  have hexact := copies_exact (System.Reachable.replay hstart hfull rfl)
  exact ⟨_, rfl, rfl, hexact.1, hexact.2.1⟩

end FlashNext.Ple
