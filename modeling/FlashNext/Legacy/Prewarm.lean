import FlashNext.While
import FlashNext.Legacy.Gather

/-!
# Prewarming a legacy table

`MmapPleTable.prewarm`, which reads the shards for the page cache to hold them. Its
loop counts the bytes from the offset of the shard on, but the file has been opened
at its start and is never moved there: it reads as many bytes as the shard has, from
the start of the file.

`prewarm_covers_iff`: the loop ends, and has read every byte of every shard once,
exactly when the shards are at the start of their files, or have no bytes.
-/

namespace FlashNext.Legacy

open Python Safetensors

/-- What the operating system decides: how many bytes a read gives at most, but one
    at least. The calls are counted. -/
structure ReadSizes where
  size : Nat → Nat
  size_pos : ∀ call, 0 < size call

/-- The state of the loop over a shard: its counter `pos`, the position in the file,
    the reads so far with their positions and sizes, whether a read has found nothing,
    and the number of calls. -/
structure Warming where
  pos : Nat
  filePos : Nat
  reads : List (Nat × Nat)
  stopped : Bool
  calls : Nat

/-- `64 << 20`. -/
def block : Nat := 64 * 2 ^ 20

/-- `f.readinto(bytearray(want))`: the number of bytes. -/
def readinto (sizes : ReadSizes) (file : File) (want : Nat) (s : Warming) : Nat :=
  min want (min (sizes.size s.calls) (file.bytes.length - s.filePos))

/-- One round of `while pos < end`. -/
def warm (sizes : ReadSizes) (file : File) (last : Nat) (s : Warming) : Warming :=
  let n := readinto sizes file (min block (last - s.pos)) s
  { pos := s.pos + n
    filePos := s.filePos + n
    reads := s.reads ++ [(s.filePos, n)]
    stopped := decide (n = 0)
    calls := s.calls + 1 }

/-- The loop over one shard, in its file. -/
def prewarmShard (sizes : ReadSizes) (fuel rowBytes : Nat) (m : Memmap) (calls : Nat) :
    ExceptT Err Option Warming :=
  let last := m.offset + m.rows * rowBytes
  whileLoop (fun s => !s.stopped && decide (s.pos < last))
    (fun s => pure (warm sizes m.file last s)) fuel ⟨m.offset, 0, [], false, calls⟩

/-- The loop over the shards: the reads of each of them. -/
def prewarmAll (sizes : ReadSizes) (fuel rowBytes : Nat) :
    List (Option Memmap) → Nat → ExceptT Err Option (List (List (Nat × Nat)))
  | [], _ => return []
  | none :: mm, calls => do
    let rest ← prewarmAll sizes fuel rowBytes mm calls
    return [] :: rest
  | some m :: mm, calls => do
    let s ← prewarmShard sizes fuel rowBytes m calls
    let rest ← prewarmAll sizes fuel rowBytes mm s.calls
    return s.reads :: rest

/-- `prewarm`. -/
def MmapPleTable.prewarm (t : MmapPleTable) (sizes : ReadSizes) (fuel : Nat) :
    ExceptT Err Option (List (List (Nat × Nat))) :=
  prewarmAll sizes fuel t.rowBytes t.mm 0

/-- How many of the reads have the byte at a position. -/
def timesRead (reads : List (Nat × Nat)) (b : Nat) : Nat :=
  reads.countP fun r => r.1 ≤ b && b < r.1 + r.2

/-- The loop ends, and for every shard its reads have each of its bytes once. -/
def MmapPleTable.Prewarms (t : MmapPleTable) (sizes : ReadSizes) : Prop :=
  ∃ enough, ∀ fuel, enough ≤ fuel → ∃ reads, t.prewarm sizes fuel = pure reads ∧
    ∀ i m, t.memmapAt i = some m → ∀ b, m.offset ≤ b → b < m.offset + m.rows * t.rowBytes →
      timesRead (reads.getD i []) b = 1

/-! ## What is read -/

section Shard

variable (sizes : ReadSizes) {rowBytes : Nat} {m : Memmap}

/-- The invariant of the loop: the counter is ahead of the file by the offset of the
    shard, and the file has been read from its start, once. -/
structure Warming.Inv (rowBytes : Nat) (m : Memmap) (s : Warming) : Prop where
  pos : s.pos = m.offset + s.filePos
  le : s.filePos ≤ m.rows * rowBytes
  going : s.stopped = false
  reads : ∀ b, timesRead s.reads b = if b < s.filePos then 1 else 0

/-- A round reads some bytes behind those read before. -/
theorem Warming.Inv.warm {s : Warming} (h : s.Inv rowBytes m)
    (hfile : m.rows * rowBytes ≤ m.file.bytes.length)
    (hlt : s.pos < m.offset + m.rows * rowBytes) :
    (Legacy.warm sizes m.file (m.offset + m.rows * rowBytes) s).Inv rowBytes m ∧
      s.filePos < (Legacy.warm sizes m.file (m.offset + m.rows * rowBytes) s).filePos := by
  obtain ⟨hpos, hle, -, hreads⟩ := h
  have hsize := sizes.size_pos s.calls
  obtain ⟨n, hn⟩ : ∃ n, n = readinto sizes m.file
      (min block (m.offset + m.rows * rowBytes - s.pos)) s := ⟨_, rfl⟩
  have hn0 : 0 < n ∧ s.filePos + n ≤ m.rows * rowBytes := by
    rw [hn, readinto, block]
    omega
  simp only [Legacy.warm, ← hn]
  refine ⟨⟨by simp only; omega, hn0.2, by simp; omega, fun b => ?_⟩, by omega⟩
  -- The byte is before the read, in it, or after it.
  simp only [timesRead, List.countP_append, List.countP_singleton] at hreads ⊢
  rw [hreads]
  by_cases h1 : b < s.filePos
  · simp [h1, show ¬s.filePos ≤ b by omega, show b < s.filePos + n by omega]
  · by_cases h2 : b < s.filePos + n
    · simp [h1, h2, show s.filePos ≤ b by omega]
    · simp [h1, h2]

/-- The loop over a shard ends, and has read as many bytes as the shard has, from
    the start of the file. -/
theorem prewarmShard_spec (hfile : m.rows * rowBytes ≤ m.file.bytes.length) {fuel : Nat}
    (hfuel : m.rows * rowBytes < fuel) (calls : Nat) :
    ∃ s, prewarmShard sizes fuel rowBytes m calls = pure s ∧
      ∀ b, timesRead s.reads b = if b < m.rows * rowBytes then 1 else 0 := by
  have hround : ∀ s : Warming, s.Inv rowBytes m →
      (!s.stopped && decide (s.pos < m.offset + m.rows * rowBytes)) = true →
      ∃ s', (pure (warm sizes m.file (m.offset + m.rows * rowBytes) s) : ExceptT Err Option _) =
        pure s' ∧ s'.Inv rowBytes m ∧
        m.rows * rowBytes - s'.filePos < m.rows * rowBytes - s.filePos := by
    intro s hs hcond
    simp only [Bool.and_eq_true, decide_eq_true_eq] at hcond
    obtain ⟨hs', hlt⟩ := hs.warm sizes hfile hcond.2
    exact ⟨_, rfl, hs', by have := hs'.le; omega⟩
  obtain ⟨s, hs, hinv, hcond⟩ := whileLoop_spec _ _ hround
    (s := ⟨m.offset, 0, [], false, calls⟩) ⟨rfl, Nat.zero_le _, rfl, by simp [timesRead]⟩
    (show m.rows * rowBytes - 0 < fuel by omega)
  refine ⟨s, hs, fun b => ?_⟩
  have hend : s.filePos = m.rows * rowBytes := by
    simp only [hinv.going, Bool.not_false, Bool.true_and, decide_eq_false_iff_not] at hcond
    have := hinv.pos
    have := hinv.le
    omega
  rw [hinv.reads, hend]

/-- The loop over the shards ends, with such reads for each of them. -/
theorem prewarmAll_spec {mm : List (Option Memmap)} (hfile : ∀ m, some m ∈ mm →
      m.rows * rowBytes ≤ m.file.bytes.length) {fuel : Nat}
    (hfuel : ∀ m, some m ∈ mm → m.rows * rowBytes < fuel) (calls : Nat) :
    ∃ reads, prewarmAll sizes fuel rowBytes mm calls = pure reads ∧
      ∀ i m, mm[i]?.join = some m → ∀ b,
        timesRead (reads.getD i []) b = if b < m.rows * rowBytes then 1 else 0 := by
  induction mm generalizing calls with
  | nil => exact ⟨[], rfl, by simp⟩
  | cons m? mm ih =>
    have ih := ih (fun m hm => hfile m (List.mem_cons_of_mem _ hm))
      (fun m hm => hfuel m (List.mem_cons_of_mem _ hm))
    cases m? with
    | none =>
      obtain ⟨reads, hreads, hall⟩ := ih calls
      refine ⟨[] :: reads, by rw [prewarmAll, hreads, pure_bind], fun i m hm b => ?_⟩
      cases i with
      | zero => cases hm
      | succ i => exact hall i m hm b
    | some m₀ =>
      obtain ⟨s, hs, hone⟩ := prewarmShard_spec sizes (hfile m₀ List.mem_cons_self)
        (hfuel m₀ List.mem_cons_self) calls
      obtain ⟨reads, hreads, hall⟩ := ih s.calls
      refine ⟨s.reads :: reads, by rw [prewarmAll, hs, pure_bind, hreads, pure_bind],
        fun i m hm b => ?_⟩
      cases i with
      | zero =>
        obtain rfl : m₀ = m := by simpa using hm
        exact hone b
      | succ i => exact hall i m hm b

end Shard

/-- The shards are within their files. -/
theorem within_of_init {shards : List (Nat × Listing)} {size rowBytes : Nat}
    {chunk fastRows : Int} {t : MmapPleTable}
    (h : MmapPleTable.init shards size rowBytes chunk fastRows = .ok t) {m : Memmap}
    (hm : some m ∈ t.mm) : m.rows * t.rowBytes ≤ m.file.bytes.length := by
  obtain ⟨-, hbytes, -, hmm, hfile⟩ := MmapPleTable.of_init h
  obtain ⟨i, hi⟩ := List.mem_iff_getElem?.1 hm
  have hget := hmm i
  rw [hi] at hget
  obtain ⟨l, hl, rfl⟩ := Option.map_eq_some_iff.1 hget.symm
  have hregion := hfile _ (mem_of_lookupShard hl)
  simp only at hregion ⊢
  rw [hbytes]
  omega

/-- Fuel that is enough for every shard. -/
theorem exists_enough (t : MmapPleTable) :
    ∃ enough, ∀ m, some m ∈ t.mm → m.rows * t.rowBytes < enough := by
  have hmem : ∀ m, some m ∈ t.mm → m.rows * t.rowBytes ∈
      (t.mm.filterMap id).map fun m : Memmap => m.rows * t.rowBytes := fun m hm =>
    List.mem_map_of_mem (f := fun m : Memmap => m.rows * t.rowBytes)
      (List.mem_filterMap.2 ⟨_, hm, rfl⟩)
  exact ⟨_, fun m hm => Nat.lt_succ_of_le (List.le_max?_getD_of_mem (k := 0) (hmem m hm))⟩

/-- A prewarm of mapped shards ends, and reads every byte of every shard once, exactly
    when each of them is at the start of its file or has no bytes. -/
theorem prewarm_covers_iff {shards : List (Nat × Listing)} {size rowBytes : Nat}
    {chunk fastRows : Int} {t : MmapPleTable}
    (h : MmapPleTable.init shards size rowBytes chunk fastRows = .ok t) (sizes : ReadSizes) :
    t.Prewarms sizes ↔
      ∀ i m, t.memmapAt i = some m → m.offset = 0 ∨ m.rows * t.rowBytes = 0 := by
  obtain ⟨enough, henough⟩ := exists_enough t
  have hreads : ∀ fuel, enough ≤ fuel → ∃ reads, t.prewarm sizes fuel = pure reads ∧
      ∀ i m, t.memmapAt i = some m → ∀ b,
        timesRead (reads.getD i []) b = if b < m.rows * t.rowBytes then 1 else 0 :=
    fun fuel hfuel => prewarmAll_spec sizes (fun m => within_of_init h)
      (fun m hm => (henough m hm).trans_le hfuel) 0
  constructor
  · rintro ⟨enough', hcovers⟩ i m hm
    obtain ⟨reads, hpure, hcover⟩ := hcovers (max enough enough') (le_max_right _ _)
    obtain ⟨reads', hpure', htimes⟩ := hreads (max enough enough') (le_max_left _ _)
    obtain rfl : reads = reads' := by
      have := hpure.symm.trans hpure'
      exact Except.ok.inj (Option.some.inj this)
    by_contra hnot
    -- The last byte of the shard is behind the bytes that are read.
    have hlast := hcover i m hm (m.offset + m.rows * t.rowBytes - 1) (by omega) (by omega)
    rw [htimes i m hm, if_neg (by omega)] at hlast
    cases hlast
  · intro hall
    refine ⟨enough, fun fuel hfuel => ?_⟩
    obtain ⟨reads, hpure, htimes⟩ := hreads fuel hfuel
    refine ⟨reads, hpure, fun i m hm b hle hlt => ?_⟩
    rw [htimes i m hm, if_pos]
    have := hall i m hm
    omega

/-! ## Two shards of a file -/

/-- Reads of any size. -/
def anySize : ReadSizes := ⟨fun _ => 2 ^ 30, fun _ => Nat.two_pow_pos 30⟩

/-- The shard at the start of a file. -/
def firstShard : MmapPleTable where
  shardSize := 1
  rowBytes := 2
  mm := [some ⟨⟨str "a.safetensors", [], 0, [1, 2, 3, 4]⟩, 0, 1⟩]
  chunk := 2048
  fastRows := 512

/-- The shard after it. -/
def secondShard : MmapPleTable :=
  { firstShard with mm := [some ⟨⟨str "a.safetensors", [], 0, [1, 2, 3, 4]⟩, 2, 1⟩] }

theorem secondShard_init : MmapPleTable.init
    [(0, ⟨⟨str "a.safetensors", [], 0, [1, 2, 3, 4]⟩, 2, 1, 2, str "U8"⟩)] 1 2 2048 512 =
      .ok secondShard := rfl

theorem firstShard_init : MmapPleTable.init
    [(0, ⟨⟨str "a.safetensors", [], 0, [1, 2, 3, 4]⟩, 0, 1, 2, str "U8"⟩)] 1 2 2048 512 =
      .ok firstShard := rfl

/-- A shard at the start of its file is read. -/
theorem prewarm_covers_firstShard : firstShard.Prewarms anySize :=
  (prewarm_covers_iff firstShard_init anySize).2 fun i m hm => by
    cases i with
    | zero =>
      obtain rfl := Option.some.inj hm
      exact .inl rfl
    | succ i => cases hm

/-- A shard further on is not: the reads are those of the shard before it. -/
theorem prewarm_covers_secondShard_not :
    secondShard.prewarm anySize 2 = pure [[(0, 2)]] ∧ ¬secondShard.Prewarms anySize := by
  refine ⟨rfl, fun h => ?_⟩
  have := (prewarm_covers_iff secondShard_init anySize).1 h 0 _ rfl
  revert this
  decide

end FlashNext.Legacy
