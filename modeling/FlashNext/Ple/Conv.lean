import Mathlib.Data.List.ProdSigma
import FlashNext.CausalFilter
import FlashNext.Chunks
import FlashNext.Programs
import FlashNext.Segments

/-!
# The short convolution

`ple_conv` of `ops_ple.py`: the dilated short convolution of the n-gram layers, channel
by channel, with a window of the last inputs of every request in a pool of states. A
launch has the tokens of several requests, one request after the other, in one of three
modes: a chunk of a prompt, one token each, or a chunk of draft tokens of which the engine
will keep the first ones only.

The rounds of the loops of a program read in front of what they write
(`decodeRounds_spec`, `writebackRounds_spec`), so that a state may be moved up in place.

The arithmetic is a parameter, and may round: the sums are taken in the order of the
kernel. Casts between the types of the tensors are left out.
-/

namespace FlashNext.Ple

/-- The exceptions of the short convolution. -/
inductive ConvErr
  | assertionError
  | valueError
  | runtimeError
  deriving DecidableEq

/-- `MODE`. -/
inductive ConvMode
  | decode
  | spec
  | prefill
  deriving DecidableEq

/-- The memory of the kernels: the pool of states, and the output. -/
inductive ConvCell
  | state (slot : Int) (w c : Nat)
  | residual (row c : Nat)
  deriving DecidableEq

/-- The weights and the arithmetic of a layer. -/
structure ConvLayer (V W A : Type*) where
  channels : Nat
  kernelSize : Nat
  dilation : Nat
  /-- `conv_weights[c, k]`. -/
  convWeights : Nat → Nat → W
  zero : V
  start : A
  /-- `acc += weight * tap`. -/
  mac : A → W → V → A
  /-- The sum, cast and through SiLU. -/
  output : A → V
  /-- `residual + conv_output`. -/
  add : V → V → V
  /-- `NULL_STATE_ID`. -/
  nullStateId : Int

/-- The arguments of `ple_conv`. The inputs and the output may be views that start at a
    row of larger ones. -/
structure ConvArgs (V : Type*) where
  mode : ConvMode
  inputs : Nat → Nat → V
  firstRow : Nat
  numInputs : Nat
  /-- The shape of `conv_state`, but for its slots. -/
  stateChannels : Nat
  stateWindow : Nat
  stateIndices : List Int
  queryStartLoc : Option (List Nat)
  numAcceptedTokens : Option (List Int)
  hasInitialStates : Option (List Bool)
  specQueryLen : Nat
  tokenIndices : Option (List Nat)

/-- `BLOCK_C`. -/
def blockC : Nat := 512

variable {V W A : Type*}

namespace ConvArgs

variable (a : ConvArgs V)

/-- `kernel_spec_query_len`. -/
def kernelSpecQueryLen : Nat := if a.mode = .spec then a.specQueryLen else 1

/-- `T`. -/
def numTokens : Nat :=
  match a.tokenIndices with
  | some rows => rows.length
  | none => a.numInputs

/-- The row of a token, in the inputs and in the output. -/
def row (t : Nat) : Nat :=
  match a.tokenIndices with
  | some rows => a.firstRow + rows.getD t 0
  | none => a.firstRow + t

/-- `num_reqs`. -/
def numReqs : Nat := if a.mode = .decode then a.numTokens else a.stateIndices.length

/-- The starts of the requests and the end, as far as the kernels read them. -/
def starts : List Nat := (a.queryStartLoc.getD []).take (a.numReqs + 1)

/-- `q_start`. -/
def qStart (r : Nat) : Nat := if a.mode = .decode then r else a.starts.getD r 0

/-- `qlen`. -/
def qlen (r : Nat) : Nat :=
  if a.mode = .decode then 1 else a.starts.getD (r + 1) 0 - a.starts.getD r 0

/-- `shift`: by how much the state moves up. -/
def shift (r : Nat) : Nat := if a.mode = .spec then 1 else a.qlen r

/-- `sid`. -/
def sid (r : Nat) : Int := a.stateIndices.getD r 0

/-- `has_init` of a request that has a state. -/
def hasInit (r : Nat) : Bool :=
  if a.mode = .spec then true
  else match a.hasInitialStates with
    | some flags => flags.getD r false
    | none => true

/-- `slot_off`: the draft state is rolled back to the last accepted token. -/
def slotOff (r : Nat) : Nat :=
  if a.mode = .spec then
    (min (max ((a.numAcceptedTokens.getD []).getD r 0 - 1) 0)
      ((a.kernelSpecQueryLen : Int) - 1)).toNat
  else 0

end ConvArgs

/-- Where a program of `_ple_conv_kernel` is: its request, and the place of its token in
    it. -/
structure ConvLane where
  req : Nat
  j : Nat
  inRange : Bool

/-- The request of a token, found by a binary search, and its place in it. -/
def ConvArgs.lane (a : ConvArgs V) (t : Nat) : ConvLane :=
  if a.mode = .decode then ⟨t, 0, true⟩
  else
    let range := bisect a.starts t (max a.numReqs 1).size (1, a.numReqs + 1)
    let req := min (range.1 - 1) (a.numReqs - 1)
    ⟨req, t - a.starts.getD req 0, decide (t < a.starts.getD a.numReqs 0)⟩

namespace ConvLayer

variable (self : ConvLayer V W A) (a : ConvArgs V)

/-- `STATE_LEN`. -/
def stateLen : Nat := (self.kernelSize - 1) * self.dilation

/-- `STATE_WIDTH`. -/
def stateWidth : Nat := self.stateLen + a.kernelSpecQueryLen - 1

/-- The filter of a channel. -/
def filter (c : Nat) : CausalFilter V W A where
  kernelSize := self.kernelSize
  dilation := self.dilation
  weights := self.convWeights c
  start := self.start
  mac := self.mac

/-- `state_ok`. -/
def stateOk (r : Nat) : Bool := decide (a.sid r ≠ self.nullStateId)

/-- `read_state`. -/
def readState (r : Nat) : Bool :=
  if a.mode = .spec then self.stateOk a r else self.stateOk a r && a.hasInit r

/-- `out_ok`. -/
def outOk (lane : ConvLane) : Bool :=
  if a.mode = .spec then lane.inRange else lane.inRange && self.stateOk a lane.req

/-- The channels of a program. -/
def block (pid : Nat) : List Nat := programLanes blockC self.channels pid

/-! ## The kernel of the outputs -/

/-- `tap`: from the state, or from the inputs. -/
def tap (m : ConvCell → V) (lane : ConvLane) (c k : Nat) : V :=
  let h := lane.j + self.dilation * k
  if h < self.stateLen then
    if self.readState a lane.req then m (.state (a.sid lane.req) (a.slotOff lane.req + h) c)
    else self.zero
  else if self.outOk a lane then
    a.inputs (a.row (a.qStart lane.req + (h - self.stateLen))) c
  else self.zero

/-- `conv_output`. -/
def convOutput (m : ConvCell → V) (lane : ConvLane) (c : Nat) : V :=
  if self.outOk a lane then self.output ((self.filter c).combine (self.tap a m lane c))
  else self.zero

/-- A round of the loop by which a program in decode mode moves up its state. -/
def decodeRound (t pid i : Nat) (m : ConvCell → V) : ConvCell → V :=
  scatter (fun c => .state (a.sid t) i c)
    (fun c => if i + 1 < self.stateLen then
        if a.hasInit t then m (.state (a.sid t) (i + 1) c) else self.zero
      else a.inputs (a.row t) c)
    (self.block pid) m

/-- `_ple_conv_kernel`: the program of a token and a block of channels. -/
def convProgram (x : Nat × Nat) (m : ConvCell → V) : ConvCell → V :=
  let (t, pid) := x
  let lane := a.lane t
  let out := scatter (fun c => ConvCell.residual (a.row t) c)
    (fun c => self.add (m (.residual (a.row t) c)) (self.convOutput a m lane c))
    (self.block pid) m
  if a.mode = .decode ∧ self.stateOk a t then
    runPrograms (self.decodeRound a t pid) (List.range self.stateLen) out
  else out

/-! ## The kernel of the states -/

/-- A round of the loop of `_ple_conv_writeback_kernel`. -/
def writebackRound (r pid i : Nat) (m : ConvCell → V) : ConvCell → V :=
  -- Short or padded chunks of draft tokens leave the unused tail of the state.
  if a.mode = .spec ∧ ¬i + 1 < self.stateLen + a.qlen r then m
  else
    scatter (fun c => .state (a.sid r) i c)
      (fun c => if a.shift r + i < self.stateLen then
          if a.hasInit r then m (.state (a.sid r) (a.slotOff r + (a.shift r + i)) c)
          else self.zero
        else a.inputs (a.row (a.qStart r + (a.shift r + i - self.stateLen))) c)
      (self.block pid) m

/-- `WRITE_W`. -/
def writeWidth : Nat := if a.mode = .spec then self.stateWidth a else self.stateLen

/-- `_ple_conv_writeback_kernel`: the program of a request and a block of channels. -/
def writebackProgram (x : Nat × Nat) (m : ConvCell → V) : ConvCell → V :=
  let (r, pid) := x
  if !self.stateOk a r then m
  else if a.mode ≠ .spec ∧ a.qlen r = 0 then m
  else runPrograms (self.writebackRound a r pid) (List.range (self.writeWidth a)) m

/-! ## The launch -/

/-- The programs for `n` tokens or requests. -/
def grid (n : Nat) : List (Nat × Nat) :=
  List.product (List.range n) (List.range ((self.channels + blockC - 1) / blockC))

/-- The two kernels, with their programs in some order; the state is updated by the first
    one in decode mode. -/
def launch (order order' : List (Nat × Nat)) (m : ConvCell → V) : ConvCell → V :=
  let m := runPrograms (self.convProgram a) order m
  if a.mode = .decode then m else runPrograms (self.writebackProgram a) order' m

/-- `ple_conv`. -/
def pleConv (m : ConvCell → V) : Except ConvErr (ConvCell → V) :=
  if a.stateChannels ≠ self.channels ∨ a.stateWindow < self.stateWidth a then .error .valueError
  else if a.mode = .spec ∧ (a.queryStartLoc.isNone ∨ a.numAcceptedTokens.isNone) then
    .error .valueError
  else if a.mode = .prefill ∧ (a.queryStartLoc.isNone ∨ a.hasInitialStates.isNone) then
    .error .valueError
  else .ok (self.launch a (self.grid a.numTokens) (self.grid a.numReqs) m)

/-! ## What the programs touch -/

/-- The cells of a row of a state, in the channels of a program. -/
def rowCells (r w pid : Nat) (k : ConvCell) : Prop :=
  ∃ c ∈ self.block pid, k = .state (a.sid r) w c

/-- What a round of the second kernel writes. -/
def roundWrites (r pid i : Nat) (k : ConvCell) : Prop :=
  (a.mode = .spec → i + 1 < self.stateLen + a.qlen r) ∧ self.rowCells a r i pid k

variable {self a} {m : ConvCell → V} {t r pid i c : Nat} {k : ConvCell}

theorem mem_block : c ∈ self.block pid ↔ c / blockC = pid ∧ c < self.channels :=
  mem_programLanes (by decide)

/-- The programs for `n` tokens or requests are one for each of them and each block. -/
theorem mem_grid {n : Nat} {x : Nat × Nat} (hx : x ∈ self.grid n) : x.1 < n := by
  obtain ⟨t, pid⟩ := x
  exact List.mem_range.1 (List.pair_mem_product.1 hx).1

theorem mem_grid_block {n : Nat} (ht : t < n) (hc : c < self.channels) :
    (t, c / blockC) ∈ self.grid n ∧ c ∈ self.block (c / blockC) :=
  ⟨List.pair_mem_product.2 ⟨List.mem_range.2 ht, List.mem_range.2
    (div_lt_programs (by decide) hc)⟩, mem_block.2 ⟨rfl, hc⟩⟩

theorem nodup_grid (n : Nat) : (self.grid n).Nodup :=
  List.nodup_range.product List.nodup_range

/-- The cells of a block, one for each channel. -/
theorem scatter_block {cell : Nat → ConvCell} {val : Nat → V} (hcell : Function.Injective cell)
    (hc : c ∈ self.block pid) : scatter cell val (self.block pid) m (cell c) = val c :=
  scatter_of_mem hc fun _ _ h => hcell h

theorem scatter_block_of_ne {cell : Nat → ConvCell} {val : Nat → V}
    (hk : ¬∃ c ∈ self.block pid, k = cell c) : scatter cell val (self.block pid) m k = m k :=
  scatter_of_ne fun c hc h => hk ⟨c, hc, h.symm⟩

theorem state_injective (s : Int) (w : Nat) : Function.Injective (ConvCell.state s w) :=
  fun _ _ h => by injection h

theorem residual_injective (row : Nat) : Function.Injective (ConvCell.residual row) :=
  fun _ _ h => by injection h

theorem rowCells_of_mem {w : Nat} (hc : c ∈ self.block pid) :
    self.rowCells a r w pid (.state (a.sid r) w c) := ⟨c, hc, rfl⟩

/-- Two rows of a state have no common cells. -/
theorem rowCells_unique {w w' pid' : Nat} (h : self.rowCells a r w pid k)
    (h' : self.rowCells a r w' pid' k) : w = w' := by
  obtain ⟨c, -, rfl⟩ := h
  obtain ⟨c', -, h⟩ := h'
  injection h

/-- What a round in decode mode touches. -/
theorem decodeRound_footprint (t pid : Nat) :
    Footprint (fun i => self.rowCells a t (i + 1) pid) (fun i => self.rowCells a t i pid)
      (self.decodeRound a t pid) where
  frame i m k hk := scatter_block_of_ne hk
  congr i m m' h k hk := by
    obtain ⟨c, hc, rfl⟩ := hk
    simp only [decodeRound, scatter_block (state_injective _ _) hc, h _ (rowCells_of_mem hc)]

/-- The rounds of a program in decode mode, from the oldest input on. -/
theorem decodeRounds_spec (t pid : Nat) (m : ConvCell → V) :
    (∀ w < self.stateLen, ∀ c ∈ self.block pid,
      runPrograms (self.decodeRound a t pid) (List.range self.stateLen) m (.state (a.sid t) w c) =
        if w + 1 < self.stateLen then
          if a.hasInit t then m (.state (a.sid t) (w + 1) c) else self.zero
        else a.inputs (a.row t) c) ∧
    ∀ k, (∀ w < self.stateLen, ¬self.rowCells a t w pid k) →
      runPrograms (self.decodeRound a t pid) (List.range self.stateLen) m k = m k := by
  -- A round writes behind what the later ones read.
  have hclear : (List.range self.stateLen).Pairwise
      (Clear (fun i => self.rowCells a t (i + 1) pid) fun i => self.rowCells a t i pid) :=
    List.pairwise_lt_range.imp fun hij k hk =>
      ⟨fun h => by have := rowCells_unique hk h; omega, fun h => hij.ne (rowCells_unique hk h)⟩
  obtain ⟨hown, hframe⟩ := runPrograms_spec (decodeRound_footprint t pid) hclear m
  refine ⟨fun w hw c hc => ?_, fun k hk => hframe k fun w hw => hk w (List.mem_range.1 hw)⟩
  rw [hown w (List.mem_range.2 hw) _ (rowCells_of_mem hc), decodeRound,
    scatter_block (state_injective _ _) hc]

/-- What a round of the second kernel touches. -/
theorem writebackRound_footprint (r pid : Nat) :
    Footprint (fun i => self.rowCells a r (a.slotOff r + (a.shift r + i)) pid)
      (fun i => self.roundWrites a r pid i) (self.writebackRound a r pid) where
  frame i m k hk := by
    by_cases hskip : a.mode = .spec ∧ ¬i + 1 < self.stateLen + a.qlen r
    · rw [writebackRound, if_pos hskip]
    · rw [writebackRound, if_neg hskip]
      refine scatter_block_of_ne fun hc => hk ⟨fun hspec => ?_, hc⟩
      by_contra hlt
      exact hskip ⟨hspec, hlt⟩
  congr i m m' h k hk := by
    obtain ⟨hspec, c, hc, rfl⟩ := hk
    have hskip : ¬(a.mode = .spec ∧ ¬i + 1 < self.stateLen + a.qlen r) := fun h => h.2 (hspec h.1)
    simp only [writebackRound, if_neg hskip, scatter_block (state_injective _ _) hc,
      h _ (rowCells_of_mem hc)]

/-- The rounds of a program of the second kernel. -/
theorem writebackRounds_spec (r pid : Nat) (hshift : 0 < a.shift r) (m : ConvCell → V) :
    (∀ w < self.writeWidth a, (a.mode = .spec → w + 1 < self.stateLen + a.qlen r) →
      ∀ c ∈ self.block pid,
      runPrograms (self.writebackRound a r pid) (List.range (self.writeWidth a)) m
          (.state (a.sid r) w c) =
        if a.shift r + w < self.stateLen then
          if a.hasInit r then m (.state (a.sid r) (a.slotOff r + (a.shift r + w)) c)
          else self.zero
        else a.inputs (a.row (a.qStart r + (a.shift r + w - self.stateLen))) c) ∧
    ∀ k, (∀ w < self.writeWidth a, ¬self.roundWrites a r pid w k) →
      runPrograms (self.writebackRound a r pid) (List.range (self.writeWidth a)) m k = m k := by
  have hclear : (List.range (self.writeWidth a)).Pairwise
      (Clear (fun i => self.rowCells a r (a.slotOff r + (a.shift r + i)) pid)
        fun i => self.roundWrites a r pid i) :=
    List.pairwise_lt_range.imp fun hij k hk =>
      ⟨fun h => by have := rowCells_unique hk.2 h; omega,
        fun h => hij.ne (rowCells_unique hk.2 h.2)⟩
  obtain ⟨hown, hframe⟩ := runPrograms_spec (writebackRound_footprint r pid) hclear m
  refine ⟨fun w hw hspec c hc => ?_, fun k hk => hframe k fun w hw => hk w (List.mem_range.1 hw)⟩
  have hskip : ¬(a.mode = .spec ∧ ¬w + 1 < self.stateLen + a.qlen r) := fun h => h.2 (hspec h.1)
  rw [hown w (List.mem_range.2 hw) _ ⟨hspec, rowCells_of_mem hc⟩, writebackRound, if_neg hskip,
    scatter_block (state_injective _ _) hc]

end ConvLayer

end FlashNext.Ple
