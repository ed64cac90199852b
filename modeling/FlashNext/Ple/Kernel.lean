import Mathlib.Data.Nat.Log
import FlashNext.Ple.NGram

/-!
# The kernel of the n-gram ids

`ple_ngram_ids` of `ops_ple.py`, the same ids on a GPU: every lane of a block
finds the request of its token by a binary search, and then walks back through
the tokens before it, from the newest to the oldest, and adds their terms to the
heads whose window they are in. Once it has met an EOS, it takes all older tokens
for EOS.

* `remainder_eq_smod`: the remainder of the kernel is that of `torch.remainder`;
* `computeNgramIds_eq_hash`: on either device, the ids of a token are the hash of
  its window;
* `kernel_eq_cpu`: the programs of a launch, whose stores may come in any order,
  leave the ids of the CPU in the output.
-/

namespace FlashNext.Ple

/-- `BLOCK_T`. -/
def blockT : Nat := 8

/-- Where a lane is: its token, its request, and the place of the token in it. -/
structure Lane where
  token : Nat
  req : Nat
  chunkPos : Nat

/-- What a lane has in its walk: an EOS was met, and the mix of each head. -/
structure Walk where
  crossed : Bool
  mixed : Nat → BitVec 64

/-- The lane of a token. -/
def NgramInputs.lane {len : Nat} (i : NgramInputs len) (t : Nat) : Lane :=
  let range := bisect i.queryStartLoc t i.numReqs.size (1, i.numReqs + 1)
  let req := min (range.1 - 1) (i.numReqs - 1)
  ⟨t, req, t - i.queryStartLoc.getD req 0⟩

/-- `remainders`, in signed arithmetic: `%` has the sign of its first operand. -/
def remainder (mixed size : BitVec 64) : BitVec 64 :=
  let rem := mixed.srem size
  if rem.toInt < 0 then rem + size else rem

namespace NgramEmbedding

variable (self : NgramEmbedding)

/-- `ngram_order`: the window of the head `g`. -/
def ngramOrder (g : Nat) : Nat := g / self.headsPerNgram + 2

/-- The walk goes back to the token `shift` places before that of the lane. -/
def walkStep (i : NgramInputs self.contextLen) (lane : Lane) (walk : Walk) (shift : Nat) : Walk :=
  let inStep := decide (shift ≤ lane.chunkPos)
  let ctxCol := self.contextLen - shift + lane.chunkPos
  let stepToken := if inStep then i.token (lane.token - shift) else 0
  let contextToken := if inStep then 0 else i.context lane.req ctxCol
  let candidate := if inStep then stepToken else contextToken
  let candidate := if walk.crossed then self.eosTokenId else candidate
  let term := candidate * self.layerMultipliers shift
  { crossed := walk.crossed || candidate == self.eosTokenId
    mixed := fun g => walk.mixed g ^^^ if shift < self.ngramOrder g then term else 0 }

/-- The walk through the first `m` tokens before that of the lane. -/
def walk (i : NgramInputs self.contextLen) (lane : Lane) (m : Nat) : Walk :=
  (List.range' 1 m).foldl (self.walkStep i lane)
    ⟨false, fun _ => i.token lane.token * self.layerMultipliers 0⟩

/-- The ids that a lane stores. -/
def laneIds (i : NgramInputs self.contextLen) (lane : Lane) : List (BitVec 64) :=
  (List.range self.ngramHeads).map fun g =>
    remainder ((self.walk i lane self.contextLen).mixed g) (self.ngramHeadsVocabSizes g) +
      self.ngramHeadsOffsets g

/-- `ple_ngram_ids`: the blocks of lanes, up to the last token. -/
def pleNgramIds (i : NgramInputs self.contextLen) : List (List (BitVec 64)) :=
  (chunks blockT (List.range i.numTokens)).flatMap fun block =>
    block.map fun t => self.laneIds i (i.lane t)

end NgramEmbedding

/-- Where the tensors are. -/
inductive Device
  | cpu
  | cuda

/-- `compute_ngram_ids`. -/
def NgramEmbedding.computeNgramIds (self : NgramEmbedding) (device : Device)
    (i : NgramInputs self.contextLen) : List (List (BitVec 64)) :=
  match device with
  | .cuda => self.pleNgramIds i
  | .cpu => self.computeNgramIdsCpu i

/-! ## The kernel hashes windows -/

/-- The remainder of the kernel has the sign of the size. -/
theorem remainder_eq_smod {mixed size : BitVec 64} (hsize : 0 < size.toInt) :
    remainder mixed size = mixed.smod size := by
  have hrem := BitVec.toInt_srem mixed size
  have hlt := Int.emod_lt_of_pos mixed.toInt hsize
  have hnonneg := Int.emod_nonneg mixed.toInt hsize.ne'
  have hbound := BitVec.toInt_lt (x := size)
  rw [Int.tmod_eq_emod] at hrem
  apply BitVec.eq_of_toInt_eq
  rw [toInt_smod hsize, remainder]
  split_ifs at hrem with hsign
  · rw [if_neg (by omega), hrem, Int.natCast_zero, Int.sub_zero]
  · -- The remainder of a negative number is below its modulus by the size.
    rw [Int.natAbs_of_nonneg hsize.le] at hrem
    rw [if_pos (by omega), BitVec.toInt_add, hrem, Int.sub_add_cancel]
    exact Int.bmod_eq_of_le (by omega) (by omega)

/-- A mix of one more token. -/
theorem NgramEmbedding.mix_succ (self : NgramEmbedding) (w : Nat → BitVec 64) (m : Nat) :
    self.mix w (m + 2) = self.mix w (m + 1) ^^^ w (m + 1) * self.layerMultipliers (m + 1) := by
  rw [mix, mix, show m + 2 - 1 = m + 1 from rfl, show m + 1 - 1 = m from rfl, List.range'_1_concat,
    List.foldl_append, Nat.add_comm 1 m]
  rfl

section Lane

variable {self : NgramEmbedding} {i : NgramInputs self.contextLen} {r p : Nat}

/-- The candidate of a step is the token of the window, or an EOS behind the last
    one. -/
theorem candidate_eq {w : Nat → BitVec 64} {eos : BitVec 64} {m : Nat} {crossed : Bool}
    (hcrossed : crossed = true ↔ ∃ j < m, w (j + 1) = eos) :
    (if crossed then eos else w (m + 1)) = behindEos eos w (m + 1) ∧
    ((crossed || behindEos eos w (m + 1) == eos) = true ↔ ∃ j < m + 1, w (j + 1) = eos) := by
  simp only [behindEos, Nat.exists_lt_succ_right, ← hcrossed]
  by_cases heos : w (m + 1) = eos <;> cases crossed <;> simp [heos]

/-- After `m` steps, the heads have the terms of the first `m` tokens before that
    of the lane. -/
theorem walk_eq {lane : Lane} (hlane : lane = ⟨p, r, p - i.queryStartLoc.getD r 0⟩) {m : Nat}
    (hm : m ≤ self.contextLen) :
    ((self.walk i lane m).crossed = true ↔ ∃ j < m, i.window r p (j + 1) = self.eosTokenId) ∧
    ∀ g, (self.walk i lane m).mixed g =
      self.mix (behindEos self.eosTokenId (i.window r p)) (min (m + 1) (self.ngramOrder g)) := by
  induction m with
  | zero =>
    refine ⟨by simp [NgramEmbedding.walk], fun g => ?_⟩
    have hone : min (0 + 1) (self.ngramOrder g) = 1 := Nat.min_eq_left (Nat.le_add_left 1 _)
    rw [hone, hlane]
    simp [NgramEmbedding.walk, NgramEmbedding.mix, behindEos, NgramInputs.window]
  | succ m ih =>
    obtain ⟨hcrossed, hmixed⟩ := ih (by omega)
    have hwalk : self.walk i lane (m + 1) = self.walkStep i lane (self.walk i lane m) (m + 1) := by
      rw [NgramEmbedding.walk, NgramEmbedding.walk, List.range'_1_concat, List.foldl_append,
        Nat.add_comm 1 m]
      rfl
    have hwindow : (if m + 1 ≤ lane.chunkPos then i.token (lane.token - (m + 1))
        else i.context lane.req (self.contextLen - (m + 1) + lane.chunkPos)) =
        i.window r p (m + 1) := by
      rw [hlane, NgramInputs.window]
      congr 2
      simp only
      omega
    obtain ⟨hcandidate, hnext⟩ := candidate_eq hcrossed
    have hstep : self.walkStep i lane (self.walk i lane m) (m + 1) =
        ⟨(self.walk i lane m).crossed ||
            behindEos self.eosTokenId (i.window r p) (m + 1) == self.eosTokenId,
          fun g => (self.walk i lane m).mixed g ^^^ if m + 1 < self.ngramOrder g then
            behindEos self.eosTokenId (i.window r p) (m + 1) * self.layerMultipliers (m + 1)
            else 0⟩ := by
      rw [← hcandidate, ← hwindow]
      by_cases hin : m + 1 ≤ lane.chunkPos <;> simp [NgramEmbedding.walkStep, hin]
    rw [hwalk, hstep]
    refine ⟨hnext, fun g => ?_⟩
    simp only [hmixed g]
    -- A head takes the terms of its own window only.
    split_ifs with hg
    · rw [Nat.min_eq_left hg, Nat.min_eq_left (by omega), ← self.mix_succ]
    · rw [Nat.min_eq_right (by omega), Nat.min_eq_right (by omega)]
      exact BitVec.xor_zero

/-- A lane finds its request, and its place in it. -/
theorem lane_eq (hr : InSegment i.queryStartLoc r p) :
    i.lane p = ⟨p, r, p - i.queryStartLoc.getD r 0⟩ := by
  have hlen := i.segments.two_le
  have hreq := (inSegment_bisect i.segments p).unique i.segments hr
  rw [NgramInputs.lane, NgramInputs.numReqs, show i.queryStartLoc.length - 1 + 1 =
    i.queryStartLoc.length by omega, show i.queryStartLoc.length - 1 - 1 =
    i.queryStartLoc.length - 2 by omega]
  simp only [hreq]

/-- A lane stores the hash of the window of its token. -/
theorem laneIds_eq_hash (hr : InSegment i.queryStartLoc r p) :
    self.laneIds i (i.lane p) = self.hash (i.window r p) := by
  refine List.map_congr_left fun g hg => ?_
  have hlen := self.contextLen_succ
  have horder : min (self.contextLen + 1) (self.ngramOrder g) = g / self.headsPerNgram + 2 := by
    rw [hlen]
    exact Nat.min_eq_right (self.div_heads_lt (List.mem_range.1 hg))
  rw [(walk_eq (lane_eq hr) le_rfl).2 g, horder, remainder_eq_smod (self.sizes_pos g)]
  rfl

end Lane

/-- The kernel stores the ids of every token in its place. -/
theorem NgramEmbedding.pleNgramIds_eq_map (self : NgramEmbedding)
    (i : NgramInputs self.contextLen) :
    self.pleNgramIds i = (List.range i.numTokens).map fun t => self.laneIds i (i.lane t) := by
  rw [pleNgramIds, List.flatMap_def, ← List.map_flatten, flatten_chunks (by decide)]

/-- On either device, the ids of every token are the hash of its window. -/
theorem NgramEmbedding.computeNgramIds_eq_hash (self : NgramEmbedding) (device : Device)
    (i : NgramInputs self.contextLen) {r p : Nat} (hr : InSegment i.queryStartLoc r p)
    (hp : p < i.numTokens) :
    (self.computeNgramIds device i)[p]? = some (self.hash (i.window r p)) := by
  cases device with
  | cpu => exact self.computeNgramIdsCpu_eq_hash i hr hp
  | cuda =>
    rw [computeNgramIds, pleNgramIds_eq_map, List.getElem?_map, List.getElem?_range hp,
      Option.map_some, laneIds_eq_hash hr]

/-- There are ids for every token. -/
theorem NgramEmbedding.length_computeNgramIds (self : NgramEmbedding) (device : Device)
    (i : NgramInputs self.contextLen) : (self.computeNgramIds device i).length = i.numTokens := by
  cases device with
  | cpu => simp [computeNgramIds, computeNgramIdsCpu]
  | cuda => simp [computeNgramIds, pleNgramIds_eq_map]

/-! ## The programs of a launch -/

namespace NgramEmbedding

variable (self : NgramEmbedding)

/-- `BLOCK_H`: `triton.next_power_of_2(NGRAM_HEADS)`. -/
def blockH : Nat := 2 ^ Nat.clog 2 self.ngramHeads

/-- `ids`: the id of a lane for the head `g`. -/
def laneId (i : NgramInputs self.contextLen) (lane : Lane) (g : Nat) : BitVec 64 :=
  remainder ((self.walk i lane self.contextLen).mixed g) (self.ngramHeadsVocabSizes g) +
    self.ngramHeadsOffsets g

/-- `_ple_ngram_ids_kernel`: the places of the flat output that the program `pid`
    stores to, and what it stores. The lanes past the last token and the heads past
    the last one are masked. -/
def program (i : NgramInputs self.contextLen) (pid : Nat) : List (Nat × BitVec 64) :=
  (List.range blockT).flatMap fun j =>
    let tokenOffset := pid * blockT + j
    (List.range self.blockH).filterMap fun g =>
      if tokenOffset < i.numTokens ∧ g < self.ngramHeads then
        some (tokenOffset * self.ngramHeads + g, self.laneId i (i.lane tokenOffset) g)
      else none

/-- The stores of all programs: there are `triton.cdiv(num_tokens, BLOCK_T)`. -/
def stores (i : NgramInputs self.contextLen) : List (Nat × BitVec 64) :=
  (List.range ((i.numTokens + blockT - 1) / blockT)).flatMap (self.program i)

/-- The output after some stores. -/
def output (stores : List (Nat × BitVec 64)) (out : Nat → BitVec 64) : Nat → BitVec 64 :=
  scatter (·.1) (·.2) stores out

variable {self}

/-- The stores are those of every token and every head. -/
theorem mem_stores {i : NgramInputs self.contextLen} {store : Nat × BitVec 64} :
    store ∈ self.stores i ↔ ∃ t < i.numTokens, ∃ g < self.ngramHeads,
      store = (t * self.ngramHeads + g, self.laneId i (i.lane t) g) := by
  simp only [stores, program, List.mem_flatMap, List.mem_range, List.mem_filterMap,
    Option.ite_none_right_eq_some, Option.some.injEq]
  constructor
  · rintro ⟨pid, -, j, -, g, -, ⟨ht, hg⟩, rfl⟩
    exact ⟨_, ht, g, hg, rfl⟩
  · rintro ⟨t, ht, g, hg, rfl⟩
    have hdiv : t / blockT * blockT + t % blockT = t := Nat.div_add_mod' t blockT
    refine ⟨t / blockT, ?_, t % blockT, Nat.mod_lt t (by decide), g,
      hg.trans_le (Nat.le_pow_clog Nat.one_lt_two _), ⟨by rwa [hdiv], hg⟩, by rw [hdiv]⟩
    rw [Nat.div_lt_iff_lt_mul (by decide)]
    exact ht.trans_le (le_chunks_mul (by decide) _)

/-- Two stores to one place are of one token and head. -/
theorem eq_of_place_eq {i : NgramInputs self.contextLen} {x y : Nat × BitVec 64}
    (hx : x ∈ self.stores i) (hy : y ∈ self.stores i) (h : x.1 = y.1) : x = y := by
  obtain ⟨t, -, g, hg, rfl⟩ := mem_stores.1 hx
  obtain ⟨t', -, g', hg', rfl⟩ := mem_stores.1 hy
  simp only at h
  have hpos : 0 < self.ngramHeads := Nat.zero_lt_of_lt hg
  have ht := congrArg (· / self.ngramHeads) h
  have hmod := congrArg (· % self.ngramHeads) h
  simp only [Nat.mul_add_mod', Nat.mod_eq_of_lt hg, Nat.mod_eq_of_lt hg'] at hmod
  simp only [Nat.mul_comm _ self.ngramHeads, Nat.mul_add_div hpos, Nat.div_eq_of_lt hg,
    Nat.div_eq_of_lt hg', Nat.add_zero] at ht
  subst ht hmod
  rfl

/-- After the stores, in any order, a token has the ids of its lane. -/
theorem output_eq {i : NgramInputs self.contextLen} {order : List (Nat × BitVec 64)}
    (horder : order.Perm (self.stores i)) (out : Nat → BitVec 64) {t g : Nat}
    (ht : t < i.numTokens) (hg : g < self.ngramHeads) :
    output order out (t * self.ngramHeads + g) = self.laneId i (i.lane t) g := by
  have hmem : (t * self.ngramHeads + g, self.laneId i (i.lane t) g) ∈ order :=
    horder.mem_iff.2 (mem_stores.2 ⟨t, ht, g, hg, rfl⟩)
  exact scatter_of_mem hmem fun y hy hkey =>
    eq_of_place_eq (horder.mem_iff.1 hy) (horder.mem_iff.1 hmem) hkey

/-- Nothing is stored past the end of the output. -/
theorem output_past_end {i : NgramInputs self.contextLen} {order : List (Nat × BitVec 64)}
    (horder : order.Perm (self.stores i)) (out : Nat → BitVec 64) {a : Nat}
    (ha : i.numTokens * self.ngramHeads ≤ a) : output order out a = out a := by
  refine scatter_of_ne fun x hx => ?_
  obtain ⟨t, ht, g, hg, rfl⟩ := mem_stores.1 (horder.mem_iff.1 hx)
  have hle := Nat.mul_le_mul_right self.ngramHeads (Nat.succ_le_of_lt ht)
  rw [Nat.succ_mul] at hle
  simp only
  omega

/-- The ids of the CPU are those of the lanes. -/
theorem computeNgramIdsCpu_eq_laneIds (i : NgramInputs self.contextLen) :
    self.computeNgramIdsCpu i =
      (List.range i.numTokens).map fun t => self.laneIds i (i.lane t) := by
  refine List.ext_getElem? fun t => ?_
  by_cases ht : t < i.numTokens
  · have hr := inSegment_searchsorted i.segments t
    rw [self.computeNgramIdsCpu_eq_hash i hr ht, List.getElem?_map, List.getElem?_range ht,
      Option.map_some, laneIds_eq_hash hr]
  · rw [List.getElem?_eq_none (by simpa [computeNgramIdsCpu] using not_lt.1 ht),
      List.getElem?_eq_none (by simpa using not_lt.1 ht)]

/-- The programs of the kernel, with their stores in any order, leave for every token
    and every head the id of the CPU, and store nothing else; every lane finds the
    request of its token by its binary search. -/
theorem kernel_eq_cpu {i : NgramInputs self.contextLen} {order : List (Nat × BitVec 64)}
    (horder : order.Perm (self.stores i)) (out : Nat → BitVec 64) :
    self.computeNgramIdsCpu i = ((List.range i.numTokens).map fun t =>
      (List.range self.ngramHeads).map fun g => output order out (t * self.ngramHeads + g)) ∧
    (∀ a, i.numTokens * self.ngramHeads ≤ a → output order out a = out a) ∧
    ∀ t, InSegment i.queryStartLoc (i.lane t).req t ∧ (i.lane t).req = i.requestIndex t := by
  refine ⟨?_, fun a => output_past_end horder out, fun t => ?_⟩
  · rw [computeNgramIdsCpu_eq_laneIds]
    refine List.map_congr_left fun t ht => List.map_congr_left fun g hg => ?_
    exact (output_eq horder out (List.mem_range.1 ht) (List.mem_range.1 hg)).symm
  · have hr := inSegment_searchsorted i.segments t
    rw [lane_eq hr]
    exact ⟨hr, rfl⟩

end NgramEmbedding

/-- A trigram embedding with two heads for each of its windows, and a negative
    multiplier. -/
def trigram : NgramEmbedding where
  ngramSize := 3
  headsPerNgram := 2
  eosTokenId := 0
  layerMultipliers k := if k = 0 then -1 else 3
  ngramHeadsVocabSizes _ := 5
  ngramHeadsOffsets h := BitVec.ofNat 64 (5 * h)
  two_le := Nat.le_succ 2
  heads_pos := Nat.two_pos
  sizes_pos _ := by decide

/-- Three requests, of which the second is empty, and a token of padding. -/
def threeRequests : NgramInputs trigram.contextLen where
  inputIds := [7, 0, 9, 4]
  queryStartLoc := [0, 1, 1, 3]
  ngramContext := [[1, 2], [3, 4], [5, 6]]
  segments := ⟨by decide, rfl, by decide⟩
  height := by decide
  width := by decide

/-- The stores in the reverse order. -/
theorem kernel_eq_cpu_threeRequests :
    trigram.computeNgramIdsCpu threeRequests =
      (List.range 4).map fun t => (List.range 4).map fun g =>
        NgramEmbedding.output (trigram.stores threeRequests).reverse (fun _ => 0) (t * 4 + g) :=
  (NgramEmbedding.kernel_eq_cpu (List.reverse_perm _) fun _ => 0).1

end FlashNext.Ple
