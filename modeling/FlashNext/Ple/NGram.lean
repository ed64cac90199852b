import FlashNext.Chunks
import FlashNext.Segments

/-!
# N-gram ids

`Qwen4ExpNGramEmbedding.compute_ngram_ids` of `ple_layer.py`, on a CPU: for every
token of a batch and every head, the row of the table that the token and the
tokens before it in its request are hashed to.

* The requests of a batch are packed in one list of tokens; the tokens of a
  request before those of the batch come from its context window. Every request
  gets a row of its window and its tokens, in which it is shifted; what is before
  the last EOS is replaced by it.
* `NgramEmbedding.hash` is what the ids are: a function of the window of the last
  `ngram_size` tokens (`NgramInputs.window`).
* `computeNgramIdsCpu_eq_hash`: the ids of a token are the hash of its window.
* `NgramEmbedding.headId_inSlice`: an id of a head is in the slice of its table.
-/

namespace FlashNext.Ple

/-- The part of the n-gram embedding that makes the ids. -/
structure NgramEmbedding where
  ngramSize : Nat
  headsPerNgram : Nat
  eosTokenId : BitVec 64
  /-- The multiplier of each place in the window. -/
  layerMultipliers : Nat → BitVec 64
  /-- The size of the table of each head. -/
  ngramHeadsVocabSizes : Nat → BitVec 64
  /-- The first row of the table of each head. -/
  ngramHeadsOffsets : Nat → BitVec 64
  two_le : 2 ≤ ngramSize
  heads_pos : 0 < headsPerNgram
  sizes_pos : ∀ h, 0 < (ngramHeadsVocabSizes h).toInt

namespace NgramEmbedding

variable (self : NgramEmbedding)

/-- The tokens before a token that its ids depend on. -/
def contextLen : Nat := self.ngramSize - 1

/-- `ngram_heads`. -/
def ngramHeads : Nat := (self.ngramSize - 1) * self.headsPerNgram

theorem contextLen_succ : self.contextLen + 1 = self.ngramSize := by
  have := self.two_le
  rw [contextLen]
  omega

end NgramEmbedding

/-- The tokens of a batch: a window of `len` tokens before them for every request,
    and where the tokens of every request start. -/
structure NgramInputs (len : Nat) where
  inputIds : List (BitVec 64)
  queryStartLoc : List Nat
  ngramContext : List (List (BitVec 64))
  segments : Segments queryStartLoc
  height : queryStartLoc.length ≤ ngramContext.length + 1
  width : ∀ row ∈ ngramContext, row.length = len

/-! ## The rows of the requests -/

namespace NgramInputs

variable {len : Nat} (i : NgramInputs len)

/-- `num_reqs`. -/
def numReqs : Nat := i.queryStartLoc.length - 1

/-- `num_tokens`. -/
def numTokens : Nat := i.inputIds.length

/-- The token at a position of the batch. -/
def token (p : Nat) : BitVec 64 := i.inputIds.getD p 0

/-- A token of the context window of a request. -/
def context (r c : Nat) : BitVec 64 := (i.ngramContext.getD r []).getD c 0

/-- `request_indices`. -/
def requestIndex (p : Nat) : Nat :=
  min (searchsorted i.queryStartLoc p - 1) (i.numReqs - 1)

/-- `columns`: `positions - query_start_loc[request_indices]`, not below `0`. -/
def column (p : Nat) : Nat :=
  min (p - i.queryStartLoc.getD (i.requestIndex p) 0) (i.numTokens - 1)

/-- `packed`: a row for each request, with its tokens and then `eos`. -/
def packed (eos : BitVec 64) : Nat × Nat → BitVec 64 :=
  scatter (fun p => (i.requestIndex p, i.column p)) i.token (List.range i.numTokens) fun _ => eos

/-- `torch.cat([ngram_context, packed], dim=-1)`: the row of a request. -/
def row (eos : BitVec 64) (r c : Nat) : BitVec 64 :=
  if c < len then i.context r c else i.packed eos (r, c - len)

end NgramInputs

/-! ## Shifts -/

/-- `previous_eos`: the place of the last EOS before `c`, or `-1`. -/
def previousEos (eos : BitVec 64) (tokens : Nat → BitVec 64) : Nat → Int
  | 0 => -1
  | c + 1 => max (previousEos eos tokens c) (if tokens c = eos then c else -1)

/-- `_shift_precompute`: the number of the tokens since the last EOS. -/
def positionInSegment (eos : BitVec 64) (tokens : Nat → BitVec 64) (c : Nat) : Int :=
  c - previousEos eos tokens c - 1

/-- `_shift_apply`: the token `shift` places before `c`, or `eos`. -/
def shiftApply (eos : BitVec 64) (tokens : Nat → BitVec 64) (shift c : Nat) : BitVec 64 :=
  if shift = 0 then tokens c
  else
    let source : Int := c - shift
    if 0 ≤ source ∧ shift ≤ positionInSegment eos tokens c then tokens source.toNat else eos

/-! ## The ids -/

namespace NgramEmbedding

variable (self : NgramEmbedding)

/-- `mixed`: the `ngram` tokens of a window, each times its multiplier. -/
def mix (shifted : Nat → BitVec 64) (ngram : Nat) : BitVec 64 :=
  (List.range' 1 (ngram - 1)).foldl (fun mixed index =>
    mixed ^^^ shifted index * self.layerMultipliers index) (shifted 0 * self.layerMultipliers 0)

/-- `torch.remainder(mixed, sizes) + offsets`, for the head `h`. -/
def headId (mixed : BitVec 64) (h : Nat) : BitVec 64 :=
  mixed.smod (self.ngramHeadsVocabSizes h) + self.ngramHeadsOffsets h

/-- `compute_ngram_ids`, on a CPU: the ids of every token. -/
def computeNgramIdsCpu (i : NgramInputs self.contextLen) : List (List (BitVec 64)) :=
  (List.range i.numTokens).map fun p =>
    let row := i.row self.eosTokenId (i.requestIndex p)
    let shifted := fun shift =>
      shiftApply self.eosTokenId row shift (i.column p + self.ngramSize - 1)
    (List.range' 2 (self.ngramSize - 1)).flatMap fun ngram =>
      (List.range' ((ngram - 2) * self.headsPerNgram) self.headsPerNgram).map
        (self.headId (self.mix shifted ngram))

end NgramEmbedding

/-! ## Windows -/

/-- A window behind the last EOS before its first token: what is at the EOS or
    further back is replaced by it. -/
def behindEos (eos : BitVec 64) (window : Nat → BitVec 64) (k : Nat) : BitVec 64 :=
  if ∃ j < k, window (j + 1) = eos then eos else window k

/-- The ids of a window: its place `0` is the token, the place `k` the token `k`
    places before it. -/
def NgramEmbedding.hash (self : NgramEmbedding) (window : Nat → BitVec 64) : List (BitVec 64) :=
  (List.range self.ngramHeads).map fun h =>
    self.headId (self.mix (behindEos self.eosTokenId window) (h / self.headsPerNgram + 2)) h

/-- The window of the token `p` of the request `r`: tokens of the batch, and
    behind them those of the context window. -/
def NgramInputs.window {len : Nat} (i : NgramInputs len) (r p k : Nat) : BitVec 64 :=
  let column := p - i.queryStartLoc.getD r 0
  if k ≤ column then i.token (p - k) else i.context r (len + column - k)

/-- The last EOS is before `s` when there is none from there on. -/
theorem previousEos_lt_iff {eos : BitVec 64} {tokens : Nat → BitVec 64} {c s : Nat} :
    previousEos eos tokens c < s ↔ ∀ q < c, s ≤ q → tokens q ≠ eos := by
  induction c with
  | zero =>
    refine iff_of_true ?_ nofun
    rw [previousEos]
    omega
  | succ c ih =>
    rw [previousEos, Int.max_lt, ih, Nat.forall_lt_succ_right]
    refine and_congr_right' ?_
    split_ifs with heos
    · simp [heos]
    · simp only [heos, ne_eq, not_false_eq_true, implies_true, iff_true]
      omega

/-- A row that is shifted, read from a window that it ends with. -/
theorem shiftApply_eq {eos : BitVec 64} {tokens window : Nat → BitVec 64} {c k : Nat} (hk : k ≤ c)
    (hw : ∀ j ≤ k, tokens (c - j) = window j) :
    shiftApply eos tokens k c = behindEos eos window k := by
  have hsource : (c : Int) - k = (c - k : Nat) := by omega
  -- The shift stays in the segment if no end of a text comes in between.
  have hvalid : (k : Int) ≤ positionInSegment eos tokens c ↔ ¬∃ j < k, window (j + 1) = eos := by
    have hlt : (k : Int) ≤ positionInSegment eos tokens c ↔
        previousEos eos tokens c < (c - k : Nat) := by
      rw [positionInSegment]
      omega
    rw [hlt, previousEos_lt_iff]
    push Not
    constructor
    · intro h j hj
      rw [← hw (j + 1) hj]
      exact h _ (by omega) (by omega)
    · intro h q hq hle
      have := h (c - q - 1) (by omega)
      rwa [← hw _ (by omega), show c - (c - q - 1 + 1) = q by omega] at this
  rw [shiftApply, behindEos]
  by_cases hzero : k = 0
  · subst hzero
    simpa using hw 0 le_rfl
  · rw [if_neg hzero]
    simp only [hsource, hvalid, Int.natCast_nonneg, true_and, Int.toNat_natCast, hw k le_rfl,
      ite_not]

/-! ## The slices of the heads -/

/-- The remainder of a positive size is that of the integers. -/
theorem toInt_smod {mixed size : BitVec 64} (hsize : 0 < size.toInt) :
    (mixed.smod size).toInt = mixed.toInt % size.toInt := by
  rw [BitVec.toInt_smod, Int.fmod_eq_emod_of_nonneg _ hsize.le]

namespace NgramEmbedding

variable {self : NgramEmbedding}

/-- The id is in the slice of the head `h`. -/
def InSlice (self : NgramEmbedding) (h : Nat) (id : Int) : Prop :=
  (self.ngramHeadsOffsets h).toInt ≤ id ∧
    id < (self.ngramHeadsOffsets h).toInt + (self.ngramHeadsVocabSizes h).toInt

/-- An id of a head is in its slice, if the slice fits. -/
theorem headId_inSlice {h : Nat} (hpos : 0 ≤ (self.ngramHeadsOffsets h).toInt)
    (hfits : (self.ngramHeadsOffsets h).toInt + (self.ngramHeadsVocabSizes h).toInt ≤ 2 ^ 63)
    (mixed : BitVec 64) : self.InSlice h (self.headId mixed h).toInt := by
  have hsize := self.sizes_pos h
  have hnonneg := Int.emod_nonneg mixed.toInt hsize.ne'
  have hless := Int.emod_lt_of_pos mixed.toInt hsize
  have hadd : (self.headId mixed h).toInt =
      mixed.toInt % (self.ngramHeadsVocabSizes h).toInt + (self.ngramHeadsOffsets h).toInt := by
    rw [headId, BitVec.toInt_add, toInt_smod hsize]
    exact Int.bmod_eq_of_le (by omega) (by omega)
  rw [InSlice, hadd]
  exact ⟨by omega, by omega⟩

/-- The ids of a window are those of the heads. -/
theorem getElem?_hash {w : Nat → BitVec 64} {h : Nat} {id : BitVec 64}
    (hid : (self.hash w)[h]? = some id) :
    h < self.ngramHeads ∧ ∃ mixed, id = self.headId mixed h := by
  have hlt : h < self.ngramHeads := by
    simpa [hash] using (List.getElem?_eq_some_iff.1 hid).1
  rw [hash, List.getElem?_map, List.getElem?_range hlt, Option.map_some] at hid
  exact ⟨hlt, _, (Option.some.inj hid).symm⟩

end NgramEmbedding

/-! ## The rows have the windows -/

namespace NgramInputs

variable {len : Nat} (i : NgramInputs len) {r p : Nat}

/-- The search gives the request of a position. -/
theorem requestIndex_eq (hr : InSegment i.queryStartLoc r p) : i.requestIndex p = r :=
  (inSegment_searchsorted i.segments p).unique i.segments hr

/-- The column of a position is its place in the request. -/
theorem column_eq (hr : InSegment i.queryStartLoc r p) (hp : p < i.numTokens) :
    i.column p = p - i.queryStartLoc.getD r 0 := by
  rw [column, i.requestIndex_eq hr]
  omega

/-- The row of a request has its tokens up to one that it has. -/
theorem packed_eq (eos : BitVec 64) (hr : InSegment i.queryStartLoc r p) (hp : p < i.numTokens)
    {k : Nat} (hk : k ≤ p - i.queryStartLoc.getD r 0) :
    i.packed eos (r, p - i.queryStartLoc.getD r 0 - k) = i.token (p - k) := by
  have hle := hr.le
  have hrk : InSegment i.queryStartLoc r (p - k) := hr.of_le (by omega) (by omega)
  have hcol := i.column_eq hrk (by omega)
  have hkey : (r, p - i.queryStartLoc.getD r 0 - k) =
      (i.requestIndex (p - k), i.column (p - k)) := by
    rw [i.requestIndex_eq hrk, hcol]
    congr 1
    omega
  rw [packed, hkey]
  refine scatter_of_mem (List.mem_range.2 (by omega)) fun q hq heq => ?_
  -- Two positions of a request in one column are the same.
  obtain ⟨hreq, hcolq⟩ := Prod.mk.inj heq
  have hrq : InSegment i.queryStartLoc r q := by
    have := inSegment_searchsorted i.segments q
    rwa [show min (searchsorted i.queryStartLoc q - 1) (i.queryStartLoc.length - 2) =
      i.requestIndex q from rfl, hreq, i.requestIndex_eq hrk] at this
  rw [hcol, i.column_eq hrq (List.mem_range.1 hq)] at hcolq
  have := hrq.le
  omega

/-- The row of a request ends with the window of a token. -/
theorem row_eq_window (eos : BitVec 64) (hr : InSegment i.queryStartLoc r p) (hp : p < i.numTokens)
    {k : Nat} (hk : k ≤ len) :
    i.row eos r (i.column p + len - k) = i.window r p k := by
  rw [i.column_eq hr hp, row, window]
  by_cases hcol : k ≤ p - i.queryStartLoc.getD r 0
  · -- Such a token is one of the batch, the others are in the context.
    rw [if_neg (by omega), if_pos hcol, ← i.packed_eq eos hr hp hcol]
    congr 2
    omega
  · rw [if_pos (by omega), if_neg hcol]
    congr 1
    omega

/-- The first requests of a batch, and its first tokens. -/
def truncate (numReqs numTokens : Nat) (h : 0 < numReqs) : NgramInputs len where
  inputIds := i.inputIds.take numTokens
  queryStartLoc := i.queryStartLoc.take (numReqs + 1)
  ngramContext := i.ngramContext.take numReqs
  segments := i.segments.take h
  height := by
    have := i.height
    simp only [List.length_take]
    omega
  width row hrow := i.width row (List.mem_of_mem_take hrow)

/-- The first tokens of the first requests have the same windows without the
    others. -/
theorem window_truncate {numReqs numTokens : Nat} (h : 0 < numReqs) (hr : r < numReqs)
    (hp : p < numTokens) (k : Nat) :
    (i.truncate numReqs numTokens h).window r p k = i.window r p k := by
  simp only [window, truncate, token, context, getD_take_of_lt hr,
    getD_take_of_lt (show r < numReqs + 1 by omega),
    getD_take_of_lt (show p - k < numTokens by omega)]

end NgramInputs

/-- The blocks of the ids of a token are those of its heads. -/
theorem NgramEmbedding.flatMap_heads (self : NgramEmbedding) {β : Type*} (f : Nat → Nat → β) :
    ((List.range' 2 (self.ngramSize - 1)).flatMap fun ngram =>
      (List.range' ((ngram - 2) * self.headsPerNgram) self.headsPerNgram).map (f ngram)) =
    (List.range self.ngramHeads).map fun h => f (h / self.headsPerNgram + 2) h := by
  rw [ngramHeads, ← flatMap_range_blocks, List.map_flatMap, List.range'_eq_map_range,
    List.flatMap_map]
  refine List.flatMap_congr fun n _ => ?_
  rw [Nat.add_sub_cancel_left]
  refine List.map_congr_left fun h hh => ?_
  obtain ⟨hle, hlt⟩ := List.mem_range'_1.1 hh
  rw [Nat.add_comm 2, Nat.div_eq_of_lt_le hle (by rw [Nat.succ_mul]; exact hlt)]

/-- Two windows that agree back to the last EOS before their token agree behind it. -/
theorem behindEos_congr {eos : BitVec 64} {w w' : Nat → BitVec 64} {k : Nat}
    (h : ∀ j ≤ k, (∀ e, 0 < e → e < j → w e ≠ eos) → w j = w' j) :
    behindEos eos w k = behindEos eos w' k := by
  rw [behindEos, behindEos]
  by_cases hex : ∃ j < k, w (j + 1) = eos
  · -- The newest EOS is in both windows.
    have hfind := Nat.find_spec hex
    have hmin : ∀ e, 0 < e → e < Nat.find hex + 1 → w e ≠ eos := fun e he hlt heos =>
      Nat.find_min hex (m := e - 1) (by omega) ⟨by omega, by rwa [Nat.sub_add_cancel he]⟩
    have hw' : w' (Nat.find hex + 1) = eos := by rw [← h _ hfind.1 hmin, hfind.2]
    rw [if_pos hex, if_pos ⟨_, hfind.1, hw'⟩]
  · push Not at hex
    have hw : ∀ j ≤ k, w j = w' j := fun j hj => h j hj fun e he hlt => by
      have := hex (e - 1) (by omega)
      rwa [Nat.sub_add_cancel he] at this
    have hex' : ¬∃ j < k, w' (j + 1) = eos := by
      rintro ⟨j, hj, heos⟩
      exact hex j hj (by rw [hw _ hj, heos])
    rw [if_neg (by push Not; exact hex), if_neg hex', hw k le_rfl]

/-- A mix of `ngram` tokens depends on them only. -/
theorem NgramEmbedding.mix_congr (self : NgramEmbedding) {w w' : Nat → BitVec 64} {ngram : Nat}
    (h : ∀ k < max 1 ngram, w k = w' k) : self.mix w ngram = self.mix w' ngram := by
  rw [mix, mix, h 0 (by omega)]
  refine List.foldl_ext _ _ _ fun mixed k hk => ?_
  rw [h k (by have := List.mem_range'_1.1 hk; omega)]

/-- The head `h` has a window of at most `ngram_size` tokens. -/
theorem NgramEmbedding.div_heads_lt (self : NgramEmbedding) {h : Nat} (hh : h < self.ngramHeads) :
    h / self.headsPerNgram + 2 ≤ self.ngramSize := by
  have := Nat.div_lt_of_lt_mul (by rwa [ngramHeads, Nat.mul_comm] at hh)
  have := self.two_le
  omega

/-- The ids of a window depend on `ngram_size` tokens, back to the last EOS. -/
theorem NgramEmbedding.hash_congr (self : NgramEmbedding) {w w' : Nat → BitVec 64}
    (h : ∀ j < self.ngramSize, (∀ e, 0 < e → e < j → w e ≠ self.eosTokenId) → w j = w' j) :
    self.hash w = self.hash w' := by
  refine List.map_congr_left fun g hg => ?_
  have hle := self.div_heads_lt (List.mem_range.1 hg)
  rw [self.mix_congr fun k hk => behindEos_congr fun j hj => h j ?_]
  exact (hj.trans_lt hk).trans_le (max_le (Nat.one_le_of_lt self.two_le) hle)

/-- The ids of every token are the hash of its window. -/
theorem NgramEmbedding.computeNgramIdsCpu_eq_hash (self : NgramEmbedding)
    (i : NgramInputs self.contextLen) {r p : Nat} (hr : InSegment i.queryStartLoc r p)
    (hp : p < i.numTokens) :
    (self.computeNgramIdsCpu i)[p]? = some (self.hash (i.window r p)) := by
  have hlen := self.contextLen_succ
  have hshift : ∀ k < self.ngramSize,
      shiftApply self.eosTokenId (i.row self.eosTokenId r) k (i.column p + self.ngramSize - 1) =
        behindEos self.eosTokenId (i.window r p) k := fun k hk => by
    rw [show i.column p + self.ngramSize - 1 = i.column p + self.contextLen by omega]
    exact shiftApply_eq (by omega) fun j hj => i.row_eq_window _ hr hp (by omega)
  have hmix : ∀ h ∈ List.range self.ngramHeads,
      self.mix (fun k => shiftApply self.eosTokenId (i.row self.eosTokenId r) k
        (i.column p + self.ngramSize - 1)) (h / self.headsPerNgram + 2) =
      self.mix (behindEos self.eosTokenId (i.window r p)) (h / self.headsPerNgram + 2) :=
    fun h hh => self.mix_congr fun k hk => hshift k (by
      have := self.div_heads_lt (List.mem_range.1 hh)
      omega)
  rw [computeNgramIdsCpu, List.getElem?_map, List.getElem?_range hp]
  simp only [Option.map_some, i.requestIndex_eq hr, flatMap_heads, hash]
  congr 1
  exact List.map_congr_left fun h hh => by rw [hmix h hh]

end FlashNext.Ple
