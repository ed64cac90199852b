import FlashNext.Ple.Kernel
import FlashNext.Ple.Load
import FlashNext.Ple.Primes

/-!
# The slices of the heads

The constructor of `Qwen4ExpNGramEmbedding` (`ple_layer.py`): the multipliers of a
layer, from a seed (`_make_layer_multipliers`), the tables of its heads, and the
tensors that `compute_ngram_ids` reads.

* `mem_makeLayerMultipliers`: a multiplier is odd and positive, and a product with a
  token fits in 64 bits;
* `VocabLayout.slice_le`: the slice of a head ends before those of later
  heads start;
* `init_eq_ok`: the constructor returns an embedding if its checks pass and the
  tables fit in 64 bits;
* `ids_in_slices`: every id is in the slice of its head, and so in the table on disk.
-/

namespace FlashNext.Ple

open Python

/-! ## The multipliers -/

/-- `_SPLITMIX_GAMMA`. -/
def splitmixGamma : Int := 0x9E3779B97F4A7C15

/-- `_SPLITMIX_M1`. -/
def splitmixM1 : Nat := 0xBF58476D1CE4E5B9

/-- `_SPLITMIX_M2`. -/
def splitmixM2 : Nat := 0x94D049BB133111EB

/-- `_PLE_LAYER_PRIME`. -/
def pleLayerPrime : Int := 10007

/-- `_splitmix64`. -/
def splitmix64 (value : Int) : Nat :=
  let value := ((value + splitmixGamma) % 2 ^ 64).toNat
  let value := (value ^^^ value >>> 30) * splitmixM1 % 2 ^ 64
  let value := (value ^^^ value >>> 27) * splitmixM2 % 2 ^ 64
  (value ^^^ value >>> 31) % 2 ^ 64

/-- `_make_layer_multipliers`. -/
def makeLayerMultipliers (ngramSize : Nat) (unigramVocabSize seed : Int) (pleDenseLayerId : Nat) :
    Except Err (List Int) :=
  if unigramVocabSize = 0 then .error .zeroDivisionError
  else
    let maxMultiplier := (2 ^ 63 - 1 : Int).fdiv unigramVocabSize
    let halfBound := max 1 (maxMultiplier.fdiv 2)
    let baseSeed := seed + pleLayerPrime * pleDenseLayerId
    .ok <| (List.range ngramSize).map fun (index : Nat) =>
      let value := baseSeed + splitmixGamma * (index + 1)
      2 * (splitmix64 value % halfBound) + 1

example : splitmix64 0 = 0xE220A8397B1DCDAF := by decide

/-! ## The constructor -/

/-- The fields of `Qwen4ExpTextConfig` that the constructor reads. -/
structure TextConfig where
  ngramSize : Int
  headsPerNgram : Int
  eosTokenId : Int
  vocabSize : Int
  /-- `512` if there is none. -/
  splitNgramParts : Option Int
  /-- `1234` if there is none. -/
  seed : Option Int
  ngramVocabSizeBase : Int
  /-- A number of rows. -/
  makeNgramVocabSizeDivisibleBy : Nat

/-- The value fits in a signed 64-bit integer. -/
def FitsInt64 (value : Int) : Prop := -2 ^ 63 ≤ value ∧ value < 2 ^ 63

instance (value : Int) : Decidable (FitsInt64 value) := inferInstanceAs (Decidable (_ ∧ _))

theorem FitsInt64.toInt_ofInt {value : Int} (h : FitsInt64 value) :
    (BitVec.ofInt 64 value).toInt = value :=
  BitVec.toInt_ofInt_eq_self (by decide) h.1 h.2

/-- The values of a tensor of 64-bit integers. -/
abbrev LongTensor (values : List Int) := {tensor : List (BitVec 64) //
  tensor.map BitVec.toInt = values}

/-- `torch.tensor(values, dtype=torch.long)`. -/
def torchLong (values : List Int) : Except Err (LongTensor values) :=
  if h : ∀ value ∈ values, FitsInt64 value then
    .ok ⟨values.map (BitVec.ofInt 64), by
      rw [List.map_map]
      exact (List.map_congr_left fun value hv => (h value hv).toInt_ofInt).trans (List.map_id _)⟩
  else .error .runtimeError

namespace LongTensor

variable {values : List Int} (tensor : LongTensor values)

/-- A value of a tensor. -/
theorem toInt_getD {k : Nat} {value : Int} (h : values[k]? = some value) (d : BitVec 64) :
    (tensor.1.getD k d).toInt = value := by
  rw [← tensor.2, List.getElem?_map, Option.map_eq_some_iff] at h
  obtain ⟨x, hx, rfl⟩ := h
  rw [List.getD_eq_getElem?_getD, hx, Option.getD_some]

/-- A tensor of positive values, with `1` behind them. -/
theorem getD_pos (hpos : ∀ value ∈ values, 0 < value) (k : Nat) :
    0 < (tensor.1.getD k 1).toInt := by
  rw [List.getD_eq_getElem?_getD]
  cases hk : tensor.1[k]? with
  | none => decide
  | some x =>
    refine hpos _ ?_
    rw [← tensor.2]
    exact List.mem_map_of_mem (List.mem_of_getElem? hk)

end LongTensor

/-- `ngram_heads`. -/
def TextConfig.ngramHeads (config : TextConfig) : Int :=
  (config.ngramSize - 1) * config.headsPerNgram

/-- The layout of the tables of the heads. -/
def TextConfig.layout (config : TextConfig) (pleDenseLayerId : Nat) : VocabLayout :=
  makeVocabLayout config.ngramVocabSizeBase config.ngramHeads.toNat pleDenseLayerId

/-- `__init__`: the embedding, and `padded_vocab_size`. -/
def NgramEmbedding.init (config : TextConfig) (embeddingDim : Int) (pleDenseLayerId : Nat) :
    Except Err (NgramEmbedding × Int) :=
  if hsize : config.ngramSize < 2 then .error .valueError
  else if hheads : config.headsPerNgram ≤ 0 then .error .valueError
  else if embeddingDim % config.ngramHeads ≠ 0 then .error .valueError
  else if config.splitNgramParts.getD 512 ≤ 0 then .error .valueError
  else do
    let multipliers ← makeLayerMultipliers config.ngramSize.toNat config.vocabSize
      (config.seed.getD 1234) pleDenseLayerId
    let layerMultipliers ← torchLong multipliers
    let layout := config.layout pleDenseLayerId
    let ngramHeadsVocabSizes ← torchLong layout.sizes
    let ngramHeadsOffsets ← torchLong layout.offsets
    let divisor := config.makeNgramVocabSizeDivisibleBy
    if divisor = 0 then throw .zeroDivisionError
    let paddedVocabSize := (layout.offset + divisor - 1) / divisor * divisor
    return ({
      ngramSize := config.ngramSize.toNat
      headsPerNgram := config.headsPerNgram.toNat
      eosTokenId := BitVec.ofInt 64 config.eosTokenId
      layerMultipliers := fun k => layerMultipliers.1.getD k 0
      ngramHeadsVocabSizes := fun h => ngramHeadsVocabSizes.1.getD h 1
      ngramHeadsOffsets := fun h => ngramHeadsOffsets.1.getD h 0
      two_le := by omega
      heads_pos := by omega
      sizes_pos := ngramHeadsVocabSizes.getD_pos fun size hsize =>
        two_pos.trans_le (le_of_mem_sizes hsize).2 }, paddedVocabSize)

/-- The checks of the constructor. -/
structure TextConfig.Valid (config : TextConfig) (embeddingDim : Int) : Prop where
  ngramSize : 2 ≤ config.ngramSize
  headsPerNgram : 0 < config.headsPerNgram
  embeddingDim : embeddingDim % config.ngramHeads = 0
  splitNgramParts : 0 < config.splitNgramParts.getD 512
  divisor : 0 < config.makeNgramVocabSizeDivisibleBy

/-- The number of the heads. -/
theorem TextConfig.Valid.toNat_ngramHeads {config : TextConfig} {embeddingDim : Int}
    (h : config.Valid embeddingDim) :
    config.ngramHeads.toNat = (config.ngramSize.toNat - 1) * config.headsPerNgram.toNat := by
  have hsize := h.ngramSize
  rw [ngramHeads, Int.toNat_mul (by omega) h.headsPerNgram.le]
  congr 1
  omega

/-! ## No overflow -/

/-- A multiplier is odd and positive, and a product of a token and of it fits. -/
theorem mem_makeLayerMultipliers {ngramSize pleDenseLayerId : Nat} {unigramVocabSize seed : Int}
    (hpos : 1 ≤ unigramVocabSize) (hlt : unigramVocabSize < 2 ^ 63) {multipliers : List Int}
    (h : makeLayerMultipliers ngramSize unigramVocabSize seed pleDenseLayerId = .ok multipliers)
    {multiplier : Int} (hm : multiplier ∈ multipliers) :
    Odd multiplier ∧ 0 < multiplier ∧ unigramVocabSize * multiplier < 2 ^ 63 := by
  rw [makeLayerMultipliers, if_neg (by omega)] at h
  obtain rfl := Except.ok.inj h
  obtain ⟨index, -, rfl⟩ := List.mem_map.1 hm
  simp only [Int.fdiv_eq_ediv_of_nonneg _ (show 0 ≤ unigramVocabSize by omega),
    Int.fdiv_eq_ediv_of_nonneg _ zero_le_two]
  have hmax : unigramVocabSize * ((2 ^ 63 - 1) / unigramVocabSize) ≤ 2 ^ 63 - 1 :=
    Int.mul_ediv_self_le (by omega)
  have hone : 1 ≤ (2 ^ 63 - 1) / unigramVocabSize := by
    rw [Int.le_ediv_iff_mul_le (by omega)]
    omega
  generalize (2 ^ 63 - 1) / unigramVocabSize = maxMultiplier at hmax hone ⊢
  generalize splitmix64 _ = mixed
  have hbound : 0 < max 1 (maxMultiplier / 2) := by omega
  have hnonneg := Int.emod_nonneg mixed hbound.ne'
  have hless := Int.emod_lt_of_pos mixed hbound
  generalize (mixed : Int) % max 1 (maxMultiplier / 2) = r at hnonneg hless ⊢
  -- Twice a number below half of the greatest multiplier is below it.
  have hle : 2 * r + 1 ≤ maxMultiplier := by omega
  have := Int.mul_le_mul_of_nonneg_left hle (show 0 ≤ unigramVocabSize by omega)
  exact ⟨⟨r, rfl⟩, by omega, by omega⟩

/-- The product of a token and a multiplier. -/
theorem fits_mul_of_token {unigramVocabSize multiplier token : Int}
    (hpos : 0 < multiplier) (hlt : unigramVocabSize * multiplier < 2 ^ 63) (h0 : 0 ≤ token)
    (ht : token < unigramVocabSize) :
    0 ≤ token * multiplier ∧ FitsInt64 (token * multiplier) := by
  have hnonneg := Int.mul_nonneg h0 hpos.le
  exact ⟨hnonneg, by omega, (Int.mul_lt_mul_of_pos_right ht hpos).trans hlt⟩

/-- A product that fits is that of the integers. -/
theorem toInt_mul_of_fits {x y : BitVec 64} (h : FitsInt64 (x.toInt * y.toInt)) :
    (x * y).toInt = x.toInt * y.toInt := by
  rw [BitVec.toInt_mul]
  exact Int.bmod_eq_of_le (by have := h.1; omega) (by have := h.2; omega)

/-- The xor of integers that are not negative is not negative. -/
theorem toInt_xor_nonneg {x y : BitVec 64} (hx : 0 ≤ x.toInt) (hy : 0 ≤ y.toInt) :
    0 ≤ (x ^^^ y).toInt := by
  refine BitVec.toInt_nonneg_of_msb_false ?_
  rw [BitVec.msb_xor, BitVec.msb_eq_toInt, BitVec.msb_eq_toInt, decide_eq_false (not_lt.2 hx),
    decide_eq_false (not_lt.2 hy), Bool.xor_false]

/-- A mix is not negative if its terms are not. -/
theorem NgramEmbedding.mix_nonneg (self : NgramEmbedding) {w : Nat → BitVec 64} {ngram : Nat}
    (h : ∀ k < ngram + 1, 0 ≤ (w k * self.layerMultipliers k).toInt) :
    0 ≤ (self.mix w (ngram + 1)).toInt := by
  induction ngram with
  | zero => exact h 0 Nat.one_pos
  | succ ngram ih =>
    rw [self.mix_succ]
    exact toInt_xor_nonneg (ih fun k hk => h k (Nat.lt_succ_of_lt hk)) (h _ (Nat.lt_succ_self _))

/-! ## The slices -/

namespace VocabLayout

variable {layout : VocabLayout} {g h : Nat} {size : Int}

/-- The slice of a head ends before those of later heads start. -/
theorem slice_le (hpos : ∀ size ∈ layout.sizes, 0 ≤ size) (hg : layout.sizes[g]? = some size)
    (hgh : g < h) : (layout.sizes.take g).sum + size ≤ (layout.sizes.take h).sum := by
  have hsucc : (layout.sizes.take (g + 1)).sum = (layout.sizes.take g).sum + size := by
    rw [List.take_add_one, hg, List.sum_append, Option.toList_some, List.sum_singleton]
  rw [← hsucc]
  exact (List.take_sublist_take_left hgh).sum_le_sum fun size hs =>
    hpos size (List.mem_of_mem_take hs)

/-- The slice of a head is in the table. -/
theorem Running.slice_le_total (hr : layout.Running) (hpos : ∀ size ∈ layout.sizes, 0 ≤ size)
    (hg : layout.sizes[g]? = some size) :
    (layout.sizes.take g).sum + size ≤ layout.offset := by
  have hlt := (List.getElem?_eq_some_iff.1 hg).1
  have := slice_le hpos hg hlt
  rwa [List.take_length, ← hr.total] at this

/-- All that a layout has fits if its total does. -/
theorem Running.fits (hr : layout.Running) (hpos : ∀ size ∈ layout.sizes, 0 ≤ size)
    (htotal : layout.offset < 2 ^ 63) :
    (∀ size ∈ layout.sizes, FitsInt64 size) ∧ ∀ offset ∈ layout.offsets, FitsInt64 offset := by
  have htake : ∀ h, 0 ≤ (layout.sizes.take h).sum := fun h =>
    List.sum_nonneg fun size hs => hpos size (List.mem_of_mem_take hs)
  refine ⟨fun size hs => ?_, fun offset ho => ?_⟩
  · obtain ⟨h, hh⟩ := List.mem_iff_getElem?.1 hs
    have := hr.slice_le_total hpos hh
    have := htake h
    have := hpos size hs
    exact ⟨by omega, by omega⟩
  · obtain ⟨h, hh⟩ := List.mem_iff_getElem?.1 ho
    have hlt : h < layout.sizes.length := hr.length ▸ (List.getElem?_eq_some_iff.1 hh).1
    obtain rfl := Option.some.inj ((hr.offsets h hlt).symm.trans hh)
    have := hr.slice_le_total hpos (List.getElem?_eq_getElem hlt)
    have := htake h
    have := hpos _ (List.getElem_mem hlt)
    exact ⟨by omega, by omega⟩

end VocabLayout

/-! ## What the constructor makes -/

/-- The tensors of an embedding have the values of its configuration. -/
structure NgramEmbedding.Built (emb : NgramEmbedding) (config : TextConfig)
    (pleDenseLayerId : Nat) (paddedVocabSize : Int) (multipliers : List Int) : Prop where
  made : makeLayerMultipliers emb.ngramSize config.vocabSize (config.seed.getD 1234)
    pleDenseLayerId = .ok multipliers
  length : multipliers.length = emb.ngramSize
  multipliers : ∀ (k : Nat) multiplier, multipliers[k]? = some multiplier →
    (emb.layerMultipliers k).toInt = multiplier
  ngramHeads : emb.ngramHeads = config.ngramHeads.toNat
  sizes : ∀ (h : Nat) size, (config.layout pleDenseLayerId).sizes[h]? = some size →
    (emb.ngramHeadsVocabSizes h).toInt = size
  offsets : ∀ (h : Nat) offset, (config.layout pleDenseLayerId).offsets[h]? = some offset →
    (emb.ngramHeadsOffsets h).toInt = offset
  padded : (config.layout pleDenseLayerId).offset ≤ paddedVocabSize

/-- A tensor of values that fit. -/
theorem torchLong_eq_ok {values : List Int} (h : ∀ value ∈ values, FitsInt64 value) :
    ∃ tensor, torchLong values = .ok tensor := by
  rw [torchLong, dif_pos h]
  exact ⟨_, rfl⟩

theorem makeLayerMultipliers_eq_ok (ngramSize : Nat) {unigramVocabSize : Int} (seed : Int)
    (pleDenseLayerId : Nat) (h : unigramVocabSize ≠ 0) :
    ∃ multipliers, makeLayerMultipliers ngramSize unigramVocabSize seed pleDenseLayerId =
      .ok multipliers ∧ multipliers.length = ngramSize := by
  rw [makeLayerMultipliers, if_neg h]
  exact ⟨_, rfl, by rw [List.length_map, List.length_range]⟩

/-- The rows are padded up. -/
theorem le_padded (total : Int) {divisor : Nat} (h : 0 < divisor) :
    total ≤ (total + divisor - 1) / divisor * divisor := by
  have hmod := Int.emod_add_mul_ediv (total + divisor - 1) divisor
  have hlt := Int.emod_lt_of_pos (total + divisor - 1) (Int.natCast_pos.2 h)
  rw [Int.mul_comm] at hmod
  omega

/-- The constructor returns an embedding if its checks pass and the tables of the
    heads fit. -/
theorem init_eq_ok {config : TextConfig} {embeddingDim : Int} {pleDenseLayerId : Nat}
    (hvalid : config.Valid embeddingDim) (hpos : 1 ≤ config.vocabSize)
    (hlt : config.vocabSize < 2 ^ 63) (htotal : (config.layout pleDenseLayerId).offset < 2 ^ 63) :
    ∃ self paddedVocabSize multipliers,
      NgramEmbedding.init config embeddingDim pleDenseLayerId = .ok (self, paddedVocabSize) ∧
      self.Built config pleDenseLayerId paddedVocabSize multipliers := by
  obtain ⟨multipliers, hmade, hlen⟩ := makeLayerMultipliers_eq_ok config.ngramSize.toNat
    (config.seed.getD 1234) pleDenseLayerId (show config.vocabSize ≠ 0 by omega)
  obtain ⟨layerMultipliers, hmult⟩ := torchLong_eq_ok fun multiplier hm => by
    obtain ⟨-, hm0, hml⟩ := mem_makeLayerMultipliers hpos hlt hmade hm
    have := Int.mul_le_mul_of_nonneg_right hpos hm0.le
    exact (⟨by omega, by omega⟩ : FitsInt64 multiplier)
  have hrunning : (config.layout pleDenseLayerId).Running := running_makeVocabLayout
  obtain ⟨hsizes, hoffsets⟩ :=
    hrunning.fits (fun size hs => zero_le_two.trans (le_of_mem_sizes hs).2) htotal
  obtain ⟨sizes, hsz⟩ := torchLong_eq_ok hsizes
  obtain ⟨offsets, hoff⟩ := torchLong_eq_ok hoffsets
  have hsize := hvalid.ngramSize
  have hheads := hvalid.headsPerNgram
  have hdiv := hvalid.divisor
  have hparts := hvalid.splitNgramParts
  rw [NgramEmbedding.init, dif_neg (by omega), dif_neg (by omega),
    if_neg (not_not.2 hvalid.embeddingDim), if_neg (by omega), hmade]
  simp only [hmult, hsz, hoff, if_neg hdiv.ne', bind, Except.bind, pure, Except.pure]
  refine ⟨_, _, multipliers, rfl, hmade, hlen, fun k m hm => ?_, ?_, fun h size hs => ?_,
    fun h offset ho => ?_, ?_⟩
  · exact layerMultipliers.toInt_getD hm 0
  · exact hvalid.toNat_ngramHeads.symm
  · exact sizes.toInt_getD hs 1
  · exact offsets.toInt_getD ho 0
  · exact le_padded _ hdiv

/-- A token of the vocabulary. -/
def TextConfig.InVocab (config : TextConfig) (token : BitVec 64) : Prop :=
  0 ≤ token.toInt ∧ token.toInt < config.vocabSize

namespace NgramEmbedding.Built

variable {self : NgramEmbedding} {config : TextConfig} {pleDenseLayerId : Nat}
  {paddedVocabSize : Int} {multipliers : List Int}
  (hb : self.Built config pleDenseLayerId paddedVocabSize multipliers)

include hb

/-- The table of a head stands behind those of the heads before it. -/
theorem slice {h : Nat} (hh : h < self.ngramHeads) :
    (config.layout pleDenseLayerId).sizes[h]? = some (self.ngramHeadsVocabSizes h).toInt ∧
    (self.ngramHeadsOffsets h).toInt = ((config.layout pleDenseLayerId).sizes.take h).sum := by
  have hlt : h < (config.layout pleDenseLayerId).sizes.length := by
    rwa [TextConfig.layout, sizes_makeVocabLayout, List.length_map, List.length_range,
      ← hb.ngramHeads]
  refine ⟨?_, hb.offsets h _ (running_makeVocabLayout.offsets h hlt)⟩
  rw [hb.sizes h _ (List.getElem?_eq_getElem hlt)]
  exact List.getElem?_eq_getElem hlt

/-- The slices of the heads are in the table, one behind the other. -/
theorem slices {h : Nat} (hh : h < self.ngramHeads) :
    0 ≤ (self.ngramHeadsOffsets h).toInt ∧
    (self.ngramHeadsOffsets h).toInt + (self.ngramHeadsVocabSizes h).toInt ≤
      (config.layout pleDenseLayerId).offset ∧
    ∀ g < h, (self.ngramHeadsOffsets g).toInt + (self.ngramHeadsVocabSizes g).toInt ≤
      (self.ngramHeadsOffsets h).toInt := by
  have hpos : ∀ size ∈ (config.layout pleDenseLayerId).sizes, 0 ≤ size := fun size hs =>
    zero_le_two.trans (le_of_mem_sizes hs).2
  obtain ⟨hsize, hoffset⟩ := hb.slice hh
  rw [hoffset]
  refine ⟨List.sum_nonneg fun size hs => hpos size (List.mem_of_mem_take hs),
    running_makeVocabLayout.slice_le_total hpos hsize, fun g hg => ?_⟩
  obtain ⟨hsize', hoffset'⟩ := hb.slice (hg.trans hh)
  rw [hoffset']
  exact VocabLayout.slice_le hpos hsize' hg

/-- An id is in one slice. -/
theorem inSlice_unique {g h : Nat} {id : Int} (hg : g < self.ngramHeads) (hh : h < self.ngramHeads)
    (hidg : self.InSlice g id) (hidh : self.InSlice h id) : g = h := by
  have key : ∀ {a b}, b < self.ngramHeads → self.InSlice a id → self.InSlice b id → ¬a < b :=
    fun hlt ha hb' hab => by
      have := (hb.slices hlt).2.2 _ hab
      have := ha.2
      have := hb'.1
      omega
  exact le_antisymm (not_lt.1 (key hg hidh hidg)) (not_lt.1 (key hh hidg hidh))

/-- An id of a slice is one of the padded rows. -/
theorem lt_padded {h : Nat} {id : Int} (hh : h < self.ngramHeads) (hid : self.InSlice h id) :
    0 ≤ id ∧ id < paddedVocabSize := by
  obtain ⟨hpos, hle, -⟩ := hb.slices hh
  have := hid.1
  have := hid.2
  have := hb.padded
  exact ⟨by omega, by omega⟩

/-- A token of the vocabulary times a multiplier does not overflow. -/
theorem toInt_mul {k : Nat} {multiplier : Int} (hpos : 1 ≤ config.vocabSize)
    (hlt : config.vocabSize < 2 ^ 63) (hk : multipliers[k]? = some multiplier) {token : BitVec 64}
    (ht : config.InVocab token) :
    (token * self.layerMultipliers k).toInt = token.toInt * multiplier ∧
      0 ≤ token.toInt * multiplier := by
  obtain ⟨-, hm, hml⟩ := mem_makeLayerMultipliers hpos hlt hb.made (List.mem_of_getElem? hk)
  obtain ⟨hnonneg, hfits⟩ := fits_mul_of_token hm hml ht.1 ht.2
  refine ⟨?_, hnonneg⟩
  rw [← hb.multipliers k _ hk] at hfits ⊢
  exact toInt_mul_of_fits hfits

end NgramEmbedding.Built

/-- Hash ids are in the slices of their heads. The multipliers that are made for a
    vocabulary are odd and positive, and their products with its tokens fit; and if the
    checks of the constructor pass and the tables fit, it returns an embedding whose ids,
    for every batch and on either device, are in the slice of their head. The slices are
    disjoint, and in the padded table: a table on disk that is opened for the embedding
    has all ids. -/
theorem ids_in_slices {config : TextConfig} (hpos : 1 ≤ config.vocabSize)
    (hlt : config.vocabSize < 2 ^ 63) :
    (∀ ngramSize seed pleDenseLayerId multipliers,
      makeLayerMultipliers ngramSize config.vocabSize seed pleDenseLayerId = .ok multipliers →
      ∀ multiplier ∈ multipliers, Odd multiplier ∧ 0 < multiplier ∧
        ∀ token : Int, 0 ≤ token → token < config.vocabSize → FitsInt64 (token * multiplier)) ∧
    ∀ embeddingDim pleDenseLayerId, config.Valid embeddingDim →
      (config.layout pleDenseLayerId).offset < 2 ^ 63 →
      ∃ self paddedVocabSize multipliers,
        NgramEmbedding.init config embeddingDim pleDenseLayerId = .ok (self, paddedVocabSize) ∧
        self.Built config pleDenseLayerId paddedVocabSize multipliers ∧
        (∀ w : Nat → BitVec 64, (∀ k, config.InVocab (w k)) → ∀ k < self.ngramSize,
          (w k * self.layerMultipliers k).toInt = (w k).toInt * multipliers.getD k 0 ∧
          0 ≤ (self.mix w (k + 1)).toInt) ∧
        (∀ g < self.ngramHeads, ∀ h < self.ngramHeads, ∀ id,
          self.InSlice g id → self.InSlice h id → g = h) ∧
        (∀ h < self.ngramHeads, ∀ id, self.InSlice h id → 0 ≤ id ∧ id < paddedVocabSize) ∧
        ∀ device (i : NgramInputs self.contextLen), ∀ p < i.numTokens,
          ∃ ids, (self.computeNgramIds device i)[p]? = some ids ∧ ids.length = self.ngramHeads ∧
            ∀ (h : Nat) id, ids[h]? = some id → self.InSlice h id.toInt ∧
              ∀ (emb : Embedding) dir t, emb.vocab = paddedVocabSize → emb.mmapTable dir = .ok t →
                t.InTable id.toInt := by
  refine ⟨fun ngramSize seed pleDenseLayerId multipliers h multiplier hm => ?_,
    fun embeddingDim pleDenseLayerId hvalid htotal => ?_⟩
  · obtain ⟨hodd, hm0, hml⟩ := mem_makeLayerMultipliers hpos hlt h hm
    exact ⟨hodd, hm0, fun token h0 ht => (fits_mul_of_token hm0 hml h0 ht).2⟩
  obtain ⟨self, paddedVocabSize, multipliers, hinit, hb⟩ := init_eq_ok hvalid hpos hlt htotal
  refine ⟨self, paddedVocabSize, multipliers, hinit, hb, fun w hw k hk => ?_,
    fun g hg h hh id => hb.inSlice_unique hg hh, fun h hh id => hb.lt_padded hh,
    fun device i p hp => ?_⟩
  · have hterm : ∀ j < self.ngramSize,
        (w j * self.layerMultipliers j).toInt = (w j).toInt * multipliers.getD j 0 ∧
        0 ≤ (w j).toInt * multipliers.getD j 0 := fun j hj => by
      have hj' : j < multipliers.length := hb.length.symm ▸ hj
      rw [List.getD_eq_getElem _ _ hj']
      exact hb.toInt_mul hpos hlt (List.getElem?_eq_getElem hj') (hw j)
    refine ⟨(hterm k hk).1, self.mix_nonneg fun j hj => ?_⟩
    obtain ⟨heq, hnonneg⟩ := hterm j (by omega)
    rwa [heq]
  · have hr := inSegment_searchsorted i.segments p
    refine ⟨_, self.computeNgramIds_eq_hash device i hr hp, ?_, fun h id hid => ?_⟩
    · rw [NgramEmbedding.hash, List.length_map, List.length_range]
    · obtain ⟨hh, mixed, rfl⟩ := NgramEmbedding.getElem?_hash hid
      obtain ⟨h0, hle, -⟩ := hb.slices hh
      have hin := NgramEmbedding.headId_inSlice h0 (by omega) mixed
      refine ⟨hin, fun emb dir t hvocab ht => ?_⟩
      have := hb.lt_padded hh hin
      rwa [Table.InTable, (Embedding.mmapTable_eq_ok.1 ht).2, hvocab]

/-- Two heads, in the tables that the second layer has. -/
def smallConfig : TextConfig where
  ngramSize := 2
  headsPerNgram := 2
  eosTokenId := 0
  vocabSize := 10
  splitNgramParts := none
  seed := none
  ngramVocabSizeBase := 3
  makeNgramVocabSizeDivisibleBy := 8

/-- Its slices, of `7` and `11` rows, are in the padded table. -/
theorem ids_in_slices_small : ∃ self paddedVocabSize,
    NgramEmbedding.init smallConfig 4 1 = .ok (self, paddedVocabSize) ∧
    ∀ h < self.ngramHeads, ∀ id, self.InSlice h id → 0 ≤ id ∧ id < paddedVocabSize := by
  have hvalid : smallConfig.Valid 4 := ⟨by decide, by decide, by decide, by decide, by decide⟩
  obtain ⟨self, paddedVocabSize, -, hinit, -, -, -, hrows, -⟩ :=
    (ids_in_slices (show 1 ≤ smallConfig.vocabSize by decide) (by decide)).2 4 1 hvalid
      (by decide +kernel)
  exact ⟨self, paddedVocabSize, hinit, hrows⟩

end FlashNext.Ple
