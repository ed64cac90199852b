import FlashNext.System
import FlashNext.Safetensors
import FlashNext.Quant.Names

/-!
# The hybrid of two quantizations

`vllm_fp8_hybrid_modelopt.py`: the names of the FP8 layers of a checkpoint are scanned
and mapped (`applyVllmMapper`), and a linear layer is dispatched to FP8 if all that it is
made of is among them (`isFp8Layer`). Names are compared by what comes after `layers.`,
and the set of these is computed once and kept.

`isFp8Layer_iff`: after any run in which no mapper comes upon the set of other names, the
answer is right for a module if the comparison tells apart what it is made of
(`Distinguished`). Otherwise a layer of another model may be taken for it, or the names
before the mapper may.

What is logged, and the counts for it, are left out.
-/

namespace FlashNext.Quant

open Python Safetensors

/-- The names and types of the tensors of a checkpoint; none if they cannot be read. -/
abbrev Metadata := Option (List (Str × Option Str))

/-- `hf_to_vllm_mapper`: the name of a layer in the model, if it has one there. -/
abbrev WeightsMapper := Str → Option Str

/-- `WeightsMapper.apply_list`. -/
def WeightsMapper.applyList (mapper : WeightsMapper) (names : List Str) : List Str :=
  names.filterMap mapper

/-- `_scan_fp8_layers`. -/
def scanFp8Layers (md : Metadata) : List Str :=
  match md with
  | none => []
  | some md => md.filterMap fun info =>
      (stripSuffix? info.1 ".weight").bind fun name =>
        if info.2 = some (str "F8_E4M3") ∧ md.any (·.1 = name ++ str ".weight_scale_inv") then
          some name
        else none

/-- `_norm`. -/
def norm (name : Str) : Str := (findFrom "layers." name).getD name

/-- The attributes that the patch gives a config, and the mapper that was applied last. -/
structure HybridConfig where
  fp8Layers : Option (List Str)
  fp8Norm : Option (List Str)
  mapper : Option WeightsMapper

/-- The method of a layer. -/
inductive Method
  | fp8
  /-- That of the config without the patch. -/
  | original
  | unquantized
  deriving DecidableEq

namespace HybridConfig

variable (md : Metadata) (packed : Packed) (s : HybridConfig)

/-- A config that has not been used. -/
def new : HybridConfig := ⟨none, none, none⟩

/-- `apply_vllm_mapper`. -/
def applyVllmMapper (mapper : WeightsMapper) : HybridConfig :=
  let hfLayers := scanFp8Layers md
  { s with
    fp8Layers := some (if hfLayers = [] then [] else mapper.applyList hfLayers)
    mapper := some mapper }

/-- The names that are looked up for a module. -/
def checkedNames (name : Str) : List Str :=
  let (head, proj) := rpartition name
  match packed proj with
  | some (p :: ps) => if head = [] then [name] else (p :: ps).map fun p => head ++ str "." ++ p
  | _ => [name]

/-- `_is_fp8_layer`. -/
def isFp8Layer (name : Str) : HybridConfig × Bool :=
  let fp8Layers := s.fp8Layers.getD (scanFp8Layers md)
  let s := { s with fp8Layers := some fp8Layers }
  if fp8Layers = [] then (s, false)
  else
    let normSet := s.fp8Norm.getD (fp8Layers.map norm)
    ({ s with fp8Norm := some normSet },
      (checkedNames packed name).all fun n => decide (norm n ∈ normSet))

/-- `get_quant_method`, for a layer that is linear or not. -/
def getQuantMethod (linear : Bool) (name : Str) : HybridConfig × Method :=
  if linear then
    let (s, hit) := s.isFp8Layer md packed name
    (s, if hit then .fp8 else .original)
  else (s, .original)

/-- `ExcludedFp8Proxy.get_quant_method`. -/
def proxyGetQuantMethod (linear : Bool) (name : Str) : HybridConfig × Method :=
  if linear then
    let (s, hit) := s.isFp8Layer md packed name
    if hit then s.getQuantMethod md packed linear name else (s, .unquantized)
  else (s, .unquantized)

end HybridConfig

/-! ## Runs -/

/-- The calls of a config. -/
inductive HybridCall
  | applyVllmMapper (mapper : WeightsMapper)
  | isFp8Layer (name : Str)
  | getQuantMethod (linear : Bool) (name : Str)
  | proxyGetQuantMethod (linear : Bool) (name : Str)

/-- The config after a call. -/
def HybridConfig.call (md : Metadata) (packed : Packed) (s : HybridConfig) :
    HybridCall → HybridConfig
  | .applyVllmMapper mapper => s.applyVllmMapper md mapper
  | .isFp8Layer name => (s.isFp8Layer md packed name).1
  | .getQuantMethod linear name => (s.getQuantMethod md packed linear name).1
  | .proxyGetQuantMethod linear name => (s.proxyGetQuantMethod md packed linear name).1

/-- The runs of a config. -/
def hybridSystem (md : Metadata) (packed : Packed) : System HybridConfig HybridCall where
  init := (· = .new)
  step s c s' := s' = s.call md packed c

/-! ## What a module is made of -/

/-- A name, with its `language_model.` left out if `model.` follows. -/
def moduleName (name : Str) : Str :=
  if (str "language_model.model.").isPrefixOf name then name.drop (str "language_model.").length
  else name

/-- The modules that a module is made of. -/
def constituents (packed : Packed) (name : Str) : List Str :=
  let (head, proj) := rpartition name
  match packed proj with
  | some (p :: ps) => (p :: ps).map fun p => if head = [] then p else head ++ str "." ++ p
  | _ => [name]

/-- The FP8 layers of the checkpoint, under the names of the model. -/
def mappedLayers (md : Metadata) (mapper : WeightsMapper) : List Str :=
  mapper.applyList (scanFp8Layers md)

/-- All that the module is made of is FP8. -/
def IsFp8 (packed : Packed) (layers : List Str) (name : Str) : Prop :=
  ∀ n ∈ constituents packed name, ∃ l ∈ layers, moduleName n = moduleName l

/-- A fused module is in another one, and the text after `layers.` is the same for what
    it is made of and for an FP8 layer just when these are the same module. -/
structure Distinguished (packed : Packed) (layers : List Str) (name : Str) : Prop where
  fused : (rpartition name).1 = [] → packed (rpartition name).2 = none ∨
    packed (rpartition name).2 = some []
  norm_iff : ∀ n ∈ constituents packed name, ∀ l ∈ layers,
    norm n = norm l ↔ moduleName n = moduleName l

/-- When a mapper is applied, the names kept so far, if any, are those of the layers that
    it gives. -/
def HybridCall.Fresh (md : Metadata) (s : HybridConfig) : HybridCall → Prop
  | .applyVllmMapper mapper => mappedLayers md mapper = [] ∨ ∀ kept, s.fp8Norm = some kept →
      ∀ x, x ∈ kept ↔ x ∈ (mappedLayers md mapper).map norm
  | _ => True

/-- An answer does not change the mapper. -/
theorem HybridConfig.mapper_isFp8Layer (md : Metadata) (packed : Packed) (s : HybridConfig)
    (name : Str) : (s.isFp8Layer md packed name).1.mapper = s.mapper := by
  unfold HybridConfig.isFp8Layer
  dsimp only
  split_ifs <;> rfl

/-- Since the last mapper, the layers are those that it gave, and the names that are kept
    are theirs. -/
def HybridConfig.Mapped (md : Metadata) (s : HybridConfig) : Prop :=
  ∀ mapper, s.mapper = some mapper → s.fp8Layers = some (mappedLayers md mapper) ∧
    (mappedLayers md mapper = [] ∨ ∀ kept, s.fp8Norm = some kept →
      ∀ x, x ∈ kept ↔ x ∈ (mappedLayers md mapper).map norm)

namespace HybridConfig.Mapped

variable {md : Metadata} {packed : Packed} {s : HybridConfig}

theorem applyVllmMapper {mapper : WeightsMapper}
    (h : (HybridCall.applyVllmMapper mapper).Fresh md s) :
    (s.applyVllmMapper md mapper).Mapped md := by
  rintro _ ⟨⟩
  refine ⟨?_, h⟩
  by_cases hnil : scanFp8Layers md = []
  · simp [HybridConfig.applyVllmMapper, mappedLayers, WeightsMapper.applyList, hnil]
  · simp only [HybridConfig.applyVllmMapper, if_neg hnil, mappedLayers]

theorem isFp8Layer (h : s.Mapped md) (name : Str) : (s.isFp8Layer md packed name).1.Mapped md := by
  intro mapper hmapper
  rw [mapper_isFp8Layer] at hmapper
  obtain ⟨hlayers, hkept⟩ := h mapper hmapper
  unfold HybridConfig.isFp8Layer
  dsimp only
  rw [hlayers, Option.getD_some]
  split_ifs with hnil
  · exact ⟨rfl, .inl hnil⟩
  · refine ⟨rfl, .inr ?_⟩
    rintro _ ⟨⟩
    cases hn : s.fp8Norm with
    | none => exact fun _ => Iff.rfl
    | some kept => exact hkept.resolve_left hnil kept hn

theorem getQuantMethod (h : s.Mapped md) (linear : Bool) (name : Str) :
    (s.getQuantMethod md packed linear name).1.Mapped md := by
  unfold HybridConfig.getQuantMethod
  split_ifs
  · exact h.isFp8Layer name
  · exact h

theorem proxyGetQuantMethod (h : s.Mapped md) (linear : Bool) (name : Str) :
    (s.proxyGetQuantMethod md packed linear name).1.Mapped md := by
  unfold HybridConfig.proxyGetQuantMethod
  dsimp only
  split_ifs
  · exact (h.isFp8Layer name).getQuantMethod linear name
  · exact h.isFp8Layer name
  · exact h

end HybridConfig.Mapped

/-- In a run in which no mapper comes upon other names, those that are kept are the ones
    of the mapped layers. -/
theorem mapped_of_reachable {md : Metadata} {packed : Packed} {s : HybridConfig}
    (hs : ((hybridSystem md packed).restrict (HybridCall.Fresh md)).Reachable s) : s.Mapped md := by
  refine hs.invariant ?_ ?_
  · rintro _ rfl _ ⟨⟩
  · rintro s c _ h ⟨hfresh, rfl⟩
    cases c with
    | applyVllmMapper mapper => exact .applyVllmMapper hfresh
    | isFp8Layer name => exact h.isFp8Layer name
    | getQuantMethod linear name => exact h.getQuantMethod linear name
    | proxyGetQuantMethod linear name => exact h.proxyGetQuantMethod linear name

/-! ## The answers -/

section Answers

variable {md : Metadata} {packed : Packed} {s : HybridConfig} {mapper : WeightsMapper} {name : Str}

/-- The names that are looked up are those of what the module is made of. -/
theorem checkedNames_eq {layers : List Str} (h : Distinguished packed layers name) :
    HybridConfig.checkedNames packed name = constituents packed name := by
  have hfused := h.fused
  unfold HybridConfig.checkedNames constituents
  dsimp only
  split
  · rename_i p ps hpacked
    -- A fused name without a dot is looked up as it is.
    by_cases hhead : (rpartition name).1 = []
    · rcases hfused hhead with hnone | hnil
      · simp [hnone] at hpacked
      · simp [hnil] at hpacked
    · simp only [if_neg hhead]
  · rfl

/-- The answer, by the names after `layers.`. -/
theorem isFp8Layer_eq (h : s.Mapped md) (hmapper : s.mapper = some mapper) :
    (s.isFp8Layer md packed name).2 = true ↔ mappedLayers md mapper ≠ [] ∧
      ∀ n ∈ HybridConfig.checkedNames packed name, ∃ l ∈ mappedLayers md mapper,
        norm n = norm l := by
  obtain ⟨hlayers, hkept⟩ := h mapper hmapper
  unfold HybridConfig.isFp8Layer
  dsimp only
  rw [hlayers, Option.getD_some]
  split_ifs with hnil
  · simp [hnil]
  · have hmem : ∀ n, norm n ∈ s.fp8Norm.getD ((mappedLayers md mapper).map norm) ↔
        ∃ l ∈ mappedLayers md mapper, norm n = norm l := by
      intro n
      have hlook : norm n ∈ (mappedLayers md mapper).map norm ↔
          ∃ l ∈ mappedLayers md mapper, norm n = norm l := by
        simp only [List.mem_map, eq_comm]
      cases hn : s.fp8Norm with
      | none => exact hlook
      | some kept => exact (hkept.resolve_left hnil kept hn _).trans hlook
    simp only [List.all_eq_true, decide_eq_true_eq, hmem, ne_eq, hnil, not_false_eq_true, true_and]

/-- A module is made of something. -/
theorem constituents_ne_nil (packed : Packed) (name : Str) : constituents packed name ≠ [] := by
  unfold constituents
  dsimp only
  split <;> simp

/-- The answer is right, if the comparison tells apart what the module is made of. -/
theorem isFp8Layer_iff_of_mapped (h : s.Mapped md) (hmapper : s.mapper = some mapper)
    (hdist : Distinguished packed (mappedLayers md mapper) name) :
    (s.isFp8Layer md packed name).2 = true ↔ IsFp8 packed (mappedLayers md mapper) name := by
  rw [isFp8Layer_eq h hmapper, checkedNames_eq hdist, IsFp8]
  have hname : ∀ n ∈ constituents packed name, (∃ l ∈ mappedLayers md mapper, norm n = norm l) ↔
      ∃ l ∈ mappedLayers md mapper, moduleName n = moduleName l := fun n hn =>
    exists_congr fun l => and_congr_right fun hl => hdist.norm_iff n hn l hl
  constructor
  · rintro ⟨-, hall⟩ n hn
    exact (hname n hn).1 (hall n hn)
  · intro hall
    refine ⟨fun hnil => ?_, fun n hn => (hname n hn).2 (hall n hn)⟩
    obtain ⟨n, hn⟩ := List.exists_mem_of_ne_nil _ (constituents_ne_nil packed name)
    obtain ⟨l, hl, -⟩ := hall n hn
    rw [hnil] at hl
    cases hl

/-- After any run in which no mapper comes upon other names, the answer for a module that
    is told apart is right, and a layer is dispatched to FP8 just when it is linear and the
    answer is yes. -/
theorem isFp8Layer_iff
    (hs : ((hybridSystem md packed).restrict (HybridCall.Fresh md)).Reachable s)
    (hmapper : s.mapper = some mapper)
    (hdist : Distinguished packed (mappedLayers md mapper) name) :
    ((s.isFp8Layer md packed name).2 = true ↔ IsFp8 packed (mappedLayers md mapper) name) ∧
    ∀ linear, ((s.getQuantMethod md packed linear name).2 = .fp8 ↔
        linear = true ∧ IsFp8 packed (mappedLayers md mapper) name) ∧
      ((s.proxyGetQuantMethod md packed linear name).2 = .fp8 ↔
        linear = true ∧ IsFp8 packed (mappedLayers md mapper) name) := by
  have hmapped := mapped_of_reachable hs
  have hanswer := isFp8Layer_iff_of_mapped hmapped hmapper hdist
  have hagain : ((s.isFp8Layer md packed name).1.isFp8Layer md packed name).2 = true ↔ _ :=
    isFp8Layer_iff_of_mapped (hmapped.isFp8Layer name)
      ((HybridConfig.mapper_isFp8Layer md packed s name).trans hmapper) hdist
  refine ⟨hanswer, fun linear => ?_⟩
  rw [← hanswer]
  cases linear with
  | false => simp [HybridConfig.getQuantMethod, HybridConfig.proxyGetQuantMethod]
  | true =>
    rw [← hanswer] at hagain
    cases hhit : (s.isFp8Layer md packed name).2 <;>
      simp_all [HybridConfig.getQuantMethod, HybridConfig.proxyGetQuantMethod]

end Answers

/-! ## A checkpoint -/

/-- Two projections of a layer and their scales, in FP8. -/
def twoProjections : Metadata := some <|
  ["model.layers.0.mlp.gate_proj", "model.layers.0.mlp.up_proj"].flatMap fun name =>
    [(str (name ++ ".weight"), some (str "F8_E4M3")),
      (str (name ++ ".weight_scale_inv"), some (str "F32"))]

/-- The packed projection of the layer. -/
def gateUp : Packed := fun proj =>
  if proj = str "gate_up_proj" then some [str "gate_proj", str "up_proj"] else none

/-- A config with the names of the checkpoint. -/
def hybridConfig : HybridConfig := HybridConfig.new.applyVllmMapper twoProjections some

/-- The packed projection is FP8, under its other name too. -/
theorem isFp8Layer_iff_gateUp : (hybridConfig.isFp8Layer twoProjections gateUp
    (str "language_model.model.layers.0.mlp.gate_up_proj")).2 = true := by
  have hs : ((hybridSystem twoProjections gateUp).restrict
      (HybridCall.Fresh twoProjections)).Reachable hybridConfig := by
    refine .step (.init rfl) (a := .applyVllmMapper some) ⟨.inr fun kept hkept => ?_, rfl⟩
    cases hkept
  have hdist : Distinguished gateUp (mappedLayers twoProjections some)
      (str "language_model.model.layers.0.mlp.gate_up_proj") :=
    ⟨by decide +kernel, by decide +kernel⟩
  refine (isFp8Layer_iff hs rfl hdist).1.2 ?_
  unfold IsFp8
  decide +kernel

/-- That of a draft layer with the same number is taken for it. -/
theorem isFp8Layer_draft_not : ¬((hybridConfig.isFp8Layer twoProjections gateUp
      (str "mtp.layers.0.mlp.gate_up_proj")).2 = true ↔
    IsFp8 gateUp (mappedLayers twoProjections some) (str "mtp.layers.0.mlp.gate_up_proj")) := by
  unfold IsFp8
  decide +kernel

end FlashNext.Quant
