import FlashNext.Quant.Convert
import FlashNext.Quant.Hybrid

/-!
# Converted checkpoints

What holds of a checkpoint that `fp8_convert.py` has converted.

* `reads_back`: its numbers are those of before, up to the rounding;
* `main_of_notTiny`: the limit of the round trip is kept;
* `indexed_of_convert`: the index still lists the tensors of the shards;
* `scan_convert`: the hybrid of two quantizations finds the layers that were converted, and
  those it found before;
* `convert_twice`: a second conversion loses the scales and the backups.
-/

namespace FlashNext.Quant

open Python Safetensors

namespace CheckpointDir

variable {dir dir' dir'' : CheckpointDir} {worst worst' : ℚ}

/-! ## Numbers -/

/-- After a conversion, every weight that is selected and has blocks is read back within a
    28th of the greatest number of its block, or of `1e-12` if that is more, from codes and
    scales that the index has in its file; all other tensors of the files, and all other names
    of the index, are as before, and the files that were rewritten are kept as backups. -/
theorem reads_back (hplain : dir.Plain) (h : convert dir = .ok (dir', worst)) :
    (∀ file name w, dir.Converts file name w → ∃ q s, dir'.tensor? file name = some q ∧
      dir'.tensor? file (scaleName name) = some s ∧
      dir'.weightMap.lookup (scaleName name) = some file ∧
      q.shape = w.shape ∧ q.dtype = "F8_E4M3" ∧ s.shape = w.shape.map (· / 128) ∧
      ∀ row column, |q.data row column * s.data (row / 128) (column / 128) - w.data row column| ≤
        absmax w.data (row / 128) (column / 128) / 28) ∧
    (∀ file name, (∀ file' name', dir.Target file' name' → file ≠ backup file') →
      (∀ m w, dir.Converts file m w → name ≠ m ∧ name ≠ scaleName m) →
      dir'.tensor? file name = dir.tensor? file name) ∧
    (∀ name, (∀ file m w, dir.Converts file m w → name ≠ scaleName m) →
      dir'.weightMap.lookup name = dir.weightMap.lookup name) ∧
    ∀ file name, dir.Target file name → dir'.files (backup file) = dir.files file := by
  obtain ⟨-, htarget, hrest⟩ := convert_spec hplain h
  refine ⟨fun file name w hw => ?_, hrest⟩
  obtain ⟨hweight, hscale, hindex⟩ := htarget file name w hw
  exact ⟨_, _, hweight, hscale, hindex, rfl, rfl, rfl, abs_dequantized_sub_le w.data⟩

/-! ## The limit of the round trip -/

end CheckpointDir

/-- The greatest number is zero, or not tiny. -/
def Tensor.NotTiny (w : Tensor) : Prop := w.greatest = 0 ∨ 1e-12 ≤ w.greatest

section Worst

variable {file name : Str} {names : List Str} {st st' : Converting}

/-- The round trip of a tensor that is not tiny keeps the limit. -/
theorem worst_convertTensor (h : convertTensor file st name = .ok st')
    (htiny : ∀ w, st.tensors.lookup name = some w → w.Blocks → w.NotTiny)
    (hworst : st.worst ≤ 1 / 28) : st'.worst ≤ 1 / 28 := by
  obtain ⟨w, hw, ⟨-, rfl⟩ | ⟨hblocks, rfl⟩⟩ := convertTensor_cases h
  · exact hworst
  · refine max_le hworst ?_
    have hnot := htiny w hw hblocks
    obtain ⟨rows, columns, hshape, hrows, hcolumns⟩ := hblocks
    rw [Tensor.NotTiny, Tensor.greatest, hshape] at hnot
    rw [hshape]
    exact rel_le hrows hcolumns hnot

/-- So do those of a shard. -/
theorem worst_shard (hnames : ∀ n ∈ names, PlainName n) (hnodup : names.Nodup)
    (h : names.foldlM (convertTensor file) st = .ok st')
    (htiny : ∀ n ∈ names, ∀ w, st.tensors.lookup n = some w → w.Blocks → w.NotTiny)
    (hworst : st.worst ≤ 1 / 28) : st'.worst ≤ 1 / 28 := by
  induction names generalizing st with
  | nil =>
    cases Except.ok.inj h
    exact hworst
  | cons m names ih =>
    rw [List.foldlM_cons] at h
    obtain ⟨st₁, hstep, hrest⟩ := bind_eq_ok.1 h
    rw [List.forall_mem_cons] at hnames htiny
    rw [List.nodup_cons] at hnodup
    have hconv := converted_tensor hnames.1 hstep
    refine ih hnames.2 hnodup.2 hrest (fun n hn w hw => htiny.2 n hn w ?_)
      (worst_convertTensor hstep htiny.1 hworst)
    rw [← hw, hconv.tensor n (List.forall_mem_singleton.2 fun _ _ _ => ⟨fun heq => ?_, ?_⟩)]
    · exact hnodup.1 (heq ▸ hn)
    · exact (scaleName_ne hnames.1 (hnames.2 n hn)).symm

/-- So do those of separate files. -/
theorem worst_files {l : List (Str × List Str)} {st st' : CheckpointDir × ℚ} (hsep : Separate l)
    (h : l.foldlM convertFile st = .ok st')
    (htiny : ∀ x ∈ l, ∀ n ∈ x.2, ∀ w, st.1.tensor? x.1 n = some w → w.Blocks → w.NotTiny)
    (hworst : st.2 ≤ 1 / 28) : st'.2 ≤ 1 / 28 := by
  induction l generalizing st with
  | nil =>
    cases Except.ok.inj h
    exact hworst
  | cons x l ih =>
    rw [List.foldlM_cons] at h
    obtain ⟨st₁, hfile, hrest⟩ := bind_eq_ok.1 h
    have hconv := convertedFiles_file hsep.head hfile
    obtain ⟨tensors, r, htensors, hr, -, hr', -⟩ := convertFile_eq_ok hfile
    rw [List.forall_mem_cons] at htiny
    have hx : x ∈ x :: l := List.mem_cons_self
    refine ih hsep.tail hrest (fun y hy n hn w hw => htiny.2 y hy n hn w ?_) ?_
    · have hy' := List.mem_cons_of_mem x hy
      rw [← hw, hconv.tensor y.1 n (List.forall_mem_singleton.2 (hsep.backups y hy' x hx))
        (List.forall_mem_singleton.2 fun heq => absurd heq ?_)]
      exact ((List.pairwise_cons.1 hsep.apart).1 y hy).1
    · rw [hr']
      refine worst_shard (hsep.names x hx) (hsep.nodup x hx) hr (fun n hn w hw => ?_) hworst
      exact htiny.1 n hn w (by rw [CheckpointDir.tensor?, htensors]; exact hw)

end Worst

namespace CheckpointDir

variable {dir dir' dir'' : CheckpointDir} {worst worst' : ℚ}

/-- The limit of the round trip is kept by every conversion of weights that are not tiny. -/
theorem main_of_notTiny (hplain : dir.Plain)
    (htiny : ∀ file name w, dir.Converts file name w → w.NotTiny) :
    main dir = (convert dir).map (·.1) := by
  rw [main]
  cases h : convert dir with
  | error e => rfl
  | ok r =>
    have hworst := worst_files hplain.separate h (fun x hx n hn w hw hblocks =>
      htiny x.1 n w ⟨(mem_names hx).1 hn, hw, hblocks⟩) (by norm_num)
    exact if_pos (hworst.trans_lt (by norm_num))

/-! ## The index -/

theorem stripSuffix_eq_none {name suffix : Str} (h : ¬suffix <:+ name) :
    stripSuffix? name suffix = none :=
  if_neg fun hs => h (List.isSuffixOf_iff_suffix.1 hs)

/-- A text ends with the last character of its suffix. -/
theorem getLast?_of_suffix {s t : Str} {c : Nat} (h : s <:+ t) (hc : s.getLast? = some c) :
    t.getLast? = some c :=
  List.singleton_suffix_iff_getLast?_eq_some.1
    ((List.singleton_suffix_iff_getLast?_eq_some.2 hc).trans h)

theorem getLast?_weight (stem : Str) : (stem ++ str ".weight").getLast? = some 116 :=
  getLast?_of_suffix (List.suffix_append _ _) rfl

theorem getLast?_scales (stem : Str) : (stem ++ str ".weight_scale_inv").getLast? = some 118 :=
  getLast?_of_suffix (List.suffix_append _ _) rfl

theorem getLast?_scaleName {name : Str} (h : PlainName name) :
    (scaleName name).getLast? = some 118 := by
  obtain ⟨stem, rfl, hstem⟩ := h
  rw [scaleName_append hstem, getLast?_scales]

/-- The name of scales is selected by nothing. -/
theorem not_isTarget_scaleName {name : Str} (h : PlainName name) :
    isTarget (scaleName name) = false := by
  have hlast : ∀ target ∈ targetModules,
      (str ("." ++ target ++ ".weight")).getLast? = some 116 := by decide
  rw [isTarget]
  dsimp only
  rw [getLast?_scaleName h, if_neg (by decide)]
  refine List.any_eq_false.2 fun target htarget => ?_
  rw [stripSuffix_eq_none fun hsuffix => ?_]
  · exact Bool.false_ne_true
  · have heq := getLast?_of_suffix hsuffix (hlast target htarget)
    rw [getLast?_scaleName h] at heq
    cases heq

/-- The targets of a checkpoint stay its targets. -/
theorem target_iff (hplain : dir.Plain) (h : convert dir = .ok (dir', worst)) {file name : Str} :
    dir'.Target file name ↔ dir.Target file name := by
  obtain ⟨-, -, -, hindex, -⟩ := convert_spec hplain h
  refine and_congr_left fun htarget => ?_
  rw [hindex name fun file m w hw heq => ?_]
  rw [heq, not_isTarget_scaleName (hplain.names _ _ hw.1)] at htarget
  cases htarget

/-- The index has just the tensors of some files. -/
def Indexed (dir : CheckpointDir) (shards : List Str) : Prop :=
  ∀ file name, dir.weightMap.lookup name = some file ↔
    file ∈ shards ∧ (dir.tensor? file name).isSome

/-- After a conversion, the index has just the tensors of the shards, if that was so before and
    no shard has a tensor with the name of the scales of a weight in another one. -/
theorem indexed_of_convert (hplain : dir.Plain) (h : convert dir = .ok (dir', worst))
    {shards : List Str} (hindexed : dir.Indexed shards)
    (hbackups : ∀ file ∈ shards, ∀ file' name', dir.Target file' name' → file ≠ backup file')
    (hscales : ∀ file name, dir.Target file name → ∀ file',
      dir.weightMap.lookup (scaleName name) = some file' → file' = file) :
    dir'.Indexed shards := by
  obtain ⟨-, htarget, htensor, hindex, -⟩ := convert_spec hplain h
  intro file name
  by_cases hscale : ∃ file' m w, dir.Converts file' m w ∧ name = scaleName m
  · obtain ⟨file', m, w, hw, rfl⟩ := hscale
    obtain ⟨-, hscales', hlookup⟩ := htarget file' m w hw
    have hshard : file' ∈ shards := ((hindexed file' m).1 hw.1.1).1
    rw [hlookup, Option.some_inj]
    refine ⟨fun heq => heq ▸ ⟨hshard, hscales' ▸ rfl⟩, fun ⟨hfile, hsome⟩ => ?_⟩
    -- Another shard has no tensor with the name of these scales.
    by_contra hne
    rw [htensor file _ (hbackups file hfile) fun k v hv => ⟨?_, ?_⟩] at hsome
    · exact hne (hscales file' m hw.1 file ((hindexed file _).2 ⟨hfile, hsome⟩)).symm
    · exact scaleName_ne (hplain.names _ _ hw.1) (hplain.names _ _ hv.1)
    · intro heq
      obtain rfl := scaleName_inj (hplain.names _ _ hw.1) (hplain.names _ _ hv.1) heq
      exact hne (Option.some.inj (hw.1.1.symm.trans hv.1.1))
  · push Not at hscale
    rw [hindex name hscale, hindexed file name]
    refine and_congr_right fun hfile => ?_
    by_cases hconv : ∃ w, dir.Converts file name w
    · obtain ⟨w, hw⟩ := hconv
      rw [hw.2.1, (htarget file name w hw).1]
      rfl
    · rw [htensor file name (hbackups file hfile) fun m w hw => ⟨?_, hscale file m w hw⟩]
      rintro rfl
      exact hconv ⟨w, hw⟩

/-! ## The hybrid of two quantizations -/

/-- `get_safetensors_params_metadata`: the tensors of the shards. -/
def metadata (dir : CheckpointDir) (shards : List Str) : Metadata :=
  some (shards.flatMap fun file => (dir.files file).elim [] fun tensors =>
    tensors.entries.map fun e => (e.1, some e.2.dtype))

/-- A tensor of a shard, by its name. -/
def HasTensor (dir : CheckpointDir) (shards : List Str) (name : Str) (w : Tensor) : Prop :=
  ∃ file ∈ shards, dir.tensor? file name = some w

theorem mem_metadata {shards : List Str} {name : Str} {dtype : Option Str} :
    (∃ md, dir.metadata shards = some md ∧ (name, dtype) ∈ md) ↔
      ∃ w, dir.HasTensor shards name w ∧ dtype = some w.dtype := by
  simp only [metadata, Option.some_inj, exists_eq_left', List.mem_flatMap, HasTensor, tensor?]
  constructor
  · rintro ⟨file, hfile, hmem⟩
    cases htensors : dir.files file with
    | none => simp [htensors] at hmem
    | some tensors =>
      simp only [htensors, Option.elim_some, List.mem_map] at hmem
      obtain ⟨e, he, heq⟩ := hmem
      obtain ⟨rfl, rfl⟩ := Prod.mk.inj heq
      exact ⟨e.2, ⟨file, hfile, by
        rw [htensors, Option.bind_some]
        exact AList.mem_lookup_iff.2 he⟩, rfl⟩
  · rintro ⟨w, ⟨file, hfile, hw⟩, rfl⟩
    obtain ⟨tensors, htensors, hlookup⟩ := Option.bind_eq_some_iff.1 hw
    refine ⟨file, hfile, ?_⟩
    rw [htensors, Option.elim_some, List.mem_map]
    exact ⟨⟨name, w⟩, AList.mem_lookup_iff.1 hlookup, rfl⟩

theorem stripSuffix_eq_some_iff {name suffix stem : Str} :
    stripSuffix? name suffix = some stem ↔ name = stem ++ suffix := by
  rw [stripSuffix?]
  constructor
  · intro h
    split_ifs at h with hs
    obtain ⟨t, rfl⟩ := List.isSuffixOf_iff_suffix.1 hs
    rw [← Option.some.inj h]
    simp
  · rintro rfl
    rw [if_pos (List.isSuffixOf_iff_suffix.2 (List.suffix_append stem suffix))]
    simp

/-- The layers that are found: those with a weight of codes, and with scales. -/
theorem mem_scanFp8Layers {shards : List Str} {layer : Str} :
    layer ∈ scanFp8Layers (dir.metadata shards) ↔
      (∃ w, dir.HasTensor shards (layer ++ str ".weight") w ∧ w.dtype = "F8_E4M3") ∧
        ∃ w, dir.HasTensor shards (layer ++ str ".weight_scale_inv") w := by
  obtain ⟨md, hmd⟩ : ∃ md, dir.metadata shards = some md := ⟨_, rfl⟩
  have hmem : ∀ {name dtype}, (name, dtype) ∈ md ↔
      ∃ w, dir.HasTensor shards name w ∧ dtype = some w.dtype := by
    intro name dtype
    rw [← mem_metadata, hmd]
    simp
  simp only [hmd, scanFp8Layers, List.mem_filterMap, Option.bind_eq_some_iff,
    stripSuffix_eq_some_iff]
  constructor
  · rintro ⟨⟨name, dtype⟩, hinfo, stem, rfl, hif⟩
    split_ifs at hif with hcond
    obtain rfl := Option.some.inj hif
    obtain ⟨w, hw, rfl⟩ := hmem.1 hinfo
    obtain ⟨⟨name', dtype'⟩, hinfo', heq⟩ := List.any_eq_true.1 hcond.2
    obtain rfl := of_decide_eq_true heq
    obtain ⟨v, hv, -⟩ := hmem.1 hinfo'
    exact ⟨⟨w, hw, Option.some.inj hcond.1⟩, v, hv⟩
  · rintro ⟨⟨w, hw, hdtype⟩, v, hv⟩
    refine ⟨_, hmem.2 ⟨w, hw, rfl⟩, layer, rfl, if_pos ⟨congrArg some hdtype, ?_⟩⟩
    exact List.any_eq_true.2 ⟨_, hmem.2 ⟨v, hv, rfl⟩, decide_eq_true rfl⟩

/-- The weight and the scales of a layer that is not converted are left alone. -/
theorem tensors_of_not_converted (hplain : dir.Plain) (h : convert dir = .ok (dir', worst))
    {file : Str} (hfile : ∀ file' name', dir.Target file' name' → file ≠ backup file') {layer : Str}
    (hconv : ∀ w, ¬dir.Converts file (layer ++ str ".weight") w) :
    dir'.tensor? file (layer ++ str ".weight") = dir.tensor? file (layer ++ str ".weight") ∧
      dir'.tensor? file (layer ++ str ".weight_scale_inv") =
        dir.tensor? file (layer ++ str ".weight_scale_inv") := by
  obtain ⟨-, -, htensor, -, -⟩ := convert_spec hplain h
  constructor
  · refine htensor _ _ hfile fun m w hw => ⟨fun heq => hconv w (heq ▸ hw), fun heq => ?_⟩
    have hlast := getLast?_weight layer
    rw [heq, getLast?_scaleName (hplain.names _ _ hw.1)] at hlast
    cases hlast
  · refine htensor _ _ hfile fun m w hw => ?_
    obtain ⟨stem, rfl, hstem⟩ := hplain.names _ _ hw.1
    refine ⟨fun heq => ?_, fun heq => ?_⟩
    · have hlast := getLast?_weight stem
      rw [← heq, getLast?_scales] at hlast
      cases hlast
    · rw [scaleName_append hstem] at heq
      exact hconv w (List.append_cancel_right heq ▸ hw)

/-- In a converted checkpoint, the hybrid finds the layers that were converted, and those that
    it would have found before. -/
theorem scan_convert (hplain : dir.Plain) (h : convert dir = .ok (dir', worst))
    {shards : List Str} (hshards : ∀ file name, dir.Target file name → file ∈ shards)
    (hbackups : ∀ file ∈ shards, ∀ file' name', dir.Target file' name' → file ≠ backup file')
    (layer : Str) :
    layer ∈ scanFp8Layers (dir'.metadata shards) ↔
      (∃ file w, dir.Converts file (layer ++ str ".weight") w) ∨
        layer ∈ scanFp8Layers (dir.metadata shards) := by
  rw [mem_scanFp8Layers, mem_scanFp8Layers]
  by_cases hconv : ∃ file w, dir.Converts file (layer ++ str ".weight") w
  · refine iff_of_true ?_ (.inl hconv)
    obtain ⟨file, w, hw⟩ := hconv
    obtain ⟨-, htarget, -⟩ := convert_spec hplain h
    obtain ⟨hcodes, hscales, -⟩ := htarget file _ w hw
    obtain ⟨stem, hstem, hplain'⟩ := hplain.names _ _ hw.1
    obtain rfl := List.append_cancel_right hstem
    rw [scaleName_append hplain'] at hscales
    have hshard := hshards _ _ hw.1
    exact ⟨⟨_, ⟨file, hshard, hcodes⟩, rfl⟩, _, file, hshard, hscales⟩
  · rw [or_iff_right hconv]
    push Not at hconv
    have hsame := fun file hfile =>
      tensors_of_not_converted hplain h (hbackups file hfile) (hconv file)
    have hweight : ∀ w, dir'.HasTensor shards (layer ++ str ".weight") w ↔
        dir.HasTensor shards (layer ++ str ".weight") w := fun w =>
      exists_congr fun file => and_congr_right fun hfile => by rw [(hsame file hfile).1]
    have hscales : ∀ w, dir'.HasTensor shards (layer ++ str ".weight_scale_inv") w ↔
        dir.HasTensor shards (layer ++ str ".weight_scale_inv") w := fun w =>
      exists_congr fun file => and_congr_right fun hfile => by rw [(hsame file hfile).2]
    simp only [hweight, hscales]

/-! ## A second conversion -/

/-- A second conversion takes the codes for weights: it gives them the scale `1`, unless the
    block is tiny, so that the scales of the first one are lost, and it puts the shards of the
    first one in the place of the backups. -/
theorem convert_twice (hplain : dir.Plain) (h : convert dir = .ok (dir', worst))
    (h' : convert dir' = .ok (dir'', worst')) {file name : Str} {w : Tensor}
    (hw : dir.Converts file name w) :
    dir''.files (backup file) = dir'.files file ∧
    ∃ q s, dir''.tensor? file name = some q ∧ dir''.tensor? file (scaleName name) = some s ∧
      ∀ row column, 1e-12 ≤ amax w.data (blockCells (row / 128) (column / 128)) →
        s.data (row / 128) (column / 128) = 1 ∧
        q.data row column * s.data (row / 128) (column / 128) = codeNumbers w.data row column := by
  have hplain' : dir'.Plain :=
    ⟨fun file name ht => hplain.names file name ((target_iff hplain h).1 ht),
      fun file name file' name' ht ht' => hplain.backups file name file' name'
        ((target_iff hplain h).1 ht) ((target_iff hplain h).1 ht')⟩
  obtain ⟨-, htarget, -⟩ := convert_spec hplain h
  obtain ⟨-, htarget', -, -, hbackup⟩ := convert_spec hplain' h'
  obtain ⟨hcodes, -⟩ := htarget file name w hw
  have ht' := (target_iff hplain h).2 hw.1
  obtain ⟨hcodes', hscales', -⟩ := htarget' file name w.quantized ⟨ht', hcodes, hw.2.2⟩
  refine ⟨hbackup file name ht', _, _, hcodes', hscales', fun row column hlarge => ?_⟩
  obtain ⟨hone, hsame⟩ := blockQuant_twice hlarge
  refine ⟨hone, ?_⟩
  calc codeNumbers (codeNumbers w.data) row column *
      blockScale (codeNumbers w.data) (row / 128) (column / 128)
    _ = codeNumbers w.data row column := by rw [hone, mul_one, hsame]

/-! ## A sample -/

/-- The layer of the sample. -/
def sampleLayer : Str := "model.language_model.layers.0.self_attn.q_proj"

/-- A shard with a matrix of ones. -/
def oneLayer : CheckpointDir where
  weightMap := AList.singleton (sampleLayer ++ str ".weight") (str "model.safetensors")
  files file :=
    if file = str "model.safetensors" then
      some (AList.singleton (sampleLayer ++ str ".weight") ⟨[128, 128], "BF16", fun _ _ => 1⟩)
    else none

theorem lookup_singleton_iff {V : Type} {key name : Str} {v v' : V} :
    (AList.singleton key v : Dict V).lookup name = some v' ↔ name = key ∧ v' = v := by
  rw [← Option.mem_def, AList.mem_lookup_iff, AList.singleton_entries, List.mem_singleton]
  constructor
  · intro h
    cases h
    exact ⟨rfl, rfl⟩
  · rintro ⟨rfl, rfl⟩
    rfl

theorem lookup_oneLayer_iff {file name : Str} : oneLayer.weightMap.lookup name = some file ↔
    name = sampleLayer ++ str ".weight" ∧ file = str "model.safetensors" :=
  lookup_singleton_iff

theorem target_oneLayer_iff {file name : Str} : oneLayer.Target file name ↔
    name = sampleLayer ++ str ".weight" ∧ file = str "model.safetensors" := by
  rw [Target, lookup_oneLayer_iff, and_iff_left_iff_imp]
  rintro ⟨rfl, -⟩
  decide

theorem plain_oneLayer : oneLayer.Plain where
  names _ _ h := ⟨sampleLayer, (target_oneLayer_iff.1 h).1, by decide⟩
  backups _ _ _ _ h h' := by
    rw [(target_oneLayer_iff.1 h).2, (target_oneLayer_iff.1 h').2]
    exact (backup_ne _).symm

/-- The matrix of ones. -/
def sampleWeight : Tensor := ⟨[128, 128], "BF16", fun _ _ => 1⟩

theorem tensor?_oneLayer :
    oneLayer.tensor? "model.safetensors" (sampleLayer ++ str ".weight") = some sampleWeight := rfl

theorem converts_oneLayer :
    oneLayer.Converts "model.safetensors" (sampleLayer ++ str ".weight") sampleWeight :=
  ⟨target_oneLayer_iff.2 ⟨rfl, rfl⟩, tensor?_oneLayer, 128, 128, rfl, by decide, by decide⟩

/-- What the conversion of the sample leaves. -/
def oneLayerConverted : CheckpointDir × ℚ := (convert oneLayer).toOption.getD (oneLayer, 0)

theorem convert_oneLayer : convert oneLayer = .ok oneLayerConverted := rfl

theorem reads_back_oneLayer : ∃ q s,
    oneLayerConverted.1.tensor? "model.safetensors" (sampleLayer ++ str ".weight") = some q ∧
      oneLayerConverted.1.tensor? "model.safetensors" (sampleLayer ++ str ".weight_scale_inv") =
        some s ∧
      |q.data 0 5 * s.data (0 / 128) (5 / 128) - 1| ≤ absmax (fun _ _ => 1) 0 0 / 28 := by
  obtain ⟨q, s, hq, hs, -, -, -, -, hnumbers⟩ :=
    (reads_back plain_oneLayer convert_oneLayer).1 _ _ _ converts_oneLayer
  exact ⟨q, s, hq, hs, hnumbers 0 5⟩

theorem one_le_amax {l : List (Nat × Nat)} (h : (0, 0) ∈ l) : 1 ≤ amax sampleWeight.data l := by
  have hle := le_amax (w := sampleWeight.data) h
  simpa [sampleWeight] using hle

theorem main_of_notTiny_oneLayer : main oneLayer = .ok oneLayerConverted.1 := by
  refine (main_of_notTiny plain_oneLayer fun file name w hw => .inr ?_).trans rfl
  obtain ⟨rfl, rfl⟩ := target_oneLayer_iff.1 hw.1
  obtain rfl := Option.some.inj (tensor?_oneLayer.symm.trans hw.2.1)
  exact le_trans (by norm_num) (one_le_amax (mem_cells.2 (by decide)))

theorem scan_convert_oneLayer :
    sampleLayer ∈ scanFp8Layers (oneLayerConverted.1.metadata [str "model.safetensors"]) := by
  refine (scan_convert plain_oneLayer convert_oneLayer (fun _ _ ht => ?_) (fun _ hf _ _ ht => ?_)
    sampleLayer).2 (.inl ⟨_, _, converts_oneLayer⟩)
  · rw [(target_oneLayer_iff.1 ht).2]
    exact List.mem_singleton_self _
  · rw [(target_oneLayer_iff.1 ht).2, List.mem_singleton.1 hf]
    exact (backup_ne _).symm

theorem convert_twice_oneLayer : ∃ dir'' worst, convert oneLayerConverted.1 = .ok (dir'', worst) ∧
    ∃ s, dir''.tensor? "model.safetensors" (sampleLayer ++ str ".weight_scale_inv") = some s ∧
      s.data 0 0 = 1 := by
  obtain ⟨dir'', worst, h⟩ : ∃ dir'' worst, convert oneLayerConverted.1 = .ok (dir'', worst) :=
    ⟨_, _, rfl⟩
  obtain ⟨-, q, s, -, hs, hone⟩ := convert_twice plain_oneLayer convert_oneLayer h converts_oneLayer
  have hlarge : 1e-12 ≤ amax sampleWeight.data (blockCells (0 / 128) (0 / 128)) :=
    le_trans (by norm_num) (one_le_amax (mem_blockCells.2 ⟨rfl, rfl⟩))
  exact ⟨dir'', worst, h, s, hs, (hone 0 0 hlarge).1⟩

theorem indexed_of_convert_oneLayer :
    oneLayerConverted.1.Indexed [str "model.safetensors"] := by
  refine indexed_of_convert plain_oneLayer convert_oneLayer (fun file name => ?_)
    (fun _ hf _ _ ht => ?_) (fun _ _ ht _ h => ?_)
  · rw [lookup_oneLayer_iff, List.mem_singleton, and_comm, and_congr_right_iff]
    rintro rfl
    rw [Option.isSome_iff_exists]
    simp only [tensor?, oneLayer, if_true, Option.bind_some, lookup_singleton_iff,
      exists_and_left, exists_eq, and_true]
  · rw [(target_oneLayer_iff.1 ht).2, List.mem_singleton.1 hf]
    exact (backup_ne _).symm
  · rw [(target_oneLayer_iff.1 ht).2, (lookup_oneLayer_iff.1 h).2]

end CheckpointDir

end FlashNext.Quant
