import Mathlib.Data.List.AList
import Mathlib.Data.List.Dedup
import Mathlib.Data.List.Infix
import FlashNext.Returns
import FlashNext.Quant.BlockQuant
import FlashNext.Safetensors

/-!
# The conversion of a checkpoint

`fp8_convert.py`: the dense layers of a checkpoint that the expression `TARGETS` selects
are rewritten in blocks of E4M3 numbers, shard by shard, each with its scales as a tensor
of their own, and the index gets the names of these.

`convert_spec`: what a conversion leaves of every tensor, of the index and of the files.

Dicts are maps, of which the order is not modelled: no result depends on it.
-/

namespace FlashNext.Quant

open Python Safetensors

/-! ## Names -/

/-- The modules of `TARGETS`. -/
def targetModules : List String :=
  ["linear_attn.in_proj_qkv", "linear_attn.in_proj_z", "linear_attn.out_proj", "self_attn.q_proj",
    "self_attn.k_proj", "self_attn.v_proj", "self_attn.o_proj", "mlp.shared_expert.gate_proj",
    "mlp.shared_expert.up_proj", "mlp.shared_expert.down_proj"]

/-- `TARGETS.search(name)`: nothing is said of what comes before `model`, and the `$` matches
    before a newline at the end, too. -/
def isTarget (name : Str) : Bool :=
  let name := if name.getLast? = some 10 then name.dropLast else name
  targetModules.any fun target =>
    match stripSuffix? name (str ("." ++ target ++ ".weight")) with
    | none => false
    | some rest =>
      let digits := (rest.reverse.takeWhile fun c => (digitVal c).isSome).reverse
      digits ≠ [] &&
        (str "model.language_model.layers.").isSuffixOf (rest.take (rest.length - digits.length))

/-- `s.replace(old, new)`, with characters of an occurrence left to skip. -/
def replaceFrom (old new : Str) : Nat → Str → Str
  | _, [] => []
  | skip + 1, _ :: s => replaceFrom old new skip s
  | 0, c :: s =>
    if old.isPrefixOf (c :: s) then new ++ replaceFrom old new (old.length - 1) s
    else c :: replaceFrom old new 0 s

/-- `name.replace(".weight", ".weight_scale_inv")`. -/
def scaleName (name : Str) : Str := replaceFrom ".weight" ".weight_scale_inv" 0 name

/-! ## Checkpoints -/

/-- A tensor, with the numbers of a matrix by row and column. -/
structure Tensor where
  shape : List Nat
  dtype : Str
  data : Matrix128

/-- A dict with names as keys. -/
abbrev Dict (V : Type) := AList fun _ : Str => V

/-- A checkpoint, with its files by name. -/
structure CheckpointDir where
  weightMap : Dict Str
  files : Str → Option (Dict Tensor)

/-- What a conversion raises. -/
inductive ConvertErr
  | fileNotFound (file : Str)
  | keyError (name : Str)
  | indexError
  | valueError
  | runtimeError
  | assertionError
  deriving DecidableEq

namespace Tensor

variable (w : Tensor)

/-- The tensor is converted: a matrix of blocks. -/
def Blocks : Prop := ∃ rows columns, w.shape = [rows, columns] ∧ 128 ∣ rows ∧ 128 ∣ columns

/-- The tensor of the codes. -/
def quantized : Tensor := ⟨w.shape, "F8_E4M3", codeNumbers w.data⟩

/-- The tensor of the scales. -/
def scales : Tensor := ⟨w.shape.map (· / 128), "F32", blockScale w.data⟩

/-- The greatest number of a matrix. -/
def greatest : ℚ := amax w.data (cells (w.shape.getD 0 0) (w.shape.getD 1 0))

end Tensor

/-- `tensors`, `wm` and `worst`. -/
structure Converting where
  tensors : Dict Tensor
  weightMap : Dict Str
  worst : ℚ

/-- The conversion of one tensor of a shard. The ratio of a matrix of zeros is not a number,
    which leaves `worst` as it is. -/
def convertTensor (file : Str) (st : Converting) (name : Str) : Except ConvertErr Converting :=
  match st.tensors.lookup name with
  | none => .error (.keyError name)
  | some w =>
    let rest := st.tensors.erase name
    let skip : Except ConvertErr Converting := .ok { st with tensors := rest.insert name w }
    match w.shape with
    | [] => .error .indexError
    | rows :: dims =>
      if rows % 128 ≠ 0 then skip
      else match dims with
      | [] => .error .indexError
      | columns :: dims =>
        if columns % 128 ≠ 0 then skip
        else if dims ≠ [] then .error .valueError
        else if rows = 0 ∨ columns = 0 then .error .runtimeError
        else .ok
          { tensors := (rest.insert name w.quantized).insert (scaleName name) w.scales
            weightMap := st.weightMap.insert (scaleName name) file
            worst := max st.worst (rel rows columns w.data) }

/-- The conversion of a shard. -/
def convertFile (st : CheckpointDir × ℚ) (x : Str × List Str) :
    Except ConvertErr (CheckpointDir × ℚ) :=
  match st.1.files x.1 with
  | none => .error (.fileNotFound x.1)
  | some tensors =>
    (x.2.foldlM (convertTensor x.1) ⟨tensors, st.1.weightMap, st.2⟩).map fun r =>
      let moved := Function.update st.1.files (x.1 ++ str ".bf16.bak") (some tensors)
      (⟨r.weightMap, Function.update moved x.1 (some r.tensors)⟩, r.worst)

/-- `targets`. -/
def CheckpointDir.targets (dir : CheckpointDir) : List (Str × Str) :=
  (dir.weightMap.entries.map fun e => (e.1, e.2)).filter fun e => isTarget e.1

/-- `by_file`, sorted. -/
def CheckpointDir.byFile (dir : CheckpointDir) : List (Str × List Str) :=
  (sortedNames (dir.targets.map (·.2))).map fun file =>
    (file, (dir.targets.filter (·.2 = file)).map (·.1))

/-- The checkpoint that a conversion leaves, and `worst`. -/
def convert (dir : CheckpointDir) : Except ConvertErr (CheckpointDir × ℚ) :=
  dir.byFile.foldlM convertFile (dir, 0)

/-- `main`. Its last check is made when all is written. -/
def main (dir : CheckpointDir) : Except ConvertErr CheckpointDir :=
  (convert dir).bind fun r => if r.2 < 0.10 then .ok r.1 else .error .assertionError

/-! ## Names of scales -/

/-- A text without a dot behind its start occurs at the end of a name, if nowhere before. -/
theorem replaceFrom_append (old new : Str) (hold : old ≠ [])
    (hborder : ∀ s ∈ old.inits, s ≠ [] → s ≠ old → ¬old <+: s ++ old) :
    ∀ stem : Str, ¬old <:+: stem → replaceFrom old new 0 (stem ++ old) = stem ++ new
  | [], _ => by
    obtain ⟨c, rest, rfl⟩ := List.exists_cons_of_ne_nil hold
    have hskip : ∀ s : Str, replaceFrom (c :: rest) new s.length s = [] := fun s => by
      induction s with
      | nil => rfl
      | cons c s ih => exact ih
    have hprefix : (c :: rest).isPrefixOf (c :: rest) = true :=
      List.isPrefixOf_iff_prefix.2 (List.prefix_refl _)
    rw [List.nil_append, replaceFrom, if_pos hprefix, List.length_cons, Nat.add_sub_cancel, hskip,
      List.append_nil, List.nil_append]
  | c :: stem, hstem => by
    have hnot : ¬old.isPrefixOf (c :: (stem ++ old)) = true := by
      rw [List.isPrefixOf_iff_prefix]
      intro hprefix
      -- An occurrence at the start ends in the stem, or the stem ends in it.
      rcases List.prefix_or_prefix_of_prefix hprefix (List.prefix_append (c :: stem) old) with h | h
      · exact hstem h.isInfix
      · refine hborder _ ((List.mem_inits _ _).2 h) (List.cons_ne_nil _ _) (fun heq => ?_) hprefix
        exact hstem (heq ▸ List.infix_refl _)
    rw [List.cons_append, replaceFrom, if_neg hnot,
      replaceFrom_append old new hold hborder stem
        fun h => hstem (h.trans (List.suffix_cons _ _).isInfix),
      List.cons_append]

/-- The name of the scales of a weight. -/
theorem scaleName_append {stem : Str} (h : ¬str ".weight" <:+: stem) :
    scaleName (stem ++ str ".weight") = stem ++ str ".weight_scale_inv" :=
  replaceFrom_append _ _ (by decide) (by decide) stem h

/-- A name that ends with its only `.weight`. -/
def PlainName (name : Str) : Prop :=
  ∃ stem, name = stem ++ str ".weight" ∧ ¬str ".weight" <:+: stem

theorem scaleName_inj {n n' : Str} (h : PlainName n) (h' : PlainName n')
    (heq : scaleName n = scaleName n') : n = n' := by
  obtain ⟨stem, rfl, hstem⟩ := h
  obtain ⟨stem', rfl, hstem'⟩ := h'
  rw [scaleName_append hstem, scaleName_append hstem'] at heq
  rw [List.append_cancel_right heq]

/-- The name of scales is not that of a weight. -/
theorem scaleName_ne {n n' : Str} (h : PlainName n) (h' : PlainName n') : scaleName n ≠ n' := by
  obtain ⟨stem, rfl, hstem⟩ := h
  obtain ⟨stem', rfl, -⟩ := h'
  intro heq
  have hlast := congrArg List.getLast? heq
  rw [scaleName_append hstem, List.getLast?_append, List.getLast?_append] at hlast
  cases hlast

/-! ## Shards -/

section Shard

variable {file name n : Str} {names : List Str} {st st' : Converting}

/-- What the conversion of a tensor can do. -/
theorem convertTensor_cases (h : convertTensor file st name = .ok st') :
    ∃ w, st.tensors.lookup name = some w ∧
      (¬w.Blocks ∧ st' = { st with tensors := (st.tensors.erase name).insert name w } ∨
      w.Blocks ∧ st' =
        { tensors :=
            ((st.tensors.erase name).insert name w.quantized).insert (scaleName name) w.scales
          weightMap := st.weightMap.insert (scaleName name) file
          worst := max st.worst (rel (w.shape.getD 0 0) (w.shape.getD 1 0) w.data) }) := by
  rw [convertTensor] at h
  cases hw : st.tensors.lookup name with
  | none => simp [hw] at h
  | some w =>
    refine ⟨w, rfl, ?_⟩
    simp only [hw] at h
    rcases hshape : w.shape with - | ⟨rows, - | ⟨columns, dims⟩⟩ <;> simp only [hshape] at h
    · cases h
    · split_ifs at h with hrows
      refine .inl ⟨?_, (Except.ok.inj h).symm⟩
      rintro ⟨_, _, heq, -⟩
      simp [hshape] at heq
    · split_ifs at h with hrows hcolumns hdims hempty
      · refine .inl ⟨?_, (Except.ok.inj h).symm⟩
        rintro ⟨_, _, heq, hdvd, -⟩
        obtain ⟨rfl, -⟩ := List.cons.inj (hshape.symm.trans heq)
        exact hrows (Nat.mod_eq_zero_of_dvd hdvd)
      · refine .inl ⟨?_, (Except.ok.inj h).symm⟩
        rintro ⟨_, _, heq, -, hdvd⟩
        obtain ⟨rfl, -⟩ := List.cons.inj (List.cons.inj (hshape.symm.trans heq)).2
        exact hcolumns (Nat.mod_eq_zero_of_dvd hdvd)
      · refine .inr ⟨⟨rows, columns, ?_, ?_, ?_⟩, (Except.ok.inj h).symm⟩
        · rw [hshape, not_not.1 hdims]
        · exact Nat.dvd_of_mod_eq_zero (not_not.1 hrows)
        · exact Nat.dvd_of_mod_eq_zero (not_not.1 hcolumns)

/-- What the conversion of some tensors of a shard leaves. -/
structure Converted (file : Str) (names : List Str) (tensors tensors' : Dict Tensor)
    (weightMap weightMap' : Dict Str) : Prop where
  found : ∀ n ∈ names, ∃ w, tensors.lookup n = some w
  target : ∀ n ∈ names, ∀ w, tensors.lookup n = some w → w.Blocks →
    tensors'.lookup n = some w.quantized ∧ tensors'.lookup (scaleName n) = some w.scales ∧
      weightMap'.lookup (scaleName n) = some file
  tensor : ∀ n, (∀ m ∈ names, ∀ w, tensors.lookup m = some w → w.Blocks →
    n ≠ m ∧ n ≠ scaleName m) → tensors'.lookup n = tensors.lookup n
  index : ∀ n, (∀ m ∈ names, ∀ w, tensors.lookup m = some w → w.Blocks → n ≠ scaleName m) →
    weightMap'.lookup n = weightMap.lookup n

/-- A tensor that is taken out and put back, maybe as another one. -/
theorem lookup_replace (tensors : Dict Tensor) (w : Tensor) (hne : n ≠ name) :
    ((tensors.erase name).insert name w).lookup n = tensors.lookup n := by
  rw [AList.lookup_insert_ne hne, AList.lookup_erase_ne hne]

/-- What the conversion of one tensor leaves. -/
theorem converted_tensor (hname : PlainName name) (h : convertTensor file st name = .ok st') :
    Converted file [name] st.tensors st'.tensors st.weightMap st'.weightMap := by
  obtain ⟨w, hw, ⟨hblocks, rfl⟩ | ⟨hblocks, rfl⟩⟩ := convertTensor_cases h
  · -- The tensor is skipped.
    have hsame : ∀ n, ((st.tensors.erase name).insert name w).lookup n = st.tensors.lookup n := by
      intro n
      by_cases hne : n = name
      · rw [hne, AList.lookup_insert, hw]
      · exact lookup_replace _ w hne
    refine ⟨?_, ?_, fun n _ => hsame n, fun _ _ => rfl⟩
    · exact List.forall_mem_singleton.2 ⟨w, hw⟩
    · refine List.forall_mem_singleton.2 fun v hv hblocks' => ?_
      rw [hw] at hv
      cases hv
      exact absurd hblocks' hblocks
  · have hne : name ≠ scaleName name := (scaleName_ne hname hname).symm
    refine ⟨?_, ?_, fun n hn => ?_, fun n hn => ?_⟩
    · exact List.forall_mem_singleton.2 ⟨w, hw⟩
    · refine List.forall_mem_singleton.2 fun v hv _ => ?_
      rw [hw] at hv
      cases hv
      refine ⟨?_, AList.lookup_insert _, AList.lookup_insert _⟩
      rw [AList.lookup_insert_ne hne, AList.lookup_insert]
    · obtain ⟨hn, hscale⟩ := List.forall_mem_singleton.1 hn w hw hblocks
      rw [AList.lookup_insert_ne hscale, lookup_replace _ _ hn]
    · exact AList.lookup_insert_ne (List.forall_mem_singleton.1 hn w hw hblocks)

/-- Conversions of different tensors, one after the other. -/
theorem Converted.trans {names' : List Str} {t t₁ t₂ : Dict Tensor} {wm wm₁ wm₂ : Dict Str}
    (h : Converted file names t t₁ wm wm₁) (h' : Converted file names' t₁ t₂ wm₁ wm₂)
    (hplain : ∀ n ∈ names, PlainName n) (hplain' : ∀ n ∈ names', PlainName n)
    (hdisj : ∀ n ∈ names, n ∉ names') : Converted file (names ++ names') t t₂ wm wm₂ := by
  -- The first conversion leaves the tensors of the second one.
  have hlater : ∀ n ∈ names', t₁.lookup n = t.lookup n := fun n hn => h.tensor n fun m hm _ _ _ =>
    ⟨fun heq => hdisj m hm (heq ▸ hn), (scaleName_ne (hplain m hm) (hplain' n hn)).symm⟩
  have hne : ∀ n ∈ names, ∀ m ∈ names', scaleName n ≠ scaleName m := fun n hn m hm heq =>
    hdisj n hn (scaleName_inj (hplain n hn) (hplain' m hm) heq ▸ hm)
  refine ⟨fun n hn => ?_, fun n hn w hw hblocks => ?_, fun n hn => ?_, fun n hn => ?_⟩
  · rcases List.mem_append.1 hn with hn | hn
    · exact h.found n hn
    · exact hlater n hn ▸ h'.found n hn
  · rcases List.mem_append.1 hn with hn | hn
    · obtain ⟨hweight, hscale, hindex⟩ := h.target n hn w hw hblocks
      refine ⟨?_, ?_, ?_⟩
      · rw [h'.tensor n fun m hm _ _ _ => ⟨fun heq => hdisj n hn (heq ▸ hm),
          (scaleName_ne (hplain' m hm) (hplain n hn)).symm⟩, hweight]
      · rw [h'.tensor _ fun m hm _ _ _ => ⟨scaleName_ne (hplain n hn) (hplain' m hm),
          hne n hn m hm⟩, hscale]
      · rw [h'.index _ fun m hm _ _ _ => hne n hn m hm, hindex]
    · exact h'.target n hn w ((hlater n hn).trans hw) hblocks
  · rw [h'.tensor n fun m hm w hw => hn m (List.mem_append_right _ hm) w (hlater m hm ▸ hw)]
    exact h.tensor n fun m hm => hn m (List.mem_append_left _ hm)
  · rw [h'.index n fun m hm w hw => hn m (List.mem_append_right _ hm) w (hlater m hm ▸ hw)]
    exact h.index n fun m hm => hn m (List.mem_append_left _ hm)

/-- What the conversion of a shard leaves, if no two names of it are the same. -/
theorem converted_of_ok (hnames : ∀ n ∈ names, PlainName n) (hnodup : names.Nodup)
    (h : names.foldlM (convertTensor file) st = .ok st') :
    Converted file names st.tensors st'.tensors st.weightMap st'.weightMap := by
  induction names generalizing st with
  | nil =>
    cases Except.ok.inj h
    exact ⟨fun _ hn => (by cases hn), fun _ hn => (by cases hn), fun _ _ => rfl, fun _ _ => rfl⟩
  | cons m names ih =>
    rw [List.foldlM_cons] at h
    obtain ⟨st₁, hstep, hrest⟩ := bind_eq_ok.1 h
    rw [List.forall_mem_cons] at hnames
    rw [List.nodup_cons] at hnodup
    refine (converted_tensor hnames.1 hstep).trans (ih hnames.2 hnodup.2 hrest) ?_ hnames.2 ?_
    · exact List.forall_mem_singleton.2 hnames.1
    · exact List.forall_mem_singleton.2 hnodup.1

end Shard

/-! ## All shards -/

/-- A tensor of a file. -/
def CheckpointDir.tensor? (dir : CheckpointDir) (file name : Str) : Option Tensor :=
  (dir.files file).bind fun tensors => tensors.lookup name

/-- The name that a file is moved to. -/
def backup (file : Str) : Str := file ++ str ".bf16.bak"

/-- The names of some files are plain and all different, and no file is the backup of another
    one. -/
structure Separate (l : List (Str × List Str)) : Prop where
  names : ∀ x ∈ l, ∀ n ∈ x.2, PlainName n
  nodup : ∀ x ∈ l, x.2.Nodup
  backups : ∀ x ∈ l, ∀ y ∈ l, x.1 ≠ backup y.1
  apart : l.Pairwise fun x y => x.1 ≠ y.1 ∧ ∀ n ∈ x.2, n ∉ y.2

theorem Separate.head {x : Str × List Str} {l : List (Str × List Str)} (h : Separate (x :: l)) :
    Separate [x] := by
  have hmem : ∀ y ∈ [x], y ∈ x :: l := fun y hy => by
    rw [List.mem_singleton.1 hy]
    exact List.mem_cons_self
  exact ⟨fun y hy => h.names y (hmem y hy), fun y hy => h.nodup y (hmem y hy),
    fun y hy z hz => h.backups y (hmem y hy) z (hmem z hz), List.pairwise_singleton _ _⟩

theorem Separate.tail {x : Str × List Str} {l : List (Str × List Str)} (h : Separate (x :: l)) :
    Separate l := by
  have hmem : ∀ y ∈ l, y ∈ x :: l := fun y hy => List.mem_cons_of_mem x hy
  exact ⟨fun y hy => h.names y (hmem y hy), fun y hy => h.nodup y (hmem y hy),
    fun y hy z hz => h.backups y (hmem y hy) z (hmem z hz), h.apart.of_cons⟩

/-- What the conversion of some files leaves. -/
structure ConvertedFiles (l : List (Str × List Str)) (dir dir' : CheckpointDir) : Prop where
  found : ∀ x ∈ l, ∀ n ∈ x.2, ∃ w, dir.tensor? x.1 n = some w
  target : ∀ x ∈ l, ∀ n ∈ x.2, ∀ w, dir.tensor? x.1 n = some w → w.Blocks →
    dir'.tensor? x.1 n = some w.quantized ∧ dir'.tensor? x.1 (scaleName n) = some w.scales ∧
      dir'.weightMap.lookup (scaleName n) = some x.1
  tensor : ∀ file n, (∀ x ∈ l, file ≠ backup x.1) →
    (∀ x ∈ l, x.1 = file → ∀ m ∈ x.2, ∀ w, dir.tensor? file m = some w → w.Blocks →
      n ≠ m ∧ n ≠ scaleName m) → dir'.tensor? file n = dir.tensor? file n
  index : ∀ n, (∀ x ∈ l, ∀ m ∈ x.2, ∀ w, dir.tensor? x.1 m = some w → w.Blocks →
    n ≠ scaleName m) → dir'.weightMap.lookup n = dir.weightMap.lookup n
  backup : ∀ x ∈ l, dir'.files (backup x.1) = dir.files x.1
  frame : ∀ file, (∀ x ∈ l, file ≠ x.1 ∧ file ≠ Quant.backup x.1) → dir'.files file = dir.files file

section Files

variable {x : Str × List Str} {l : List (Str × List Str)} {st st' : CheckpointDir × ℚ}
  {dir dir₁ dir₂ : CheckpointDir}

theorem backup_ne (file : Str) : backup file ≠ file := by
  intro h
  rw [backup, List.append_right_eq_self] at h
  cases h

/-- What the conversion of a file does with the files. -/
theorem convertFile_eq_ok (h : convertFile st x = .ok st') : ∃ tensors r,
    st.1.files x.1 = some tensors ∧
    x.2.foldlM (convertTensor x.1) ⟨tensors, st.1.weightMap, st.2⟩ = .ok r ∧
    st'.1.weightMap = r.weightMap ∧ st'.2 = r.worst ∧
    st'.1.files x.1 = some r.tensors ∧ st'.1.files (backup x.1) = some tensors ∧
    ∀ file, file ≠ x.1 → file ≠ backup x.1 → st'.1.files file = st.1.files file := by
  rw [convertFile] at h
  cases htensors : st.1.files x.1 with
  | none => simp [htensors] at h
  | some tensors =>
    simp only [htensors] at h
    cases hr : x.2.foldlM (convertTensor x.1) ⟨tensors, st.1.weightMap, st.2⟩ with
    | error e => simp [hr, Except.map] at h
    | ok r =>
      simp only [hr, Except.map] at h
      obtain rfl := Except.ok.inj h
      refine ⟨tensors, r, rfl, hr, rfl, rfl, Function.update_self _ _ _, ?_,
        fun file hne hbak => ?_⟩
      · exact (Function.update_of_ne (backup_ne x.1) _ _).trans (Function.update_self _ _ _)
      · exact (Function.update_of_ne hne _ _).trans (Function.update_of_ne hbak _ _)

/-- What the conversion of one file leaves. -/
theorem convertedFiles_file (hx : Separate [x]) (h : convertFile st x = .ok st') :
    ConvertedFiles [x] st.1 st'.1 := by
  obtain ⟨tensors, r, htensors, hr, hindex, -, hfile, hbackup, hframe⟩ := convertFile_eq_ok h
  obtain ⟨hnames, hnodup, -, -⟩ := hx
  rw [List.forall_mem_singleton] at hnames hnodup
  have hconv := converted_of_ok hnames hnodup hr
  have hold : ∀ n, st.1.tensor? x.1 n = tensors.lookup n := fun n => by
    rw [CheckpointDir.tensor?, htensors, Option.bind_some]
  have hnew : ∀ n, st'.1.tensor? x.1 n = r.tensors.lookup n := fun n => by
    rw [CheckpointDir.tensor?, hfile, Option.bind_some]
  refine ⟨?_, ?_, fun file n hbak hn => ?_, fun n hn => ?_, ?_, fun file hfile => ?_⟩
  · exact List.forall_mem_singleton.2 fun n hn => hold n ▸ hconv.found n hn
  · refine List.forall_mem_singleton.2 fun n hn w hw hblocks => ?_
    rw [hnew, hnew, hindex]
    exact hconv.target n hn w (hold n ▸ hw) hblocks
  · by_cases heq : file = x.1
    · subst heq
      rw [hold, hnew]
      exact hconv.tensor n fun m hm w hw =>
        List.forall_mem_singleton.1 hn rfl m hm w ((hold m).trans hw)
    · rw [CheckpointDir.tensor?, CheckpointDir.tensor?,
        hframe file heq (hbak x (List.mem_singleton_self x))]
  · rw [hindex]
    exact hconv.index n fun m hm w hw => List.forall_mem_singleton.1 hn m hm w ((hold m).trans hw)
  · exact List.forall_mem_singleton.2 (hbackup.trans htensors.symm)
  · obtain ⟨hne, hbak⟩ := List.forall_mem_singleton.1 hfile
    exact hframe file hne hbak

/-- The conversion of a file, and then of others. -/
theorem ConvertedFiles.cons (h : ConvertedFiles [x] dir dir₁) (h' : ConvertedFiles l dir₁ dir₂)
    (hsep : Separate (x :: l)) : ConvertedFiles (x :: l) dir dir₂ := by
  obtain ⟨hnames, -, hbackups, hapart⟩ := hsep
  rw [List.pairwise_cons] at hapart
  rw [List.forall_mem_cons] at hnames
  have hx : x ∈ x :: l := List.mem_cons_self
  have hmem : ∀ {y}, y ∈ l → y ∈ x :: l := List.mem_cons_of_mem x
  -- The first file is left alone later, and the others before.
  have hlater : ∀ y ∈ l, ∀ n, dir₁.tensor? y.1 n = dir.tensor? y.1 n := fun y hy n =>
    h.tensor y.1 n (List.forall_mem_singleton.2 (hbackups y (hmem hy) x hx))
      (List.forall_mem_singleton.2 fun heq => absurd heq (hapart.1 y hy).1)
  have hfirst : ∀ n, dir₂.tensor? x.1 n = dir₁.tensor? x.1 n := fun n =>
    h'.tensor x.1 n (fun y hy => hbackups x hx y (hmem hy))
      fun y hy heq => absurd heq.symm (hapart.1 y hy).1
  refine ⟨?_, ?_, fun file n hbak hn => ?_, fun n hn => ?_, ?_, fun file hfile => ?_⟩
  · refine List.forall_mem_cons.2 ⟨List.forall_mem_singleton.1 h.found, fun y hy n hn => ?_⟩
    exact hlater y hy n ▸ h'.found y hy n hn
  · refine List.forall_mem_cons.2 ⟨fun n hn w hw hblocks => ?_, fun y hy n hn w hw hblocks => ?_⟩
    · obtain ⟨hweight, hscale, hindex⟩ := List.forall_mem_singleton.1 h.target n hn w hw hblocks
      refine ⟨(hfirst n).trans hweight, (hfirst _).trans hscale, ?_⟩
      refine (h'.index _ fun y hy m hm _ _ _ heq => ?_).trans hindex
      obtain rfl := scaleName_inj (hnames.1 n hn) (hnames.2 y hy m hm) heq
      exact (hapart.1 y hy).2 n hn hm
    · exact h'.target y hy n hn w ((hlater y hy n).trans hw) hblocks
  · rw [List.forall_mem_cons] at hbak hn
    rw [h'.tensor file n hbak.2 fun y hy heq m hm w hw =>
      hn.2 y hy heq m hm w (heq ▸ (hlater y hy m).symm.trans (heq ▸ hw))]
    exact h.tensor file n (List.forall_mem_singleton.2 hbak.1) (List.forall_mem_singleton.2 hn.1)
  · rw [List.forall_mem_cons] at hn
    rw [h'.index n fun y hy m hm w hw => hn.2 y hy m hm w ((hlater y hy m).symm.trans hw)]
    exact h.index n (List.forall_mem_singleton.2 hn.1)
  · refine List.forall_mem_cons.2 ⟨?_, fun y hy => ?_⟩
    · rw [h'.frame _ fun y hy => ⟨(hbackups y (hmem hy) x hx).symm, fun heq =>
        (hapart.1 y hy).1 (List.append_cancel_right heq)⟩, List.forall_mem_singleton.1 h.backup]
    · rw [h'.backup y hy, h.frame y.1 (List.forall_mem_singleton.2
        ⟨(hapart.1 y hy).1.symm, hbackups y (hmem hy) x hx⟩)]
  · rw [List.forall_mem_cons] at hfile
    rw [h'.frame file hfile.2, h.frame file (List.forall_mem_singleton.2 hfile.1)]

/-- What the conversion of separate files leaves. -/
theorem convertedFiles_of_ok (hsep : Separate l) (h : l.foldlM convertFile st = .ok st') :
    ConvertedFiles l st.1 st'.1 := by
  induction l generalizing st with
  | nil =>
    cases Except.ok.inj h
    exact ⟨fun _ hx => (by cases hx), fun _ hx => (by cases hx), fun _ _ _ _ => rfl, fun _ _ => rfl,
      fun _ hx => (by cases hx), fun _ _ => rfl⟩
  | cons x l ih =>
    rw [List.foldlM_cons] at h
    obtain ⟨st₁, hfile, hrest⟩ := bind_eq_ok.1 h
    exact (convertedFiles_file hsep.head hfile).cons (ih hsep.tail hrest) hsep

end Files

/-! ## Directories -/

namespace CheckpointDir

variable (dir : CheckpointDir)

/-- A weight that the index has in a file, and that `TARGETS` selects. -/
def Target (file name : Str) : Prop :=
  dir.weightMap.lookup name = some file ∧ isTarget name = true

/-- A weight that is converted. -/
def Converts (file name : Str) (w : Tensor) : Prop :=
  dir.Target file name ∧ dir.tensor? file name = some w ∧ w.Blocks

/-- The names that are selected end with their only `.weight`, and no file of them is the
    backup of another one. -/
structure Plain : Prop where
  names : ∀ file name, dir.Target file name → PlainName name
  backups : ∀ file name file' name', dir.Target file name → dir.Target file' name' →
    file ≠ backup file'

variable {dir} {dir' : CheckpointDir} {worst : ℚ}

theorem mem_targets {name file : Str} : (name, file) ∈ dir.targets ↔ dir.Target file name := by
  rw [targets, List.mem_filter, Target]
  refine and_congr_left fun _ => ?_
  rw [← Option.mem_def, AList.mem_lookup_iff, List.mem_map]
  constructor
  · rintro ⟨⟨name', file'⟩, he, heq⟩
    obtain ⟨rfl, rfl⟩ := Prod.mk.inj heq
    exact he
  · exact fun he => ⟨⟨name, file⟩, he, rfl⟩

theorem mem_byFile {x : Str × List Str} : x ∈ dir.byFile ↔
    (∃ name, dir.Target x.1 name) ∧ x.2 = (dir.targets.filter (·.2 = x.1)).map (·.1) := by
  simp only [byFile, sortedNames, List.mem_map, List.mem_insertionSort, List.mem_dedup]
  constructor
  · rintro ⟨file, ⟨⟨name, file'⟩, hmem, rfl⟩, rfl⟩
    exact ⟨⟨name, mem_targets.1 hmem⟩, rfl⟩
  · rintro ⟨⟨name, htarget⟩, hnames⟩
    exact ⟨x.1, ⟨(name, x.1), mem_targets.2 htarget, rfl⟩, Prod.ext rfl hnames.symm⟩

theorem mem_names {x : Str × List Str} (hx : x ∈ dir.byFile) {name : Str} :
    name ∈ x.2 ↔ dir.Target x.1 name := by
  rw [(mem_byFile.1 hx).2, List.mem_map, ← mem_targets]
  constructor
  · rintro ⟨⟨name', file⟩, hmem, rfl⟩
    obtain ⟨hmem, hfile⟩ := List.mem_filter.1 hmem
    exact of_decide_eq_true hfile ▸ hmem
  · exact fun hmem => ⟨(name, x.1), List.mem_filter.2 ⟨hmem, decide_eq_true rfl⟩, rfl⟩

/-- A target has a file that is converted. -/
theorem exists_of_target {file name : Str} (h : dir.Target file name) :
    ∃ x ∈ dir.byFile, x.1 = file ∧ name ∈ x.2 := by
  have hmem : (file, (dir.targets.filter (·.2 = file)).map (·.1)) ∈ dir.byFile :=
    mem_byFile.2 ⟨⟨name, h⟩, rfl⟩
  exact ⟨_, hmem, rfl, (mem_names hmem).2 h⟩

/-- The files of a plain checkpoint are separate. -/
theorem Plain.separate (h : dir.Plain) : Separate dir.byFile := by
  have hnodup : (dir.targets.map (·.1)).Nodup := by
    have hkeys := dir.weightMap.keys_nodup
    refine (List.filter_sublist.map _).nodup ?_
    rwa [List.map_map]
  refine ⟨fun x hx n hn => h.names _ n ((mem_names hx).1 hn), fun x hx => ?_,
    fun x hx y hy => ?_, ?_⟩
  · rw [(mem_byFile.1 hx).2]
    exact (List.filter_sublist.map _).nodup hnodup
  · obtain ⟨name, hname⟩ := (mem_byFile.1 hx).1
    obtain ⟨name', hname'⟩ := (mem_byFile.1 hy).1
    exact h.backups _ _ _ _ hname hname'
  · have hfiles : (sortedNames (dir.targets.map (·.2))).Nodup :=
      (List.perm_insertionSort _ _).nodup_iff.2 (List.nodup_dedup _)
    have hpair : dir.byFile.Pairwise fun x y => x.1 ≠ y.1 := List.pairwise_map.2 hfiles
    refine hpair.imp_of_mem fun hx hy hne => ⟨hne, fun n hn hn' => hne ?_⟩
    exact Option.some.inj (((mem_names hx).1 hn).1.symm.trans ((mem_names hy).1 hn').1)

/-- What a conversion leaves of every tensor, of the index, and of the files. -/
theorem convert_spec (hplain : dir.Plain) (h : convert dir = .ok (dir', worst)) :
    (∀ file name, dir.Target file name → ∃ w, dir.tensor? file name = some w) ∧
    (∀ file name w, dir.Converts file name w → dir'.tensor? file name = some w.quantized ∧
      dir'.tensor? file (scaleName name) = some w.scales ∧
      dir'.weightMap.lookup (scaleName name) = some file) ∧
    (∀ file name, (∀ file' name', dir.Target file' name' → file ≠ backup file') →
      (∀ m w, dir.Converts file m w → name ≠ m ∧ name ≠ scaleName m) →
      dir'.tensor? file name = dir.tensor? file name) ∧
    (∀ name, (∀ file m w, dir.Converts file m w → name ≠ scaleName m) →
      dir'.weightMap.lookup name = dir.weightMap.lookup name) ∧
    ∀ file name, dir.Target file name → dir'.files (backup file) = dir.files file := by
  obtain ⟨hfound, htarget, htensor, hindex, hbackup, -⟩ := convertedFiles_of_ok hplain.separate h
  refine ⟨fun file name ht => ?_, fun file name w ⟨ht, hw, hblocks⟩ => ?_,
    fun file name hbak hn => ?_, fun name hn => ?_, fun file name ht => ?_⟩
  · obtain ⟨x, hx, rfl, hname⟩ := exists_of_target ht
    exact hfound x hx name hname
  · obtain ⟨x, hx, rfl, hname⟩ := exists_of_target ht
    exact htarget x hx name hname w hw hblocks
  · refine htensor file name (fun x hx => ?_) fun x hx heq m hm w hw hblocks => ?_
    · obtain ⟨name', hname'⟩ := (mem_byFile.1 hx).1
      exact hbak x.1 name' hname'
    · exact hn m w ⟨heq ▸ (mem_names hx).1 hm, hw, hblocks⟩
  · exact hindex name fun x hx m hm w hw hblocks =>
      hn x.1 m w ⟨(mem_names hx).1 hm, hw, hblocks⟩
  · obtain ⟨x, hx, rfl, -⟩ := exists_of_target ht
    exact hbackup x hx

end CheckpointDir

end FlashNext.Quant
