import FlashNext.Safetensors
import FlashNext.Quant.Names

/-!
# The quantization of a layer

`_resolve_quant_algo` and `_quantized_layer_group_size` of `modelopt.py`: the entries of
`quantized_layers` that say how a layer is quantized. A layer is looked up under several
names (`prefixCandidates`), in several ways.

* `resolveQuantAlgo_eq`: the first lookup that finds entries decides (`deciding`): the
  algorithm is theirs;
* `mem_of_forall`: two lookups say the same, whatever the entries say, only if they find
  the same entries;
* `firstFound_own_iff`: of names that are looked up one after the other, a given one is
  found if and only if none is before it.
-/

namespace FlashNext.Quant

open Python Safetensors

/-! ## Entries -/

/-- `s.upper()`, of a name in ASCII. -/
def upper (s : Str) : Str := s.map fun c => if 97 ≤ c ∧ c ≤ 122 then c - 32 else c

/-- `int(v)`. -/
def intOfVal : Val → Except Err Int
  | .bool b => .ok (if b then 1 else 0)
  | .int n => .ok n
  | .float (.fin q) => .ok (if 0 ≤ q then ⌊q⌋ else ⌈q⌉)
  | .float (.inf _) => .error .overflowError
  | .float .nan => .error .valueError
  | .str s => int s
  | .none | .list _ | .dict _ => .error .typeError

/-- An entry of `quantized_layers`. -/
structure LayerInfo where
  quantAlgo : Str
  /-- `None` if there is none. -/
  groupSize : Val

/-- `info["quant_algo"].upper()`. -/
def LayerInfo.algo (info : LayerInfo) : Str := upper info.quantAlgo

/-- `int(info.get("group_size") or 0) or None`, and `None` if that is not a number. -/
def LayerInfo.size (info : LayerInfo) : Except Err (Option Int) :=
  match intOfVal (if info.groupSize.truthy then info.groupSize else .int 0) with
  | .ok n => .ok (if n = 0 then none else some n)
  | .error .typeError | .error .valueError => .ok none
  | .error e => .error e

/-- `quantized_layers`, in order. -/
abbrev QuantizedLayers := List (Str × LayerInfo)

namespace QuantizedLayers

variable (q : QuantizedLayers)

/-- The entry of a name. -/
def entry (name : Str) : Option LayerInfo := (q.find? (·.1 = name)).map (·.2)

/-- The first entry whose name starts with the text. -/
def entryUnder (start : Str) : Option LayerInfo := (q.find? (start.isPrefixOf ·.1)).map (·.2)

end QuantizedLayers

/-! ## Names -/

/-- `s.rsplit(".", 1)[0]`. -/
def parent (s : Str) : Str := if 46 ∈ s then (rpartition s).1 else s

/-- `re.match(r"^(.*?mtp\.layers\.)(\d+)(\..*)$", name)`: the three groups. -/
def matchMtp : Str → Option (Str × Str × Str)
  | [] => none
  | c :: s =>
    let rest := (c :: s).drop (str "mtp.layers.").length
    let digits := rest.takeWhile fun c => (digitVal c).isSome
    let post := rest.drop digits.length
    -- The `$` matches before a newline at the end, too.
    let post := if post.getLast? = some 10 then post.dropLast else post
    if (str "mtp.layers.").isPrefixOf (c :: s) ∧ digits ≠ [] ∧ post.head? = some 46 ∧ 10 ∉ post then
      some ("mtp.layers.", digits, post)
    else if c = 10 then none
    else (matchMtp s).map fun m => (c :: m.1, m.2)

/-- `_quantized_layer_prefix_candidates`. -/
def prefixCandidates (name : Str) : List Str :=
  let lmHead := if (str ".lm_head").isSuffixOf name then [str "lm_head"] else []
  let draftLocal :=
    match matchMtp name with
    | some (pre, digits, post) =>
      let k := intOf digits
      ((List.range (min k 8 + 1)).filter (· ≠ k)).map fun j => pre ++ str (toString j) ++ post
    | none => []
  let spelled (first second : Str) := second ++ str "." ++ first ++ str "." ++
    name.drop (first ++ str "." ++ second ++ str ".").length
  let otherSpelling :=
    if (str "language_model.model.").isPrefixOf name then [spelled "language_model" "model"]
    else if (str "model.language_model.").isPrefixOf name then [spelled "model" "language_model"]
    else []
  ([name] ++ lmHead ++ draftLocal ++ otherSpelling).eraseDups

/-! ## Lookups -/

/-- The shards of a layer are quantized in different ways. -/
structure Mixed where
  layer : Str
  algos : List Str

/-- The algorithm of the shards of a layer, if there are entries for them. -/
def fusedAlgo (name : Str) (infos : List LayerInfo) : Except Mixed (Option Str) :=
  match (infos.map LayerInfo.algo).eraseDups with
  | [] => .ok none
  | [algo] => .ok (some algo)
  | algos => .error ⟨name, algos⟩

/-- `fused_projection_shards`. -/
def fusedProjectionShards (proj : Str) : List Str :=
  if proj = str "qkv_proj" then ["q_proj", "k_proj", "v_proj"]
  else if proj = str "gate_up_proj" then ["gate_proj", "up_proj"]
  else []

/-- The answer of the first lookup that has one. -/
def firstAnswer : List (Except Mixed (Option Str)) → Except Mixed (Option Str)
  | [] => .ok none
  | .ok none :: lookups => firstAnswer lookups
  | answer :: _ => answer

section Resolve

variable (q : QuantizedLayers) (packed : Packed) (candidates : Str → List Str) (name : Str)

/-- `_resolve_quant_algo`, for the candidates that are given for a name. -/
def resolveQuantAlgo : Except Mixed (Option Str) :=
  let proj := (rpartition name).2
  firstAnswer <|
    -- 1. Direct lookup
    ((candidates name).map fun c => .ok ((q.entry c).map LayerInfo.algo)) ++
    -- 2. Packed / fused layer lookup
    [fusedAlgo name ((candidates (parent name)).flatMap fun c =>
      ((packed proj).getD []).filterMap fun shard => q.entry (c ++ str "." ++ shard))] ++
    -- 3. Prefix-based lookup
    ((candidates name).map fun c => .ok ((q.entryUnder (c ++ str ".")).map LayerInfo.algo)) ++
    [.ok (((stripSuffix? name ".experts").bind fun p => q.entryUnder (p ++ str ".")).map
      LayerInfo.algo)] ++
    -- 4. Parent-prefix fallback for fused projections
    (candidates name).map fun c => fusedAlgo name ((fusedProjectionShards proj).filterMap
      fun shard => q.entry (parent c ++ str "." ++ shard))

/-- `_quantized_layer_group_size`. -/
def quantizedLayerGroupSize : Except Err (Option Int) :=
  ((candidates name).findSome? fun c => (q.entry c).or (q.entryUnder (c ++ str "."))).elim
    (.ok none) LayerInfo.size

end Resolve

/-! ## The entries that decide -/

section Deciding

variable (keys : List Str) (packed : Packed) (candidates : Str → List Str) (name : Str)

/-- Those of the names that have an entry. -/
def present (names : List Str) : List Str := names.filter (· ∈ keys)

/-- The first name with an entry that starts with the text. -/
def presentUnder (start : Str) : Option Str := keys.find? (start.isPrefixOf ·)

/-- The entries that each lookup of `_resolve_quant_algo` finds, in its order. -/
def found : List (List Str) :=
  let proj := (rpartition name).2
  ((candidates name).map fun c => present keys [c]) ++
  [present keys ((candidates (parent name)).flatMap fun c =>
    ((packed proj).getD []).map fun shard => c ++ str "." ++ shard)] ++
  ((candidates name).map fun c => (presentUnder keys (c ++ str ".")).toList) ++
  [((stripSuffix? name ".experts").bind fun p => presentUnder keys (p ++ str ".")).toList] ++
  (candidates name).map fun c => present keys ((fusedProjectionShards proj).map
    fun shard => parent c ++ str "." ++ shard)

/-- What the first lookup that finds any finds. -/
def firstFound (groups : List (List Str)) : List Str := (groups.find? (· ≠ [])).getD []

/-- The entries that decide on the algorithm. -/
def deciding : List Str := firstFound (found keys packed candidates name)

/-- The entry that decides on the group size. -/
def decidingSize : Option Str :=
  (candidates name).findSome? fun c =>
    (if c ∈ keys then some c else none).or (presentUnder keys (c ++ str "."))

end Deciding

/-- Shards that are quantized in the same way. -/
theorem fusedAlgo_cons {name : Str} {info : LayerInfo} {infos : List LayerInfo}
    (h : ∀ i ∈ infos, i.algo = info.algo) :
    fusedAlgo name (info :: infos) = .ok (some info.algo) := by
  have hfilter : (infos.map LayerInfo.algo).filter (fun a => !a == info.algo) = [] := by
    simpa using h
  rw [fusedAlgo, List.map_cons, List.eraseDups_cons, hfilter, List.eraseDups_nil]

/-- Shards that are quantized in different ways. -/
theorem fusedAlgo_cons_error (name : Str) {info : LayerInfo} {infos : List LayerInfo}
    (h : ¬∀ i ∈ infos, i.algo = info.algo) : ∃ e, fusedAlgo name (info :: infos) = .error e := by
  have hfilter : (infos.map LayerInfo.algo).filter (fun a => !a == info.algo) ≠ [] := by
    simpa using h
  obtain ⟨a, rest, hrest⟩ := List.exists_cons_of_ne_nil hfilter
  rw [fusedAlgo, List.map_cons, List.eraseDups_cons, hrest, List.eraseDups_cons]
  exact ⟨_, rfl⟩

/-- There is an algorithm if all shards have it. -/
theorem fusedAlgo_eq_ok_iff {name : Str} {infos : List LayerInfo} {answer : Option Str} :
    fusedAlgo name infos = .ok answer ↔ (infos = [] ∧ answer = none) ∨
      ∃ info ∈ infos, answer = some info.algo ∧ ∀ i ∈ infos, i.algo = info.algo := by
  cases infos with
  | nil => simp [fusedAlgo, eq_comm]
  | cons info infos =>
    by_cases h : ∀ i ∈ infos, i.algo = info.algo
    · rw [fusedAlgo_cons h]
      constructor
      · rintro ⟨⟩
        exact .inr ⟨info, List.mem_cons_self, rfl, List.forall_mem_cons.2 ⟨rfl, h⟩⟩
      · rintro (⟨hnil, -⟩ | ⟨i, -, rfl, hall⟩)
        · cases hnil
        · rw [hall info List.mem_cons_self]
    · obtain ⟨e, he⟩ := fusedAlgo_cons_error name h
      rw [he]
      constructor
      · rintro ⟨⟩
      · rintro (⟨hnil, -⟩ | ⟨i, -, -, hall⟩)
        · cases hnil
        · have hi := hall info List.mem_cons_self
          exact (h fun j hj => (hall j (List.mem_cons_of_mem _ hj)).trans hi.symm).elim

/-- What the shards say does not depend on their order and number. -/
theorem toOption_fusedAlgo_congr {name name' : Str} {infos infos' : List LayerInfo}
    (h : ∀ i, i ∈ infos ↔ i ∈ infos') :
    (fusedAlgo name infos).toOption = (fusedAlgo name' infos').toOption := by
  have hnil : infos = [] ↔ infos' = [] := by
    simp only [List.eq_nil_iff_forall_not_mem, h]
  have hok : ∀ answer, fusedAlgo name infos = .ok answer ↔ fusedAlgo name' infos' = .ok answer := by
    intro answer
    simp only [fusedAlgo_eq_ok_iff, hnil, h]
  cases hleft : fusedAlgo name infos with
  | ok answer => rw [(hok answer).1 hleft]
  | error e =>
    cases hright : fusedAlgo name' infos' with
    | ok answer => simp [(hok answer).2 hright] at hleft
    | error e' => rfl

section Entries

variable (q : QuantizedLayers)

namespace QuantizedLayers

/-- The names that have an entry. -/
def keys : List Str := q.map (·.1)

theorem entry_eq_none_iff {name : Str} : q.entry name = none ↔ name ∉ q.keys := by
  simp only [entry, keys, Option.map_eq_none_iff, List.find?_eq_none, decide_eq_true_eq,
    List.mem_map, not_exists, not_and]

theorem entryUnder_eq (start : Str) :
    q.entryUnder start = (presentUnder q.keys start).bind q.entry := by
  induction q with
  | nil => rfl
  | cons e q ih =>
    by_cases h : start.isPrefixOf e.1
    · simp [entryUnder, presentUnder, keys, entry, h]
    · have hkeys : presentUnder (keys (e :: q)) start = presentUnder (keys q) start := by
        simp [presentUnder, keys, h]
      have hunder : entryUnder (e :: q) start = entryUnder q start := by simp [entryUnder, h]
      rw [hunder, hkeys, ih]
      refine Option.bind_congr fun k hk => ?_
      -- The name that is found starts with the text, so it is not that of the first entry.
      have hne : e.1 ≠ k := by
        rintro rfl
        exact h (by simpa using List.find?_some hk)
      simp [entry, hne]

/-- A lookup of names only sees those that have an entry. -/
theorem filterMap_entry (names : List Str) :
    names.filterMap q.entry = (present q.keys names).filterMap q.entry := by
  rw [present, List.filterMap_filter]
  refine List.filterMap_congr fun k _ => ?_
  by_cases h : k ∈ q.keys
  · simp [h]
  · simp [h, q.entry_eq_none_iff.2 h]

end QuantizedLayers

/-- The names that the lookups find have an entry. -/
theorem mem_of_mem_found {keys : List Str} {packed : Packed} {candidates : Str → List Str}
    {name : Str} {g : List Str} (hg : g ∈ found keys packed candidates name) {k : Str}
    (hk : k ∈ g) : k ∈ keys := by
  have hpresent {names : List Str} (h : k ∈ present keys names) : k ∈ keys := by
    simpa using (List.mem_filter.1 h).2
  have hunder {start : Str} (h : presentUnder keys start = some k) : k ∈ keys :=
    List.mem_of_find?_eq_some h
  simp only [found, List.mem_append, List.mem_map, List.mem_singleton] at hg
  rcases hg with (((⟨c, -, rfl⟩ | rfl) | ⟨c, -, rfl⟩) | rfl) | ⟨c, -, rfl⟩
  · exact hpresent hk
  · exact hpresent hk
  · exact hunder (Option.mem_toList.1 hk)
  · obtain ⟨p, -, hp⟩ := Option.bind_eq_some_iff.1 (Option.mem_toList.1 hk)
    exact hunder hp
  · exact hpresent hk

/-- The first answer, of lookups each of which is made of the entries of names. -/
theorem firstAnswer_map (name : Str) {groups : List (List Str)}
    (h : ∀ g ∈ groups, ∀ k ∈ g, k ∈ q.keys) :
    firstAnswer (groups.map fun g => fusedAlgo name (g.filterMap q.entry)) =
      fusedAlgo name ((firstFound groups).filterMap q.entry) := by
  induction groups with
  | nil => rfl
  | cons g groups ih =>
    by_cases hg : g = []
    · subst hg
      have hrest := ih fun g' hg' => h g' (List.mem_cons_of_mem _ hg')
      simpa [firstAnswer, fusedAlgo, firstFound] using hrest
    · have hanswer : fusedAlgo name (g.filterMap q.entry) ≠ .ok none := by
        intro hnone
        obtain ⟨hnil, -⟩ | ⟨_, -, hsome, -⟩ := fusedAlgo_eq_ok_iff.1 hnone
        · obtain ⟨k, hk⟩ := List.exists_mem_of_ne_nil g hg
          exact q.entry_eq_none_iff.1 (List.filterMap_eq_nil_iff.1 hnil k hk)
            (h g List.mem_cons_self k hk)
        · cases hsome
      rw [firstFound, List.map_cons, List.find?_cons_of_pos (by simpa using hg), Option.getD_some]
      revert hanswer
      cases fusedAlgo name (g.filterMap q.entry) with
      | error e => exact fun _ => rfl
      | ok answer =>
        cases answer with
        | none => exact fun hne => (hne rfl).elim
        | some algo => exact fun _ => rfl

/-- A lookup of one name. -/
theorem fusedAlgo_toList (name : Str) (k : Option Str) :
    fusedAlgo name (k.toList.filterMap q.entry) = .ok ((k.bind q.entry).map LayerInfo.algo) := by
  cases k with
  | none => rfl
  | some k => cases hk : q.entry k <;> simp [hk, fusedAlgo, List.eraseDups_cons]

/-- The first lookup that finds entries decides. -/
theorem resolveQuantAlgo_eq (packed : Packed) (candidates : Str → List Str) (name : Str) :
    resolveQuantAlgo q packed candidates name =
      fusedAlgo name ((deciding q.keys packed candidates name).filterMap q.entry) := by
  rw [deciding, ← firstAnswer_map q name fun g hg k hk => mem_of_mem_found hg hk]
  have hpresent (names : List Str) : fusedAlgo name (names.filterMap q.entry) =
      fusedAlgo name ((present q.keys names).filterMap q.entry) := by rw [← q.filterMap_entry]
  have hdirect (c : Str) : (.ok ((q.entry c).map LayerInfo.algo) : Except Mixed (Option Str)) =
      fusedAlgo name ([c].filterMap q.entry) := (fusedAlgo_toList q name (some c)).symm
  have hunder (start : Str) :
      (.ok ((q.entryUnder start).map LayerInfo.algo) : Except Mixed (Option Str)) =
        fusedAlgo name ((presentUnder q.keys start).toList.filterMap q.entry) := by
    rw [fusedAlgo_toList, q.entryUnder_eq]
  have hexperts : (.ok (((stripSuffix? name ".experts").bind fun p =>
      q.entryUnder (p ++ str ".")).map LayerInfo.algo) : Except Mixed (Option Str)) =
        fusedAlgo name (((stripSuffix? name ".experts").bind fun p =>
          presentUnder q.keys (p ++ str ".")).toList.filterMap q.entry) := by
    rw [fusedAlgo_toList, Option.bind_assoc]
    simp only [q.entryUnder_eq]
  simp only [resolveQuantAlgo, found, List.map_append, List.map_map, List.map_cons, List.map_nil,
    Function.comp_def, ← hpresent, ← hdirect, ← hunder, ← hexperts, List.filterMap_flatMap,
    List.filterMap_map]

/-- The entry that is found decides on the group size. -/
theorem quantizedLayerGroupSize_eq (candidates : Str → List Str) (name : Str) :
    quantizedLayerGroupSize q candidates name =
      ((decidingSize q.keys candidates name).bind q.entry).elim (.ok none) LayerInfo.size := by
  rw [quantizedLayerGroupSize]
  congr 1
  rw [decidingSize]
  induction candidates name with
  | nil => rfl
  | cons c cs ih =>
    rw [List.findSome?_cons, List.findSome?_cons]
    by_cases hc : c ∈ q.keys
    · obtain ⟨info, hinfo⟩ := Option.ne_none_iff_exists'.1
        fun hnone => q.entry_eq_none_iff.1 hnone hc
      simp [hc, hinfo]
    · rw [q.entry_eq_none_iff.2 hc, if_neg hc, Option.none_or, Option.none_or, q.entryUnder_eq]
      cases hunder : presentUnder q.keys (c ++ str ".") with
      | none => exact ih
      | some k =>
        obtain ⟨info, hinfo⟩ := Option.ne_none_iff_exists'.1
          fun hnone => q.entry_eq_none_iff.1 hnone (List.mem_of_find?_eq_some hunder)
        simp [hinfo]

end Entries

/-! ## Entries that say anything -/

/-- What every name says, for its entries. -/
def entries (keys : List Str) (infos : Str → LayerInfo) : QuantizedLayers :=
  keys.map fun k => (k, infos k)

theorem keys_entries (keys : List Str) (infos : Str → LayerInfo) :
    (entries keys infos).keys = keys := by
  simp [entries, QuantizedLayers.keys, Function.comp_def]

theorem entry_entries {keys : List Str} {k : Str} (h : k ∈ keys) (infos : Str → LayerInfo) :
    (entries keys infos).entry k = some (infos k) := by
  induction keys with
  | nil => cases h
  | cons k' keys ih =>
    by_cases hk : k' = k
    · simp [entries, QuantizedLayers.entry, hk]
    · have htail := ih ((List.mem_cons.1 h).resolve_left (Ne.symm hk))
      simpa [entries, QuantizedLayers.entry, hk] using htail

/-- What is found first is found by a lookup. -/
theorem exists_of_mem_firstFound {groups : List (List Str)} {k : Str}
    (h : k ∈ firstFound groups) : ∃ g ∈ groups, k ∈ g := by
  unfold firstFound at h
  cases hfind : groups.find? (· ≠ []) with
  | none =>
    rw [hfind] at h
    cases h
  | some g => exact ⟨g, List.mem_of_find?_eq_some hfind, by rwa [hfind] at h⟩

/-- The names that decide have an entry. -/
theorem mem_of_mem_deciding {keys : List Str} {packed : Packed} {candidates : Str → List Str}
    {name k : Str} (h : k ∈ deciding keys packed candidates name) : k ∈ keys := by
  obtain ⟨g, hg, hk⟩ := exists_of_mem_firstFound h
  exact mem_of_mem_found hg hk

theorem mem_of_decidingSize {keys : List Str} {candidates : Str → List Str} {name k : Str}
    (h : decidingSize keys candidates name = some k) : k ∈ keys := by
  obtain ⟨c, -, hc⟩ := List.exists_of_findSome?_eq_some h
  split_ifs at hc with hmem
  · cases hc
    exact hmem
  · exact List.mem_of_find?_eq_some hc

/-- The algorithm, for entries that say what the names do. -/
theorem resolveQuantAlgo_entries (keys : List Str) (infos : Str → LayerInfo) (packed : Packed)
    (candidates : Str → List Str) (name : Str) :
    resolveQuantAlgo (entries keys infos) packed candidates name =
      fusedAlgo name ((deciding keys packed candidates name).map infos) := by
  rw [resolveQuantAlgo_eq, keys_entries, ← List.filterMap_eq_map]
  congr 1
  exact List.filterMap_congr fun k hk => entry_entries (mem_of_mem_deciding hk) infos

/-- The same for the group size. -/
theorem quantizedLayerGroupSize_entries (keys : List Str) (infos : Str → LayerInfo)
    (candidates : Str → List Str) (name : Str) :
    quantizedLayerGroupSize (entries keys infos) candidates name =
      ((decidingSize keys candidates name).map infos).elim (.ok none) LayerInfo.size := by
  rw [quantizedLayerGroupSize_eq, keys_entries]
  cases hk : decidingSize keys candidates name with
  | none => rfl
  | some k => rw [Option.bind_some, entry_entries (mem_of_decidingSize hk), Option.map_some]

/-- One name says something else than all others. -/
def oddOne (k : Str) : Str → LayerInfo := fun k' =>
  if k' = k then ⟨str "B", .int 1⟩ else ⟨str "A", .int 2⟩

/-- If two lookups give the same algorithm whatever the entries say, what one finds the
    other finds. -/
theorem mem_of_forall {xs ys : List Str} {name name' : Str}
    (h : ∀ infos : Str → LayerInfo, (fusedAlgo name (xs.map infos)).toOption =
      (fusedAlgo name' (ys.map infos)).toOption) {k : Str} (hk : k ∈ xs) : k ∈ ys := by
  by_contra hys
  -- Only the name that is not found says `B`.
  have hodd : ∀ info ∈ ys.map (oddOne k), info.algo = str "A" := by
    simp only [List.forall_mem_map]
    intro k' hk'
    have hne : k' ≠ k := fun heq => hys (heq ▸ hk')
    rw [oddOne, if_neg hne]
    decide
  -- The other lookup says `A`, or nothing if it finds nothing.
  obtain ⟨answer, hanswer, hne⟩ : ∃ answer,
      fusedAlgo name' (ys.map (oddOne k)) = .ok answer ∧ answer ≠ some (str "B") := by
    cases ys with
    | nil => exact ⟨none, rfl, nofun⟩
    | cons k' ys =>
      have hk' := hodd _ List.mem_cons_self
      refine ⟨some (str "A"), fusedAlgo_eq_ok_iff.2 (.inr ⟨_, List.mem_cons_self, ?_, ?_⟩), ?_⟩
      · rw [hk']
      · exact fun info hinfo => (hodd info hinfo).trans hk'.symm
      · decide
  have hleft : fusedAlgo name (xs.map (oddOne k)) = .ok answer := by
    have heq := h (oddOne k)
    rw [hanswer] at heq
    cases hx : fusedAlgo name (xs.map (oddOne k)) <;> simp_all [Except.toOption]
  have hmem : oddOne k k ∈ xs.map (oddOne k) := List.mem_map_of_mem hk
  obtain ⟨hnil, -⟩ | ⟨info, -, hinfo, hall⟩ := fusedAlgo_eq_ok_iff.1 hleft
  · rw [hnil] at hmem
    cases hmem
  · refine hne (hinfo.trans (congrArg some ((hall _ hmem).symm.trans ?_)))
    rw [oddOne, if_pos rfl]
    decide

theorem size_oddOne (k k' : Str) :
    (oddOne k k').size = .ok (some (if k' = k then 1 else 2)) := by
  by_cases h : k' = k <;> simp [oddOne, h, LayerInfo.size, Val.truthy, intOfVal]

/-- The same for the group size. -/
theorem eq_of_forall {k k' : Option Str}
    (h : ∀ infos : Str → LayerInfo, (k.map infos).elim (.ok none) LayerInfo.size =
      (k'.map infos).elim (.ok none) LayerInfo.size) : k = k' := by
  cases k with
  | none =>
    cases k' with
    | none => rfl
    | some a => simpa [size_oddOne] using h (oddOne a)
  | some a =>
    have ha := h (oddOne a)
    cases k' with
    | none => simp [size_oddOne] at ha
    | some b =>
      by_cases hb : b = a
      · rw [hb]
      · simp [size_oddOne, hb] at ha

/-! ## Lookups of several names -/

theorem firstFound_singleton (g : List Str) : firstFound [g] = g := by
  by_cases h : g = [] <;> simp [firstFound, h]

theorem firstFound_eq_nil_iff {gs : List (List Str)} : firstFound gs = [] ↔ ∀ g ∈ gs, g = [] := by
  unfold firstFound
  cases hfind : gs.find? (· ≠ []) with
  | none => simpa using hfind
  | some g =>
    have hne : g ≠ [] := by simpa using List.find?_some hfind
    simpa [hne] using ⟨g, List.mem_of_find?_eq_some hfind, hne⟩

theorem firstFound_append (gs hs : List (List Str)) :
    firstFound (gs ++ hs) = if firstFound gs = [] then firstFound hs else firstFound gs := by
  unfold firstFound
  rw [List.find?_append]
  cases hfind : gs.find? (· ≠ []) with
  | none => simp
  | some g =>
    have hne : g ≠ [] := by simpa using List.find?_some hfind
    simp [hne]

theorem firstFound_cons (g : List Str) (hs : List (List Str)) :
    firstFound (g :: hs) = if g = [] then firstFound hs else g := by
  rw [← List.singleton_append, firstFound_append, firstFound_singleton]

section Own

variable {cs : List Str} {own : Str} {find : Str → List Str} {mine : Str → Prop}

/-- Of several names, the one that alone finds names of a kind finds the first ones: what
    is found is of the kind if and only if none of the names before it finds any. -/
theorem firstFound_own_iff (hown : ∀ k ∈ find own, mine k)
    (hother : ∀ c ∈ cs, c ≠ own → ∀ k ∈ find c, ¬mine k) :
    (firstFound (cs.map find) ≠ [] ∧ ∀ k ∈ firstFound (cs.map find), mine k) ↔
      own ∈ cs ∧ find own ≠ [] ∧ ∀ c ∈ cs.takeWhile (· ≠ own), find c = [] := by
  induction cs with
  | nil => simp [firstFound]
  | cons c cs ih =>
    rw [List.forall_mem_cons] at hother
    rw [List.map_cons, firstFound_cons]
    by_cases hc : c = own
    · subst hc
      by_cases hfind : find c = []
      · rw [if_pos hfind, ih hother.2]
        simp [hfind]
      · simpa [hfind] using hown
    · rw [List.takeWhile_cons_of_pos (by simpa using hc), List.forall_mem_cons, List.mem_cons]
      by_cases hfind : find c = []
      · rw [if_pos hfind, ih hother.2]
        simp [hfind, Ne.symm hc]
      · obtain ⟨k, hk⟩ := List.exists_mem_of_ne_nil _ hfind
        rw [if_neg hfind]
        exact ⟨fun h => absurd (h.2 k hk) (hother.1 hc k hk), fun h => absurd h.2.2.1 hfind⟩

/-- If so, these are what is found. -/
theorem firstFound_own (hown : own ∈ cs) (hne : find own ≠ [])
    (hbefore : ∀ c ∈ cs.takeWhile (· ≠ own), find c = []) :
    firstFound (cs.map find) = find own := by
  induction cs with
  | nil => cases hown
  | cons c cs ih =>
    rw [List.map_cons, firstFound_cons]
    by_cases hc : c = own
    · rw [hc, if_neg hne]
    · rw [List.takeWhile_cons_of_pos (by simpa using hc), List.forall_mem_cons] at hbefore
      rw [if_pos hbefore.1, ih ((List.mem_cons.1 hown).resolve_left (Ne.symm hc)) hbefore.2]

end Own

/-! ## What each lookup finds -/

/-- A name below this one has an entry. -/
def Under (keys : List Str) (name : Str) : Prop := ∃ k ∈ keys, name ++ str "." <+: k

/-- A shard of the module has an entry. -/
def HasShard (keys shards : List Str) (base : Str) : Prop :=
  ∃ shard ∈ shards, base ++ str "." ++ shard ∈ keys

section Stages

variable (keys shards names : List Str)

/-- The direct lookup of the names. -/
def directFound : List Str := firstFound (names.map fun c => present keys [c])

/-- The lookup of the packed shards of the modules, all at once. -/
def packedFound : List Str :=
  present keys (names.flatMap fun c => shards.map fun shard => c ++ str "." ++ shard)

/-- The lookup of what is below the names. -/
def underFound : List Str :=
  firstFound (names.map fun c => (presentUnder keys (c ++ str ".")).toList)

/-- The lookup next to the experts. -/
def expertsFound (name : Str) : List Str :=
  ((stripSuffix? name ".experts").bind fun p => presentUnder keys (p ++ str ".")).toList

/-- The lookup of the shards next to the names, of one name after the other. -/
def shardsFound : List Str :=
  firstFound (names.map fun c =>
    present keys (shards.map fun shard => parent c ++ str "." ++ shard))

variable {keys shards names} {packed : Packed} {candidates : Str → List Str} {name base : Str}

/-- The first lookup that finds any decides, each of them for all the candidates. -/
theorem deciding_eq : deciding keys packed candidates name = firstFound
    [directFound keys (candidates name),
      packedFound keys ((packed (rpartition name).2).getD []) (candidates (parent name)),
      underFound keys (candidates name), expertsFound keys name,
      shardsFound keys (fusedProjectionShards (rpartition name).2) (candidates name)] := by
  have hlast (g : List Str) : (if g = [] then firstFound [] else g) = g :=
    (firstFound_cons g []).symm.trans (firstFound_singleton g)
  simp only [deciding, found, directFound, packedFound, underFound, expertsFound, shardsFound,
    List.append_assoc, firstFound_append, firstFound_cons, hlast]

theorem present_singleton_eq_nil_iff : present keys [name] = [] ↔ name ∉ keys := by
  simp [present]

theorem presentUnder_eq_none_iff :
    presentUnder keys (name ++ str ".") = none ↔ ¬Under keys name := by
  simp [presentUnder, Under]

theorem toList_presentUnder_eq_nil_iff :
    (presentUnder keys (name ++ str ".")).toList = [] ↔ ¬Under keys name := by
  rw [Option.toList_eq_nil_iff, presentUnder_eq_none_iff]

theorem present_shards_eq_nil_iff :
    present keys (shards.map fun shard => base ++ str "." ++ shard) = [] ↔
      ¬HasShard keys shards base := by
  simp [present, HasShard]

theorem directFound_eq_nil_iff : directFound keys names = [] ↔ ∀ c ∈ names, c ∉ keys := by
  simp [directFound, firstFound_eq_nil_iff, present_singleton_eq_nil_iff]

theorem packedFound_eq_nil_iff :
    packedFound keys shards names = [] ↔ ∀ p ∈ names, ¬HasShard keys shards p := by
  simp only [packedFound, present, List.filter_eq_nil_iff, List.mem_flatMap, List.mem_map,
    decide_eq_true_eq, HasShard]
  exact ⟨fun h p hp ⟨shard, hs, hk⟩ => h _ ⟨p, hp, shard, hs, rfl⟩ hk,
    fun h k ⟨p, hp, shard, hs, hk⟩ hkeys => h p hp ⟨shard, hs, hk ▸ hkeys⟩⟩

theorem underFound_eq_nil_iff : underFound keys names = [] ↔ ∀ c ∈ names, ¬Under keys c := by
  simp only [underFound, firstFound_eq_nil_iff, List.forall_mem_map, toList_presentUnder_eq_nil_iff]

theorem shardsFound_eq_nil_iff :
    shardsFound keys shards names = [] ↔ ∀ c ∈ names, ¬HasShard keys shards (parent c) := by
  simp only [shardsFound, firstFound_eq_nil_iff, List.forall_mem_map, present_shards_eq_nil_iff]

theorem directFound_singleton : directFound keys [name] = present keys [name] :=
  firstFound_singleton _

theorem packedFound_singleton : packedFound keys shards [base] =
    present keys (shards.map fun shard => base ++ str "." ++ shard) := by
  rw [packedFound, List.flatMap_singleton]

theorem underFound_singleton :
    underFound keys [name] = (presentUnder keys (name ++ str ".")).toList :=
  firstFound_singleton _

theorem shardsFound_singleton : shardsFound keys shards [name] =
    present keys (shards.map fun shard => parent name ++ str "." ++ shard) :=
  firstFound_singleton _

theorem mem_present_shards {k : Str} :
    k ∈ present keys (shards.map fun shard => base ++ str "." ++ shard) ↔
      ∃ shard ∈ shards, base ++ str "." ++ shard ∈ keys ∧ k = base ++ str "." ++ shard := by
  simp only [present, List.mem_filter, List.mem_map, decide_eq_true_eq]
  exact ⟨fun ⟨⟨shard, hs, hk⟩, hkeys⟩ => ⟨shard, hs, hk ▸ hkeys, hk.symm⟩,
    fun ⟨shard, hs, hkeys, hk⟩ => ⟨⟨shard, hs, hk.symm⟩, hk ▸ hkeys⟩⟩

/-- A shard that has an entry is found if it is one of the shards. -/
theorem shard_mem_present_iff {shard : Str} (h : base ++ str "." ++ shard ∈ keys) :
    base ++ str "." ++ shard ∈ present keys (shards.map fun s => base ++ str "." ++ s) ↔
      shard ∈ shards := by
  rw [mem_present_shards]
  constructor
  · rintro ⟨s, hs, -, heq⟩
    rwa [List.append_cancel_left heq]
  · exact fun hs => ⟨shard, hs, h, rfl⟩

theorem mem_packedFound {k : Str} : k ∈ packedFound keys shards names ↔
    ∃ p ∈ names, ∃ shard ∈ shards, p ++ str "." ++ shard ∈ keys ∧ k = p ++ str "." ++ shard := by
  simp only [packedFound, present, List.mem_filter, List.mem_flatMap, List.mem_map,
    decide_eq_true_eq]
  exact ⟨fun ⟨⟨p, hp, shard, hs, hk⟩, hkeys⟩ => ⟨p, hp, shard, hs, hk ▸ hkeys, hk.symm⟩,
    fun ⟨p, hp, shard, hs, hkeys, hk⟩ => ⟨⟨p, hp, shard, hs, hk.symm⟩, hk ▸ hkeys⟩⟩

end Stages

end FlashNext.Quant
