import FlashNext.Quant.Candidates

/-!
# The quantization of a draft layer

`mtp_resolves_iff`: a module of a draft layer is resolved as its own entries say, whatever
they and the others say, if and only if `OwnFirst` holds of the names that have an entry: in
the first lookup that finds any, the own name finds one and no name before it does
(`OwnAlgo`), or none of the lookups finds any, with the own name neither; and the same for the
group size (`OwnSize`). So a draft layer is resolved as another one if that comes before it
and has an entry, if it has none itself, or if its index is above the bound.
-/

namespace FlashNext.Quant

open Python Safetensors

/-! ## The condition -/

section Condition

variable (keys : List Str) (packed : Packed) (n i : Nat) (suffix : Str)

/-- The shards that the module is packed of. -/
def packedShards : List Str := (packed (projName suffix)).getD []

/-- Of the names that have an entry, those that are found first for the algorithm of the module
    `suffix` of the draft layer `i` are its own ones, or none is found. -/
inductive OwnAlgo : Prop
  /-- The own name has an entry, and no name before it. -/
  | direct : i ≤ 8 → mtpName i suffix ∈ keys → (∀ c, Before n i suffix c → c ∉ keys) → OwnAlgo
  /-- Shards that the module is packed of have entries next to the own name, and next to no
      other one. -/
  | packed : i ≤ 8 → 46 ∈ suffix → (∀ c, Offered n i suffix c → c ∉ keys) →
      HasShard keys (packedShards packed suffix) (parent (mtpName i suffix)) →
      (∀ p, OfferedParent n i suffix p → p ≠ parent (mtpName i suffix) →
        ¬HasShard keys (packedShards packed suffix) p) → OwnAlgo
  /-- A name below the own one has an entry, and none below a name before it. Where the module
      is in the layer itself, its packed shards are not looked up under the own index: they
      have no entry, or this one. -/
  | under : i ≤ 8 → (∀ c, Offered n i suffix c → c ∉ keys) →
      (∀ p, OfferedParent n i suffix p → ¬HasShard keys (packedShards packed suffix) p) →
      Under keys (mtpName i suffix) → (∀ c, Before n i suffix c → ¬Under keys c) →
      (∀ shard ∈ packedShards packed suffix, parent (mtpName i suffix) ++ str "." ++ shard ∈ keys →
        presentUnder keys (mtpName i suffix ++ str ".") =
          some (parent (mtpName i suffix) ++ str "." ++ shard)) → OwnAlgo
  /-- Shards of a fused projection have entries next to the own name, and next to none before
      it. The packed shards of a module in the layer itself have no entries, or these. -/
  | shards : i ≤ 8 → (∀ c, Offered n i suffix c → c ∉ keys ∧ ¬Under keys c) →
      (∀ p, OfferedParent n i suffix p → ¬HasShard keys (packedShards packed suffix) p) →
      HasShard keys (fusedProjectionShards (projName suffix)) (parent (mtpName i suffix)) →
      (∀ c, Before n i suffix c →
        ¬HasShard keys (fusedProjectionShards (projName suffix)) (parent c)) →
      (HasShard keys (packedShards packed suffix) (parent (mtpName i suffix)) →
        ∀ shard, parent (mtpName i suffix) ++ str "." ++ shard ∈ keys →
          (shard ∈ packedShards packed suffix ↔
            shard ∈ fusedProjectionShards (projName suffix))) → OwnAlgo
  /-- No name that is looked up has an entry, nor has the own one. -/
  | none : (∀ c, Offered n i suffix c ∨ c = mtpName i suffix → c ∉ keys ∧ ¬Under keys c ∧
        ¬HasShard keys (fusedProjectionShards (projName suffix)) (parent c)) →
      (∀ p, OfferedParent n i suffix p ∨ p = parent (mtpName i suffix) →
        ¬HasShard keys (packedShards packed suffix) p) →
      (projName suffix = str "experts" → ∀ k, k = n + i ∨ k = i →
        ¬Under keys (parent (mtpName k suffix))) → OwnAlgo

/-- The name, or a name below it, has an entry. -/
def Covered (name : Str) : Prop := name ∈ keys ∨ Under keys name

/-- The same for the group size. -/
inductive OwnSize : Prop
  /-- The own name has entries, and no name before it. -/
  | own : i ≤ 8 → Covered keys (mtpName i suffix) →
      (∀ c, Before n i suffix c → ¬Covered keys c) → OwnSize
  /-- No name that is looked up has entries, nor has the own one. -/
  | none : (∀ c, Offered n i suffix c ∨ c = mtpName i suffix → ¬Covered keys c) → OwnSize

/-- A draft layer has its own quantization. -/
structure OwnFirst : Prop where
  algo : OwnAlgo keys packed n i suffix
  size : OwnSize keys n i suffix

end Condition

/-! ## Lookups of a draft layer -/

section Lookups

variable {keys shards : List Str} {n i : Nat} {suffix : Str}

/-- Of the names that are looked up one after the other, the own one finds the first entries
    if and only if none before it finds any. -/
theorem firstFound_candidates_iff (hn : 0 < n) (hline : 10 ∉ suffix) (find : Str → List Str)
    (hown : ∀ k ∈ find (mtpName i suffix), mtpName i [] <+: k)
    (hother : ∀ c, Other i c → Other i (parent c ++ str ".") → ∀ k ∈ find c, ¬mtpName i [] <+: k) :
    (firstFound ((prefixCandidates (mtpName (n + i) suffix)).map find) ≠ [] ∧
      ∀ k ∈ firstFound ((prefixCandidates (mtpName (n + i) suffix)).map find),
        mtpName i [] <+: k) ↔
      i ≤ 8 ∧ find (mtpName i suffix) ≠ [] ∧ ∀ c, Before n i suffix c → find c = [] := by
  rw [firstFound_own_iff hown fun c hc hne => ?_, own_mem_prefixCandidates hn hline]
  · refine and_congr_right fun hi => and_congr_right fun _ => forall_congr' fun c => ?_
    rw [mem_takeWhile_prefixCandidates hn hline hi]
  · obtain ⟨hname, hparent⟩ := other_of_offered hn ((mem_prefixCandidates hline).1 hc) hne
    exact hother c hname hparent

/-- If so, these are what is found. -/
theorem firstFound_candidates (hn : 0 < n) (hline : 10 ∉ suffix) {find : Str → List Str}
    (hi : i ≤ 8) (hne : find (mtpName i suffix) ≠ [])
    (hbefore : ∀ c, Before n i suffix c → find c = []) :
    firstFound ((prefixCandidates (mtpName (n + i) suffix)).map find) = find (mtpName i suffix) :=
  firstFound_own ((own_mem_prefixCandidates hn hline).2 hi) hne fun c hc =>
    hbefore c ((mem_takeWhile_prefixCandidates hn hline hi).1 hc)

theorem directFound_own_iff (hn : 0 < n) (hline : 10 ∉ suffix) :
    (directFound keys (prefixCandidates (mtpName (n + i) suffix)) ≠ [] ∧
      ∀ k ∈ directFound keys (prefixCandidates (mtpName (n + i) suffix)), mtpName i [] <+: k) ↔
      i ≤ 8 ∧ mtpName i suffix ∈ keys ∧ ∀ c, Before n i suffix c → c ∉ keys := by
  have hmem {c k : Str} (hk : k ∈ present keys [c]) : k = c :=
    List.mem_singleton.1 (List.mem_filter.1 hk).1
  rw [directFound, firstFound_candidates_iff hn hline _
    (fun k hk => hmem hk ▸ mtpName_isPrefixOf i suffix)
    fun c hc _ k hk => hmem hk ▸ hc c List.prefix_rfl]
  simp only [ne_eq, present_singleton_eq_nil_iff, not_not]

theorem directFound_own (hn : 0 < n) (hline : 10 ∉ suffix) (hi : i ≤ 8)
    (hown : mtpName i suffix ∈ keys) (hbefore : ∀ c, Before n i suffix c → c ∉ keys) :
    directFound keys (prefixCandidates (mtpName (n + i) suffix)) =
      present keys [mtpName i suffix] :=
  firstFound_candidates hn hline hi (mt present_singleton_eq_nil_iff.1 (not_not.2 hown))
    fun c hc => present_singleton_eq_nil_iff.2 (hbefore c hc)

theorem underFound_own_iff (hn : 0 < n) (hline : 10 ∉ suffix) :
    (underFound keys (prefixCandidates (mtpName (n + i) suffix)) ≠ [] ∧
      ∀ k ∈ underFound keys (prefixCandidates (mtpName (n + i) suffix)), mtpName i [] <+: k) ↔
      i ≤ 8 ∧ Under keys (mtpName i suffix) ∧ ∀ c, Before n i suffix c → ¬Under keys c := by
  have hmem {c k : Str} (hk : k ∈ (presentUnder keys (c ++ str ".")).toList) : c <+: k :=
    (List.prefix_append c _).trans (by simpa using List.find?_some (Option.mem_toList.1 hk))
  rw [underFound, firstFound_candidates_iff hn hline _
    (fun k hk => (mtpName_isPrefixOf i suffix).trans (hmem hk))
    fun c hc _ k hk => hc k (hmem hk)]
  simp only [ne_eq, toList_presentUnder_eq_nil_iff, not_not]

theorem underFound_own (hn : 0 < n) (hline : 10 ∉ suffix) (hi : i ≤ 8)
    (hown : Under keys (mtpName i suffix))
    (hbefore : ∀ c, Before n i suffix c → ¬Under keys c) :
    underFound keys (prefixCandidates (mtpName (n + i) suffix)) =
      (presentUnder keys (mtpName i suffix ++ str ".")).toList :=
  firstFound_candidates hn hline hi (mt toList_presentUnder_eq_nil_iff.1 (not_not.2 hown))
    fun c hc => toList_presentUnder_eq_nil_iff.2 (hbefore c hc)

theorem shardsFound_own_iff (hn : 0 < n) (hline : 10 ∉ suffix) :
    (shardsFound keys shards (prefixCandidates (mtpName (n + i) suffix)) ≠ [] ∧
      ∀ k ∈ shardsFound keys shards (prefixCandidates (mtpName (n + i) suffix)),
        mtpName i [] <+: k) ↔
      i ≤ 8 ∧ HasShard keys shards (parent (mtpName i suffix)) ∧
        ∀ c, Before n i suffix c → ¬HasShard keys shards (parent c) := by
  have hmem {c k : Str}
      (hk : k ∈ present keys (shards.map fun shard => parent c ++ str "." ++ shard)) :
      parent c ++ str "." <+: k := by
    obtain ⟨shard, -, -, rfl⟩ := mem_present_shards.1 hk
    exact List.prefix_append _ _
  rw [shardsFound, firstFound_candidates_iff hn hline _
    (fun k hk => (mtpName_parent i suffix).trans (hmem hk)) fun c _ hc k hk => hc k (hmem hk)]
  simp only [ne_eq, present_shards_eq_nil_iff, not_not]

theorem shardsFound_own (hn : 0 < n) (hline : 10 ∉ suffix) (hi : i ≤ 8)
    (hown : HasShard keys shards (parent (mtpName i suffix)))
    (hbefore : ∀ c, Before n i suffix c → ¬HasShard keys shards (parent c)) :
    shardsFound keys shards (prefixCandidates (mtpName (n + i) suffix)) =
      present keys (shards.map fun shard => parent (mtpName i suffix) ++ str "." ++ shard) :=
  firstFound_candidates hn hline hi (mt present_shards_eq_nil_iff.1 (not_not.2 hown))
    fun c hc => present_shards_eq_nil_iff.2 (hbefore c hc)

/-- The packed shards are looked up for all names at once: those that are found are of the
    layer if and only if they are all its own. -/
theorem packedFound_own_iff (hn : 0 < n) (hline : 10 ∉ suffix) :
    (packedFound keys shards (prefixCandidates (parent (mtpName (n + i) suffix))) ≠ [] ∧
      ∀ k ∈ packedFound keys shards (prefixCandidates (parent (mtpName (n + i) suffix))),
        mtpName i [] <+: k) ↔
      (46 ∈ suffix ∧ i ≤ 8) ∧ HasShard keys shards (parent (mtpName i suffix)) ∧
        ∀ p, OfferedParent n i suffix p → p ≠ parent (mtpName i suffix) →
          ¬HasShard keys shards p := by
  simp only [← offeredParent_own_iff hn, ne_eq, packedFound_eq_nil_iff, not_forall, not_not,
    exists_prop, mem_packedFound, mem_prefixCandidates_parent hline]
  constructor
  · rintro ⟨⟨p, hp, hshard⟩, hmine⟩
    have hother : ∀ p, OfferedParent n i suffix p → p ≠ parent (mtpName i suffix) →
        ¬HasShard keys shards p := fun p hp hne ⟨shard, hs, hk⟩ =>
      other_of_offeredParent hn hp hne _ (List.prefix_append _ _)
        (hmine _ ⟨p, hp, shard, hs, hk, rfl⟩)
    obtain rfl : p = parent (mtpName i suffix) := by
      by_contra hne
      exact hother p hp hne hshard
    exact ⟨hp, hshard, hother⟩
  · rintro ⟨hp, hshard, hother⟩
    refine ⟨⟨_, hp, hshard⟩, ?_⟩
    rintro k ⟨p, hp, shard, hs, hk, rfl⟩
    obtain rfl : p = parent (mtpName i suffix) := by
      by_contra hne
      exact hother p hp hne ⟨shard, hs, hk⟩
    exact (mtpName_parent i suffix).trans (List.prefix_append _ _)

/-- If so, these are what is found. -/
theorem mem_packedFound_own (hn : 0 < n) (hline : 10 ∉ suffix) (hdot : 46 ∈ suffix) (hi : i ≤ 8)
    (hother : ∀ p, OfferedParent n i suffix p → p ≠ parent (mtpName i suffix) →
      ¬HasShard keys shards p) (k : Str) :
    k ∈ packedFound keys shards (prefixCandidates (parent (mtpName (n + i) suffix))) ↔
      k ∈ present keys (shards.map fun shard => parent (mtpName i suffix) ++ str "." ++ shard) := by
  rw [mem_packedFound, mem_present_shards]
  simp only [mem_prefixCandidates_parent hline]
  constructor
  · rintro ⟨p, hp, shard, hs, hk, rfl⟩
    obtain rfl : p = parent (mtpName i suffix) := by
      by_contra hne
      exact hother p hp hne ⟨shard, hs, hk⟩
    exact ⟨shard, hs, hk, rfl⟩
  · exact fun hk => ⟨_, (offeredParent_own_iff hn).2 ⟨hdot, hi⟩, hk⟩

end Lookups

/-- The entries that decide for a draft-local name are those of the layer. -/
theorem mtpName_of_mem_deciding {keys : List Str} {packed : Packed} {i : Nat} {suffix k : Str}
    (hk : k ∈ deciding keys packed ([·]) (mtpName i suffix)) : mtpName i [] <+: k := by
  obtain ⟨g, hg, hkg⟩ := exists_of_mem_firstFound hk
  have hname : mtpName i [] <+: mtpName i suffix := ⟨suffix, by simp [mtpName]⟩
  have hparent := mtpName_parent i suffix
  have hunder {start : Str} (hs : mtpName i [] <+: start)
      (h : presentUnder keys start = some k) : mtpName i [] <+: k :=
    hs.trans (by simpa using List.find?_some h)
  simp only [found, List.map_singleton, List.flatMap_singleton, List.mem_append,
    List.mem_singleton] at hg
  rcases hg with (((hg | hg) | hg) | hg) | hg <;> rw [hg] at hkg
  · have hk' := (List.mem_filter.1 hkg).1
    rw [List.mem_singleton.1 hk']
    exact hname
  · obtain ⟨shard, -, rfl⟩ := List.mem_map.1 (List.mem_filter.1 hkg).1
    exact hparent.trans (List.prefix_append _ _)
  · exact hunder (hname.trans (List.prefix_append _ _)) (Option.mem_toList.1 hkg)
  · obtain ⟨p, hp, hpk⟩ := Option.bind_eq_some_iff.1 (Option.mem_toList.1 hkg)
    have hparent' : parent (mtpName i suffix) = p := by
      rw [parent, if_pos (by simp [mtpName_eq]), rpartition_of_stripSuffix hp]
    exact hunder (hparent' ▸ hparent) hpk
  · obtain ⟨shard, -, rfl⟩ := List.mem_map.1 (List.mem_filter.1 hkg).1
    exact hparent.trans (List.prefix_append _ _)

/-! ## What decides -/

section Decide

variable {keys : List Str} {packed : Packed} {n i : Nat} {suffix : Str}

theorem expertsFound_eq_nil_iff (k : Nat) :
    expertsFound keys (mtpName k suffix) = [] ↔
      (projName suffix = str "experts" → ¬Under keys (parent (mtpName k suffix))) := by
  rw [expertsFound, stripSuffix_mtpName]
  by_cases h : projName suffix = str "experts"
  · simp [h, presentUnder_eq_none_iff]
  · simp [h]

/-- What is next to the experts of the model's index is not of the draft layer. -/
theorem not_own_of_expertsFound (hn : 0 < n) {k : Str}
    (hk : k ∈ expertsFound keys (mtpName (n + i) suffix)) : ¬mtpName i [] <+: k := by
  rw [expertsFound, stripSuffix_mtpName] at hk
  split_ifs at hk with h
  · have hstart : parent (mtpName (n + i) suffix) ++ str "." <+: k := by
      simpa using List.find?_some (Option.mem_toList.1 hk)
    exact other_of_mtpName (show n + i ≠ i by omega) (mtpName_parent _ _) k hstart
  · cases hk

/-- Experts are no fused projection. -/
theorem projName_ne_experts {base : Str}
    (h : HasShard keys (fusedProjectionShards (projName suffix)) base) :
    projName suffix ≠ str "experts" := by
  intro hexperts
  obtain ⟨shard, hs, -⟩ := h
  have hnil : fusedProjectionShards (str "experts") = [] := by decide
  rw [hexperts, hnil] at hs
  cases hs

/-- The lookups of a draft layer, with the index of the model. -/
theorem deciding_global : deciding keys packed prefixCandidates (mtpName (n + i) suffix) =
    firstFound [directFound keys (prefixCandidates (mtpName (n + i) suffix)),
      packedFound keys (packedShards packed suffix)
        (prefixCandidates (parent (mtpName (n + i) suffix))),
      underFound keys (prefixCandidates (mtpName (n + i) suffix)),
      expertsFound keys (mtpName (n + i) suffix),
      shardsFound keys (fusedProjectionShards (projName suffix))
        (prefixCandidates (mtpName (n + i) suffix))] := by
  rw [deciding_eq, rpartition_mtpName_snd, packedShards]

/-- Those under its own name alone. -/
theorem deciding_own : deciding keys packed ([·]) (mtpName i suffix) =
    firstFound [directFound keys [mtpName i suffix],
      packedFound keys (packedShards packed suffix) [parent (mtpName i suffix)],
      underFound keys [mtpName i suffix], expertsFound keys (mtpName i suffix),
      shardsFound keys (fusedProjectionShards (projName suffix)) [mtpName i suffix]] := by
  rw [deciding_eq, rpartition_mtpName_snd, packedShards]

theorem offered_own (hn : 0 < n) (hi : i ≤ 8) : Offered n i suffix (mtpName i suffix) :=
  .inr (.inr ⟨i, hi, by omega, rfl⟩)

section Own

variable (hd : mtpName i suffix ∉ keys)
include hd

theorem deciding_own_of_packed
    (hp : HasShard keys (packedShards packed suffix) (parent (mtpName i suffix))) :
    deciding keys packed ([·]) (mtpName i suffix) = present keys
      ((packedShards packed suffix).map fun s => parent (mtpName i suffix) ++ str "." ++ s) := by
  rw [deciding_own, directFound_singleton, packedFound_singleton, firstFound_cons,
    if_pos (present_singleton_eq_nil_iff.2 hd), firstFound_cons,
    if_neg (mt present_shards_eq_nil_iff.1 (not_not.2 hp))]

variable (hp : ¬HasShard keys (packedShards packed suffix) (parent (mtpName i suffix)))
include hp

theorem deciding_own_of_under (hu : Under keys (mtpName i suffix)) :
    deciding keys packed ([·]) (mtpName i suffix) =
      (presentUnder keys (mtpName i suffix ++ str ".")).toList := by
  rw [deciding_own, directFound_singleton, packedFound_singleton, underFound_singleton,
    firstFound_cons, if_pos (present_singleton_eq_nil_iff.2 hd), firstFound_cons,
    if_pos (present_shards_eq_nil_iff.2 hp), firstFound_cons,
    if_neg (mt toList_presentUnder_eq_nil_iff.1 (not_not.2 hu))]

theorem deciding_own_of_shards (hu : ¬Under keys (mtpName i suffix))
    (hs : HasShard keys (fusedProjectionShards (projName suffix)) (parent (mtpName i suffix))) :
    deciding keys packed ([·]) (mtpName i suffix) = present keys
      ((fusedProjectionShards (projName suffix)).map
        fun s => parent (mtpName i suffix) ++ str "." ++ s) := by
  have hexperts : expertsFound keys (mtpName i suffix) = [] :=
    (expertsFound_eq_nil_iff i).2 fun h => absurd h (projName_ne_experts hs)
  rw [deciding_own, directFound_singleton, packedFound_singleton, underFound_singleton,
    shardsFound_singleton, firstFound_cons, if_pos (present_singleton_eq_nil_iff.2 hd),
    firstFound_cons, if_pos (present_shards_eq_nil_iff.2 hp), firstFound_cons,
    if_pos (toList_presentUnder_eq_nil_iff.2 hu), firstFound_cons, if_pos hexperts,
    firstFound_singleton]

end Own

/-- The lookups with the index of the model find none. -/
theorem deciding_global_eq_nil_iff (hline : 10 ∉ suffix) :
    deciding keys packed prefixCandidates (mtpName (n + i) suffix) = [] ↔
      (∀ c, Offered n i suffix c → c ∉ keys) ∧
      (∀ p, OfferedParent n i suffix p → ¬HasShard keys (packedShards packed suffix) p) ∧
      (∀ c, Offered n i suffix c → ¬Under keys c) ∧
      (projName suffix = str "experts" → ¬Under keys (parent (mtpName (n + i) suffix))) ∧
      ∀ c, Offered n i suffix c →
        ¬HasShard keys (fusedProjectionShards (projName suffix)) (parent c) := by
  rw [deciding_global, firstFound_eq_nil_iff]
  simp only [List.mem_cons, List.not_mem_nil, or_false, forall_eq_or_imp, forall_eq,
    directFound_eq_nil_iff, packedFound_eq_nil_iff, underFound_eq_nil_iff,
    shardsFound_eq_nil_iff, expertsFound_eq_nil_iff, mem_prefixCandidates hline,
    mem_prefixCandidates_parent hline]

/-- Those under the own name find none. -/
theorem deciding_own_eq_nil_iff : deciding keys packed ([·]) (mtpName i suffix) = [] ↔
    mtpName i suffix ∉ keys ∧
      ¬HasShard keys (packedShards packed suffix) (parent (mtpName i suffix)) ∧
      ¬Under keys (mtpName i suffix) ∧
      (projName suffix = str "experts" → ¬Under keys (parent (mtpName i suffix))) ∧
      ¬HasShard keys (fusedProjectionShards (projName suffix)) (parent (mtpName i suffix)) := by
  rw [deciding_own, firstFound_eq_nil_iff]
  simp only [List.mem_cons, List.not_mem_nil, or_false, forall_eq_or_imp, forall_eq,
    directFound_eq_nil_iff, packedFound_eq_nil_iff, underFound_eq_nil_iff,
    shardsFound_eq_nil_iff, expertsFound_eq_nil_iff]

/-- If neither find any, there are no entries. -/
theorem ownAlgo_of_eq_nil (hline : 10 ∉ suffix)
    (hnil : deciding keys packed prefixCandidates (mtpName (n + i) suffix) = [])
    (hnil' : deciding keys packed ([·]) (mtpName i suffix) = []) :
    OwnAlgo keys packed n i suffix := by
  obtain ⟨hd, hp, hu, he, hs⟩ := (deciding_global_eq_nil_iff hline).1 hnil
  obtain ⟨hd', hp', hu', he', hs'⟩ := deciding_own_eq_nil_iff.1 hnil'
  refine .none ?_ ?_ ?_
  · rintro c (hc | rfl)
    · exact ⟨hd c hc, hu c hc, hs c hc⟩
    · exact ⟨hd', hu', hs'⟩
  · rintro p (hp'' | rfl)
    · exact hp p hp''
    · exact hp'
  · rintro hexperts k (rfl | rfl)
    · exact he hexperts
    · exact he' hexperts

/-- If the same names decide, the condition holds: the first lookup that finds any with the
    index of the model finds those of the layer. -/
theorem ownAlgo_of_mem_iff (hn : 0 < n) (hline : 10 ∉ suffix)
    (h : ∀ k, k ∈ deciding keys packed prefixCandidates (mtpName (n + i) suffix) ↔
      k ∈ deciding keys packed ([·]) (mtpName i suffix)) : OwnAlgo keys packed n i suffix := by
  have hmine : ∀ k ∈ deciding keys packed prefixCandidates (mtpName (n + i) suffix),
      mtpName i [] <+: k := fun k hk => mtpName_of_mem_deciding ((h k).1 hk)
  by_cases hnil : deciding keys packed prefixCandidates (mtpName (n + i) suffix) = []
  · refine ownAlgo_of_eq_nil hline hnil (List.eq_nil_iff_forall_not_mem.2 fun k hk => ?_)
    rw [← h, hnil] at hk
    cases hk
  · rw [deciding_global] at h hmine hnil
    by_cases hd : directFound keys (prefixCandidates (mtpName (n + i) suffix)) = []
    case neg =>
      rw [firstFound_cons, if_neg hd] at hmine
      obtain ⟨hi, hown, hbefore⟩ := (directFound_own_iff hn hline).1 ⟨hd, hmine⟩
      exact .direct hi hown hbefore
    rw [firstFound_cons, if_pos hd] at h hmine hnil
    rw [directFound_eq_nil_iff] at hd
    simp only [mem_prefixCandidates hline] at hd
    by_cases hp : packedFound keys (packedShards packed suffix)
      (prefixCandidates (parent (mtpName (n + i) suffix))) = []
    case neg =>
      rw [firstFound_cons, if_neg hp] at hmine
      obtain ⟨⟨hdot, hi⟩, hown, hother⟩ := (packedFound_own_iff hn hline).1 ⟨hp, hmine⟩
      exact .packed hi hdot hd hown hother
    rw [firstFound_cons, if_pos hp] at h hmine hnil
    rw [packedFound_eq_nil_iff] at hp
    simp only [mem_prefixCandidates_parent hline] at hp
    by_cases hu : underFound keys (prefixCandidates (mtpName (n + i) suffix)) = []
    case neg =>
      rw [firstFound_cons, if_neg hu] at h hmine
      obtain ⟨hi, hown, hbefore⟩ := (underFound_own_iff hn hline).1 ⟨hu, hmine⟩
      refine .under hi hd hp hown hbefore fun shard hs hk => ?_
      have hmem := h (parent (mtpName i suffix) ++ str "." ++ shard)
      rw [deciding_own_of_packed (hd _ (offered_own hn hi)) ⟨shard, hs, hk⟩,
        shard_mem_present_iff hk, underFound_own hn hline hi hown hbefore] at hmem
      exact Option.mem_toList.1 (hmem.2 hs)
    rw [firstFound_cons, if_pos hu] at h hmine hnil
    rw [underFound_eq_nil_iff] at hu
    simp only [mem_prefixCandidates hline] at hu
    by_cases he : expertsFound keys (mtpName (n + i) suffix) = []
    case neg =>
      rw [firstFound_cons, if_neg he] at hmine
      obtain ⟨k, hk⟩ := List.exists_mem_of_ne_nil _ he
      exact absurd (hmine k hk) (not_own_of_expertsFound hn hk)
    rw [firstFound_cons, if_pos he, firstFound_singleton] at h hmine hnil
    obtain ⟨hi, hown, hbefore⟩ := (shardsFound_own_iff hn hline).1 ⟨hnil, hmine⟩
    refine .shards hi (fun c hc => ⟨hd c hc, hu c hc⟩) hp hown hbefore fun hpacked shard hk => ?_
    have hmem := h (parent (mtpName i suffix) ++ str "." ++ shard)
    rw [deciding_own_of_packed (hd _ (offered_own hn hi)) hpacked, shard_mem_present_iff hk,
      shardsFound_own hn hline hi hown hbefore, shard_mem_present_iff hk] at hmem
    exact hmem.symm

/-- If the condition holds, the same names decide. -/
theorem mem_iff_of_ownAlgo (hn : 0 < n) (hline : 10 ∉ suffix)
    (h : OwnAlgo keys packed n i suffix) (k : Str) :
    k ∈ deciding keys packed prefixCandidates (mtpName (n + i) suffix) ↔
      k ∈ deciding keys packed ([·]) (mtpName i suffix) := by
  have hdirect (hd : ∀ c, Offered n i suffix c → c ∉ keys) :
      directFound keys (prefixCandidates (mtpName (n + i) suffix)) = [] :=
    directFound_eq_nil_iff.2 fun c hc => hd c ((mem_prefixCandidates hline).1 hc)
  have hshards
      (hp : ∀ p, OfferedParent n i suffix p → ¬HasShard keys (packedShards packed suffix) p) :
      packedFound keys (packedShards packed suffix)
        (prefixCandidates (parent (mtpName (n + i) suffix))) = [] :=
    packedFound_eq_nil_iff.2 fun p hp' => hp p ((mem_prefixCandidates_parent hline).1 hp')
  rw [deciding_global]
  cases h with
  | direct hi hown hbefore =>
    have hne : present keys [mtpName i suffix] ≠ [] :=
      mt present_singleton_eq_nil_iff.1 (not_not.2 hown)
    rw [directFound_own hn hline hi hown hbefore, deciding_own, directFound_singleton,
      firstFound_cons, if_neg hne, firstFound_cons, if_neg hne]
  | packed hi hdot hd hown hother =>
    have hfound : packedFound keys (packedShards packed suffix)
        (prefixCandidates (parent (mtpName (n + i) suffix))) ≠ [] :=
      ((packedFound_own_iff hn hline).2 ⟨⟨hdot, hi⟩, hown, hother⟩).1
    rw [firstFound_cons, if_pos (hdirect hd), firstFound_cons, if_neg hfound,
      deciding_own_of_packed (hd _ (offered_own hn hi)) hown,
      mem_packedFound_own hn hline hdot hi hother]
  | under hi hd hp hown hbefore hsame =>
    have hne : (presentUnder keys (mtpName i suffix ++ str ".")).toList ≠ [] :=
      mt toList_presentUnder_eq_nil_iff.1 (not_not.2 hown)
    rw [firstFound_cons, if_pos (hdirect hd), firstFound_cons, if_pos (hshards hp),
      underFound_own hn hline hi hown hbefore, firstFound_cons, if_neg hne]
    by_cases hpacked : HasShard keys (packedShards packed suffix) (parent (mtpName i suffix))
    · rw [deciding_own_of_packed (hd _ (offered_own hn hi)) hpacked, Option.mem_toList,
        mem_present_shards]
      constructor
      · intro hk
        obtain ⟨shard, hs, hkeys⟩ := hpacked
        exact ⟨shard, hs, hkeys, Option.some.inj (hk.symm.trans (hsame shard hs hkeys))⟩
      · rintro ⟨shard, hs, hkeys, rfl⟩
        exact hsame shard hs hkeys
    · rw [deciding_own_of_under (hd _ (offered_own hn hi)) hpacked hown]
  | shards hi hnone hp hown hbefore hsame =>
    have hexperts : expertsFound keys (mtpName (n + i) suffix) = [] :=
      (expertsFound_eq_nil_iff _).2 fun h => absurd h (projName_ne_experts hown)
    have hunder : underFound keys (prefixCandidates (mtpName (n + i) suffix)) = [] :=
      underFound_eq_nil_iff.2 fun c hc => (hnone c ((mem_prefixCandidates hline).1 hc)).2
    obtain ⟨hd, hu⟩ := hnone _ (offered_own hn hi)
    rw [firstFound_cons, if_pos (hdirect fun c hc => (hnone c hc).1), firstFound_cons,
      if_pos (hshards hp), firstFound_cons, if_pos hunder, firstFound_cons, if_pos hexperts,
      firstFound_singleton, shardsFound_own hn hline hi hown hbefore]
    by_cases hpacked : HasShard keys (packedShards packed suffix) (parent (mtpName i suffix))
    · rw [deciding_own_of_packed hd hpacked, mem_present_shards, mem_present_shards]
      refine exists_congr fun shard => ?_
      exact ⟨fun ⟨hs, hk, heq⟩ => ⟨(hsame hpacked shard hk).2 hs, hk, heq⟩,
        fun ⟨hs, hk, heq⟩ => ⟨(hsame hpacked shard hk).1 hs, hk, heq⟩⟩
    · rw [deciding_own_of_shards hd hpacked hu hown]
  | none hnames hparents hexperts =>
    obtain ⟨hd, hu, hs⟩ := hnames _ (.inr rfl)
    have hown : deciding keys packed ([·]) (mtpName i suffix) = [] := deciding_own_eq_nil_iff.2
      ⟨hd, hparents _ (.inr rfl), hu, fun h => hexperts h i (.inr rfl), hs⟩
    have hglobal : deciding keys packed prefixCandidates (mtpName (n + i) suffix) = [] :=
      (deciding_global_eq_nil_iff hline).2 ⟨fun c hc => (hnames c (.inl hc)).1,
        fun p hp => hparents p (.inl hp), fun c hc => (hnames c (.inl hc)).2.1,
        fun h => hexperts h _ (.inl rfl), fun c hc => (hnames c (.inl hc)).2.2⟩
    rw [← deciding_global, hglobal, hown]

/-- What is found for the group size under one name. -/
def sizeFound (keys : List Str) (c : Str) : Option Str :=
  (if c ∈ keys then some c else none).or (presentUnder keys (c ++ str "."))

theorem sizeFound_eq_none_iff {c : Str} : sizeFound keys c = none ↔ ¬Covered keys c := by
  rw [sizeFound, Option.or_eq_none_iff, presentUnder_eq_none_iff, Covered, not_or]
  simp

theorem prefix_of_sizeFound {c k : Str} (h : sizeFound keys c = some k) : c <+: k := by
  rw [sizeFound, Option.or_eq_some_iff] at h
  rcases h with h | ⟨-, h⟩
  · split_ifs at h
    exact Option.some.inj h ▸ List.prefix_rfl
  · exact (List.prefix_append c _).trans (by simpa using List.find?_some h)

/-- The first name of several for which any is found. -/
theorem toList_findSome? (names : List Str) (find : Str → Option Str) :
    (names.findSome? find).toList = firstFound (names.map fun c => (find c).toList) := by
  induction names with
  | nil => rfl
  | cons c names ih =>
    rw [List.findSome?_cons, List.map_cons, firstFound_cons]
    cases find c with
    | none => simpa using ih
    | some k => simp

/-- The entry that decides on the group size is the layer's own one under the same condition. -/
theorem decidingSize_eq_iff (hn : 0 < n) (hline : 10 ∉ suffix) :
    decidingSize keys prefixCandidates (mtpName (n + i) suffix) =
      decidingSize keys ([·]) (mtpName i suffix) ↔ OwnSize keys n i suffix := by
  have hglobal : (decidingSize keys prefixCandidates (mtpName (n + i) suffix)).toList =
      firstFound ((prefixCandidates (mtpName (n + i) suffix)).map
        fun c => (sizeFound keys c).toList) := toList_findSome? _ _
  have hown : decidingSize keys ([·]) (mtpName i suffix) = sizeFound keys (mtpName i suffix) :=
    List.findSome?_singleton
  have hnone : decidingSize keys prefixCandidates (mtpName (n + i) suffix) = none ↔
      ∀ c, Offered n i suffix c → ¬Covered keys c := by
    rw [← Option.toList_eq_nil_iff, hglobal, firstFound_eq_nil_iff, List.forall_mem_map]
    simp only [Option.toList_eq_nil_iff, sizeFound_eq_none_iff, mem_prefixCandidates hline]
  rw [hown]
  constructor
  · intro h
    by_cases hcovered : Covered keys (mtpName i suffix)
    · -- What is found is of the layer, so its name is the first one that has any.
      obtain ⟨k, hk⟩ := Option.ne_none_iff_exists'.1
        (mt sizeFound_eq_none_iff.1 (not_not.2 hcovered))
      have hmine := (mtpName_isPrefixOf i suffix).trans (prefix_of_sizeFound hk)
      rw [h, hk, Option.toList_some] at hglobal
      have hfirst := (firstFound_candidates_iff hn hline (fun c => (sizeFound keys c).toList)
        (fun k hk => (mtpName_isPrefixOf i suffix).trans
          (prefix_of_sizeFound (Option.mem_toList.1 hk)))
        fun c hc _ k hk => hc k (prefix_of_sizeFound (Option.mem_toList.1 hk))).1
        (hglobal ▸ ⟨List.cons_ne_nil _ _, List.forall_mem_singleton.2 hmine⟩)
      simp only [Option.toList_eq_nil_iff, sizeFound_eq_none_iff] at hfirst
      exact .own hfirst.1 hcovered hfirst.2.2
    · rw [sizeFound_eq_none_iff.2 hcovered, hnone] at h
      refine .none ?_
      rintro c (hc | rfl)
      · exact h c hc
      · exact hcovered
  · rintro (⟨hi, hcovered, hbefore⟩ | habsent)
    · have hne := mt sizeFound_eq_none_iff.1 (not_not.2 hcovered)
      have hfound := firstFound_candidates hn hline hi (mt Option.toList_eq_nil_iff.1 hne)
        fun c hc => Option.toList_eq_nil_iff.2 (sizeFound_eq_none_iff.2 (hbefore c hc))
      refine Option.ext fun k => ?_
      rw [← Option.mem_toList, hglobal, hfound, Option.mem_toList]
    · rw [hnone.2 fun c hc => habsent c (.inl hc),
        sizeFound_eq_none_iff.2 (habsent _ (.inr rfl))]

end Decide

/-- A draft layer is resolved as its own entries say, whatever they and the others say, if
    and only if these are the first ones that are found. -/
theorem mtp_resolves_iff (keys : List Str) (packed : Packed) {n : Nat} (hn : 0 < n) (i : Nat)
    {suffix : Str} (hline : 10 ∉ suffix) :
    (∀ q : QuantizedLayers, q.keys = keys →
      (resolveQuantAlgo q packed prefixCandidates (mtpName (n + i) suffix)).toOption =
        (resolveQuantAlgo q packed ([·]) (mtpName i suffix)).toOption ∧
      quantizedLayerGroupSize q prefixCandidates (mtpName (n + i) suffix) =
        quantizedLayerGroupSize q ([·]) (mtpName i suffix)) ↔
    OwnFirst keys packed n i suffix := by
  constructor
  · intro h
    have halgo (infos : Str → LayerInfo) := (h _ (keys_entries keys infos)).1
    have hsize (infos : Str → LayerInfo) := (h _ (keys_entries keys infos)).2
    simp only [resolveQuantAlgo_entries] at halgo
    simp only [quantizedLayerGroupSize_entries] at hsize
    exact ⟨ownAlgo_of_mem_iff hn hline fun k =>
        ⟨mem_of_forall halgo, mem_of_forall fun infos => (halgo infos).symm⟩,
      (decidingSize_eq_iff hn hline).1 (eq_of_forall hsize)⟩
  · intro h q hq
    subst hq
    rw [resolveQuantAlgo_eq, resolveQuantAlgo_eq, quantizedLayerGroupSize_eq,
      quantizedLayerGroupSize_eq, (decidingSize_eq_iff hn hline).2 h.size]
    refine ⟨toOption_fusedAlgo_congr fun info => ?_, rfl⟩
    simp only [List.mem_filterMap, mem_iff_of_ownAlgo hn hline h.algo]

/-- Two draft layers, with an entry for another module each. -/
def oneModuleEach : QuantizedLayers :=
  [(str "mtp.layers.0.mlp.down_proj", ⟨str "FP8", .none⟩),
    (str "mtp.layers.1.mlp.experts", ⟨str "NVFP4", .int 16⟩)]

/-- The second one is resolved as its own entry says, behind 48 layers of the model. -/
theorem mtp_resolves_oneModuleEach :
    (resolveQuantAlgo oneModuleEach (fun _ => none) prefixCandidates
        (mtpName (48 + 1) (str "mlp.experts"))).toOption =
      (resolveQuantAlgo oneModuleEach (fun _ => none) ([·])
        (mtpName 1 (str "mlp.experts"))).toOption ∧
    quantizedLayerGroupSize oneModuleEach prefixCandidates
        (mtpName (48 + 1) (str "mlp.experts")) =
      quantizedLayerGroupSize oneModuleEach ([·]) (mtpName 1 (str "mlp.experts")) := by
  have hown : mtpName 1 (str "mlp.experts") ∈ oneModuleEach.keys := by decide +kernel
  have hbefore : ∀ c, Before 48 1 (str "mlp.experts") c →
      c ∉ oneModuleEach.keys ∧ ¬Under oneModuleEach.keys c := by
    unfold Under
    rintro c (rfl | ⟨hhead, -⟩ | ⟨j, hj, rfl⟩)
    · decide +kernel
    · exact absurd hhead (by decide +kernel)
    · obtain rfl : j = 0 := by omega
      decide +kernel
  exact (mtp_resolves_iff oneModuleEach.keys (fun _ => none) (by decide) 1 (by decide)).2
    ⟨.direct (by decide) hown fun c hc => (hbefore c hc).1,
      .own (by decide) (.inl hown) fun c hc => not_or.2 (hbefore c hc)⟩ _ rfl

/-- The experts of two draft layers, quantized in different ways. -/
def twoDraftLayers : QuantizedLayers :=
  [(str "mtp.layers.0.mlp.experts", ⟨str "FP8", .none⟩),
    (str "mtp.layers.1.mlp.experts", ⟨str "NVFP4", .int 16⟩)]

/-- The second one is resolved as the first one, behind 48 layers of the model. -/
theorem mtp_resolves_second_not :
    ¬((resolveQuantAlgo twoDraftLayers (fun _ => none) prefixCandidates
          (mtpName (48 + 1) (str "mlp.experts"))).toOption =
        (resolveQuantAlgo twoDraftLayers (fun _ => none) ([·])
          (mtpName 1 (str "mlp.experts"))).toOption ∧
      quantizedLayerGroupSize twoDraftLayers prefixCandidates
          (mtpName (48 + 1) (str "mlp.experts")) =
        quantizedLayerGroupSize twoDraftLayers ([·]) (mtpName 1 (str "mlp.experts"))) := by
  decide +kernel

end FlashNext.Quant
