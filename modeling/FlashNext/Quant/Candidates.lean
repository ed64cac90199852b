import FlashNext.Quant.Mixed

/-!
# The names of a draft layer

The model numbers the draft layers from the number of its layers on, the entries of
`quantized_layers` from `0`. So a draft layer is looked up with every draft-local index up
to a bound, not with its own only.

* `mem_prefixCandidates`, `mem_prefixCandidates_parent`: the names that a module of a draft
  layer, and what it is in, are looked up under (`Offered`, `OfferedParent`);
* `mem_takeWhile_prefixCandidates`: those that come before its own one (`Before`);
* `other_of_offered`: what is found for a name that is not the own one is of another layer.
-/

namespace FlashNext.Quant

open Python Safetensors

/-- `mtp.layers.{k}.{suffix}`. -/
def mtpName (k : Nat) (suffix : Str) : Str :=
  str "mtp.layers." ++ str (toString k) ++ str "." ++ suffix

theorem takeWhile_toString (k : Nat) (rest : Str) :
    (str (toString k) ++ 46 :: rest).takeWhile (fun c => (digitVal c).isSome) =
      str (toString k) := by
  rw [List.takeWhile_append_of_pos fun c hc => isSome_digitVal_of_mem hc,
    List.takeWhile_cons_of_neg (by decide), List.append_nil]

theorem mtpName_eq (k : Nat) (suffix : Str) :
    mtpName k suffix = str "mtp.layers." ++ (str (toString k) ++ 46 :: suffix) := by
  simp [mtpName]
  rfl

/-- The name of a draft layer matches. -/
theorem matchMtp_mtpName (k : Nat) {suffix : Str} (h : 10 ∉ suffix) :
    matchMtp (mtpName k suffix) = some (str "mtp.layers.", str (toString k), 46 :: suffix) := by
  have hdrop : (mtpName k suffix).drop (str "mtp.layers.").length =
      str (toString k) ++ 46 :: suffix := by rw [mtpName_eq, List.drop_left]
  have hstart : (str "mtp.layers.").isPrefixOf (mtpName k suffix) := by
    simp [mtpName_eq]
  have hlast : (46 :: suffix).getLast? ≠ some 10 := by
    intro hlast
    have hmem : 10 ∈ 46 :: suffix := List.mem_of_getLast? hlast
    exact h (by simpa using hmem)
  -- The match is at the start: the prefix before it is empty.
  obtain ⟨c, s, hcons⟩ : ∃ c s, mtpName k suffix = c :: s := by
    rw [mtpName_eq]
    exact ⟨_, _, rfl⟩
  rw [hcons] at hdrop hstart ⊢
  simp only [matchMtp, hdrop, takeWhile_toString, List.drop_left, if_neg hlast, hstart,
    List.head?_cons]
  exact if_pos ⟨trivial, str_toString_ne_nil k, trivial, by simpa using h⟩

/-- The names before one that occurs but once, when those that have occurred are left out. -/
theorem takeWhile_eraseDups {xs ys : List Str} {x : Str} (h : x ∉ xs) :
    ((xs ++ x :: ys).eraseDups).takeWhile (· ≠ x) = xs.eraseDups := by
  have hremove : (x :: ys).removeAll xs = x :: ys.removeAll xs := by
    simp [List.removeAll, h]
  rw [List.eraseDups_append, hremove, List.eraseDups_cons,
    List.takeWhile_append_of_pos fun c hc => ?_, List.takeWhile_cons_of_neg (by simp),
    List.append_nil]
  exact decide_eq_true fun heq => h (List.mem_eraseDups.1 (heq ▸ hc))

/-- The indices that a draft layer is looked up with, in order. -/
theorem prefixCandidates_mtpName (k : Nat) {suffix : Str} (h : 10 ∉ suffix) :
    prefixCandidates (mtpName k suffix) = ([mtpName k suffix] ++
      (if (str ".lm_head").isSuffixOf (mtpName k suffix) then [str "lm_head"] else []) ++
      ((List.range (min k 8 + 1)).filter (· ≠ k)).map (mtpName · suffix)).eraseDups := by
  have hother : (str "language_model.model.").isPrefixOf (mtpName k suffix) = false := rfl
  have hother' : (str "model.language_model.").isPrefixOf (mtpName k suffix) = false := rfl
  have hname (j : Nat) : str "mtp.layers." ++ str (toString j) ++ 46 :: suffix =
      mtpName j suffix := by rw [mtpName_eq, List.append_assoc]
  simp only [prefixCandidates, matchMtp_mtpName k h, intOf_toString, hother, hother', hname,
    Bool.false_eq_true, if_false, List.append_nil]

/-- A name without an `m` does not match. -/
theorem matchMtp_eq_none {s : Str} (h : 109 ∉ s) : matchMtp s = none := by
  induction s with
  | nil => rfl
  | cons c s ih =>
    rw [List.mem_cons, not_or] at h
    have hstart : ¬(str "mtp.layers.").isPrefixOf (c :: s) := by
      intro hp
      obtain ⟨r, hr⟩ : str "mtp.layers." <+: c :: s := by simpa using hp
      exact h.1 (List.cons.inj hr).1
    simp only [matchMtp, hstart, Bool.false_eq_true, false_and, if_false, ih h.2, Option.map_none,
      ite_self]

/-- The name of a layer does not match: nothing comes behind the index. -/
theorem matchMtp_layer (k : Nat) : matchMtp (str "mtp.layers." ++ str (toString k)) = none := by
  have hdigits : ∀ c ∈ str (toString k), (digitVal c).isSome := fun c => isSome_digitVal_of_mem
  have htake : (str (toString k)).takeWhile (fun c => (digitVal c).isSome) = str (toString k) :=
    List.takeWhile_eq_self_iff.2 hdigits
  have hrest : 109 ∉ str "tp.layers." ++ str (toString k) := by
    rw [List.mem_append, not_or]
    exact ⟨by decide, fun h => absurd (hdigits 109 h) (by decide)⟩
  have hcons : str "mtp.layers." ++ str (toString k) =
      109 :: (str "tp.layers." ++ str (toString k)) := rfl
  have hdrop : (109 :: (str "tp.layers." ++ str (toString k))).drop (str "mtp.layers.").length =
      str (toString k) := by rw [← hcons, List.drop_left]
  rw [hcons]
  simp only [matchMtp, hdrop, htake, List.drop_length, List.getLast?_nil, List.head?_nil,
    reduceCtorEq, false_and, and_false, if_false, matchMtp_eq_none hrest, Option.map_none, ite_self]

theorem rpartition_mtpName (k : Nat) (base : Str) {last : Str} (h : 46 ∉ last) :
    rpartition (mtpName k (base ++ 46 :: last)) = (mtpName k base, last) := by
  have hname : mtpName k (base ++ 46 :: last) = mtpName k base ++ 46 :: last := by
    simp [mtpName]
  rw [hname, rpartition_append _ h]

theorem parent_mtpName (k : Nat) (base : Str) {last : Str} (h : 46 ∉ last) :
    parent (mtpName k (base ++ 46 :: last)) = mtpName k base := by
  have hdot : 46 ∈ mtpName k (base ++ 46 :: last) := by simp [mtpName_eq]
  rw [parent, if_pos hdot, rpartition_mtpName k base h]

/-- A name is that of one draft layer. -/
theorem eq_of_mtpName {j j' : Nat} {s s' k : Str} (h : mtpName j s <+: k)
    (h' : mtpName j' s' <+: k) : j = j' := by
  obtain ⟨r, rfl⟩ := h
  obtain ⟨r', heq⟩ := h'
  simp only [mtpName_eq, List.append_assoc, List.cons_append, List.append_cancel_left_eq] at heq
  have hdigits := congrArg (List.takeWhile fun c => (digitVal c).isSome) heq
  rw [takeWhile_toString, takeWhile_toString] at hdigits
  rw [← intOf_toString j, ← intOf_toString j', hdigits]

theorem mtpName_inj {j j' : Nat} {s : Str} (h : mtpName j s = mtpName j' s) : j = j' := by
  have hstart : mtpName j' s <+: mtpName j s := h ▸ List.prefix_rfl
  exact eq_of_mtpName List.prefix_rfl hstart

theorem mtpName_ne_lmHead (j : Nat) (s : Str) : mtpName j s ≠ str "lm_head" := by
  intro h
  have hhead : some 109 = some 108 := congrArg List.head? h
  simp at hhead

/-- The experts of a module. -/
theorem rpartition_of_stripSuffix {name p : Str} (h : stripSuffix? name ".experts" = some p) :
    rpartition name = (p, str "experts") := by
  unfold stripSuffix? at h
  split_ifs at h with hs
  obtain rfl := Option.some.inj h
  obtain ⟨t, rfl⟩ : str ".experts" <:+ name := by simpa using hs
  have hdot : 46 ∉ str "experts" := by decide
  have hexperts : rpartition (t ++ str ".experts") = (t, str "experts") := rpartition_append t hdot
  rw [hexperts]
  simp

/-- A suffix is a module of the layer, or in a module of it. -/
theorem suffix_cases (suffix : Str) :
    46 ∉ suffix ∨ ∃ base last, 46 ∉ last ∧ suffix = base ++ 46 :: last := by
  by_cases hdot : 46 ∈ suffix
  · obtain ⟨last, base, hrev, hlast⟩ := List.eq_append_cons_of_mem (List.mem_reverse.2 hdot)
    refine .inr ⟨base.reverse, last.reverse, mt List.mem_reverse.1 hlast, ?_⟩
    rw [← List.reverse_reverse suffix, hrev]
    simp
  · exact .inl hdot

/-- A module of the layer. -/
theorem rpartition_mtpName_of_not_mem (k : Nat) {suffix : Str} (h : 46 ∉ suffix) :
    rpartition (mtpName k suffix) = (str "mtp.layers." ++ str (toString k), suffix) := by
  rw [mtpName_eq, ← List.append_assoc, rpartition_append _ h]

/-- The last part of the name of a module of a draft layer. -/
def projName (suffix : Str) : Str := (rpartition suffix).2

theorem rpartition_mtpName_snd (k : Nat) (suffix : Str) :
    (rpartition (mtpName k suffix)).2 = projName suffix := by
  rcases suffix_cases suffix with hdot | ⟨base, last, hlast, rfl⟩
  · have hnone : suffix.reverse.dropWhile (· ≠ 46) = [] := by
      rw [List.dropWhile_eq_nil_iff]
      exact fun c hc => decide_eq_true fun heq => hdot (heq ▸ List.mem_reverse.1 hc)
    rw [rpartition_mtpName_of_not_mem k hdot, projName, rpartition, hnone]
  · rw [rpartition_mtpName k base hlast, projName, rpartition_append _ hlast]

theorem parent_mtpName_eq (k : Nat) (suffix : Str) :
    parent (mtpName k suffix) = (rpartition (mtpName k suffix)).1 := by
  rw [parent, if_pos (by simp [mtpName_eq])]

/-- What a module of a draft layer is in is the layer, or in it. -/
theorem mtpName_parent (k : Nat) (suffix : Str) :
    mtpName k [] <+: parent (mtpName k suffix) ++ str "." := by
  rw [parent_mtpName_eq]
  rcases suffix_cases suffix with hdot | ⟨base, last, hlast, rfl⟩
  · rw [rpartition_mtpName_of_not_mem k hdot]
    exact ⟨[], by simp [mtpName]⟩
  · rw [rpartition_mtpName k base hlast]
    exact ⟨base ++ str ".", by simp [mtpName]⟩

theorem parent_append (k : Nat) (suffix : Str) :
    parent (mtpName k suffix) ++ 46 :: projName suffix = mtpName k suffix := by
  rw [parent_mtpName_eq, ← rpartition_mtpName_snd k]
  rcases suffix_cases suffix with hdot | ⟨base, last, hlast, rfl⟩
  · rw [rpartition_mtpName_of_not_mem k hdot, mtpName_eq, List.append_assoc]
  · rw [rpartition_mtpName k base hlast]
    simp [mtpName]

/-- The experts of a module, and what they are in. -/
theorem stripSuffix_mtpName (k : Nat) (suffix : Str) :
    stripSuffix? (mtpName k suffix) ".experts" =
      if projName suffix = str "experts" then some (parent (mtpName k suffix)) else none := by
  cases h : stripSuffix? (mtpName k suffix) ".experts" with
  | some p =>
    rw [parent_mtpName_eq, ← rpartition_mtpName_snd k, rpartition_of_stripSuffix h, if_pos rfl]
  | none =>
    rw [if_neg]
    intro hexperts
    have hsuffix : (str ".experts").isSuffixOf (mtpName k suffix) := by
      rw [List.isSuffixOf_iff_suffix, ← parent_append k suffix, hexperts]
      exact List.suffix_append _ _
    simp [stripSuffix?, hsuffix] at h

/-! ## The names that a draft layer is looked up under -/

section Names

variable (n i : Nat) (suffix : Str)

/-- The names that the module `suffix` of the draft layer `i` is looked up under, with `n`
    layers before the draft layers: with the index of the model, that of the head, and with
    the draft-local indices up to `8`. -/
def Offered (c : Str) : Prop :=
  c = mtpName (n + i) suffix ∨
  ((str ".lm_head").isSuffixOf (mtpName (n + i) suffix) ∧ c = str "lm_head") ∨
  ∃ j ≤ 8, j < n + i ∧ c = mtpName j suffix

/-- Those that come before its own one. -/
def Before (c : Str) : Prop :=
  c = mtpName (n + i) suffix ∨
  ((str ".lm_head").isSuffixOf (mtpName (n + i) suffix) ∧ c = str "lm_head") ∨
  ∃ j < i, c = mtpName j suffix

/-- The names that what the module is in is looked up under: there are draft-local ones if
    it is not the layer itself. -/
def OfferedParent (p : Str) : Prop :=
  p = parent (mtpName (n + i) suffix) ∨
  ((str ".lm_head").isSuffixOf (parent (mtpName (n + i) suffix)) ∧ p = str "lm_head") ∨
  46 ∈ suffix ∧ ∃ j ≤ 8, j < n + i ∧ p = parent (mtpName j suffix)

variable {n i suffix} {c : Str}

theorem mem_ite_singleton {p : Prop} [Decidable p] {x : Str} :
    c ∈ (if p then [x] else []) ↔ p ∧ c = x := by
  split_ifs with h <;> simp [h]

theorem mem_prefixCandidates (h : 10 ∉ suffix) :
    c ∈ prefixCandidates (mtpName (n + i) suffix) ↔ Offered n i suffix c := by
  have hrange (j : Nat) : j < min (n + i) 8 + 1 ∧ j ≠ n + i ↔ j ≤ 8 ∧ j < n + i := by omega
  simp only [prefixCandidates_mtpName _ h, Offered, List.mem_eraseDups, List.mem_append,
    List.mem_singleton, List.mem_map, List.mem_filter, List.mem_range, decide_eq_true_eq,
    mem_ite_singleton, hrange, or_assoc, and_assoc, eq_comm (b := c)]

/-- The own name is looked up if its index is not above the bound. -/
theorem own_mem_prefixCandidates (hn : 0 < n) (h : 10 ∉ suffix) :
    mtpName i suffix ∈ prefixCandidates (mtpName (n + i) suffix) ↔ i ≤ 8 := by
  rw [mem_prefixCandidates h]
  constructor
  · rintro (hglobal | ⟨-, hhead⟩ | ⟨j, hj, -, hown⟩)
    · have := mtpName_inj hglobal
      omega
    · exact absurd hhead (mtpName_ne_lmHead i suffix)
    · rwa [mtpName_inj hown]
  · exact fun hi => .inr (.inr ⟨i, hi, by omega, rfl⟩)

/-- What comes before it. -/
theorem mem_takeWhile_prefixCandidates (hn : 0 < n) (h : 10 ∉ suffix) (hi : i ≤ 8) :
    c ∈ (prefixCandidates (mtpName (n + i) suffix)).takeWhile (· ≠ mtpName i suffix) ↔
      Before n i suffix c := by
  -- The own index is behind those of the draft layers before it.
  obtain ⟨r, hr⟩ := Nat.exists_eq_add_of_le (show i + 1 ≤ min (n + i) 8 + 1 by omega)
  have hrange : (List.range (min (n + i) 8 + 1)).filter (· ≠ n + i) = List.range i ++ i ::
      ((List.range r).map (i + 1 + ·)).filter (· ≠ n + i) := by
    have hbefore : (List.range i).filter (· ≠ n + i) = List.range i := by
      refine List.filter_eq_self.2 fun j hj => decide_eq_true ?_
      have := List.mem_range.1 hj
      omega
    rw [hr, List.range_add, List.range_succ, List.filter_append, List.filter_append, hbefore,
      List.filter_cons_of_pos (by simpa using hn.ne'), List.filter_nil, List.append_assoc]
    rfl
  have hown : mtpName i suffix ∉ [mtpName (n + i) suffix] ++
      (if (str ".lm_head").isSuffixOf (mtpName (n + i) suffix) then [str "lm_head"] else []) ++
      (List.range i).map (mtpName · suffix) := by
    simp only [List.mem_append, List.mem_singleton, mem_ite_singleton, List.mem_map,
      List.mem_range]
    rintro ((hglobal | ⟨-, hhead⟩) | ⟨j, hj, hown⟩)
    · have := mtpName_inj hglobal
      omega
    · exact mtpName_ne_lmHead i suffix hhead
    · have := mtpName_inj hown
      omega
  rw [prefixCandidates_mtpName _ h, hrange, List.map_append, List.map_cons, ← List.append_assoc,
    takeWhile_eraseDups hown]
  simp only [Before, List.mem_eraseDups, List.mem_append, List.mem_singleton, List.mem_map,
    List.mem_range, mem_ite_singleton, or_assoc, eq_comm (b := c)]

theorem mem_prefixCandidates_parent (h : 10 ∉ suffix) :
    c ∈ prefixCandidates (parent (mtpName (n + i) suffix)) ↔ OfferedParent n i suffix c := by
  rcases suffix_cases suffix with hdot | ⟨base, last, hlast, rfl⟩
  · -- The layer itself has no other index.
    have hparent : parent (mtpName (n + i) suffix) =
        str "mtp.layers." ++ str (toString (n + i)) := by
      rw [parent_mtpName_eq, rpartition_mtpName_of_not_mem _ hdot]
    have hother : (str "language_model.model.").isPrefixOf
        (str "mtp.layers." ++ str (toString (n + i))) = false := rfl
    have hother' : (str "model.language_model.").isPrefixOf
        (str "mtp.layers." ++ str (toString (n + i))) = false := rfl
    simp only [OfferedParent, hparent, hdot, false_and, or_false, prefixCandidates, matchMtp_layer,
      hother, hother', Bool.false_eq_true, if_false, List.append_nil, List.mem_eraseDups,
      List.mem_append, List.mem_singleton, mem_ite_singleton]
  · have hline : 10 ∉ base := fun hmem => h (List.mem_append_left _ hmem)
    have hdot : 46 ∈ base ++ 46 :: last := by simp
    simp only [OfferedParent, parent_mtpName _ base hlast, hdot, true_and,
      mem_prefixCandidates hline, Offered]

end Names

/-! ## The layer of a name -/

/-- No name that starts with the text is one of the draft layer. -/
def Other (i : Nat) (start : Str) : Prop := ∀ k, start <+: k → ¬mtpName i [] <+: k

section Layers

variable {n i j : Nat} {suffix start c p : Str}

theorem other_of_mtpName (hj : j ≠ i) (h : mtpName j [] <+: start) : Other i start :=
  fun _ hk hown => hj (eq_of_mtpName (h.trans hk) hown)

theorem other_of_lmHead (h : str "lm_head" <+: start) : Other i start := by
  intro k hk hown
  obtain ⟨r, rfl⟩ := h.trans hk
  obtain ⟨r', hr⟩ := hown
  have hhead : some 109 = some 108 := congrArg List.head? hr
  simp at hhead

theorem mtpName_isPrefixOf (j : Nat) (suffix : Str) : mtpName j [] <+: mtpName j suffix :=
  ⟨suffix, by simp [mtpName]⟩

/-- What is found for another name than the own one is of another layer. -/
theorem other_of_offered (hn : 0 < n) (h : Offered n i suffix c) (hne : c ≠ mtpName i suffix) :
    Other i c ∧ Other i (parent c ++ str ".") := by
  rcases h with rfl | ⟨-, rfl⟩ | ⟨j, -, -, rfl⟩
  · have hj : n + i ≠ i := by omega
    exact ⟨other_of_mtpName hj (mtpName_isPrefixOf _ _), other_of_mtpName hj (mtpName_parent _ _)⟩
  · exact ⟨other_of_lmHead List.prefix_rfl, other_of_lmHead (by decide)⟩
  · have hj : j ≠ i := fun hj => hne (hj ▸ rfl)
    exact ⟨other_of_mtpName hj (mtpName_isPrefixOf _ _), other_of_mtpName hj (mtpName_parent _ _)⟩

/-- So it is for another name of what it is in. -/
theorem other_of_offeredParent (hn : 0 < n) (h : OfferedParent n i suffix p)
    (hne : p ≠ parent (mtpName i suffix)) : Other i (p ++ str ".") := by
  rcases h with rfl | ⟨-, rfl⟩ | ⟨-, j, -, -, rfl⟩
  · exact other_of_mtpName (show n + i ≠ i by omega) (mtpName_parent _ _)
  · exact other_of_lmHead (List.prefix_append _ _)
  · exact other_of_mtpName (fun hj => hne (hj ▸ rfl)) (mtpName_parent _ _)

/-- The own name of what it is in is looked up if the module is not in the layer itself, and
    the index is not above the bound. -/
theorem offeredParent_own_iff (hn : 0 < n) :
    OfferedParent n i suffix (parent (mtpName i suffix)) ↔ 46 ∈ suffix ∧ i ≤ 8 := by
  have hmine := mtpName_parent i suffix
  constructor
  · rintro (hglobal | ⟨-, hhead⟩ | ⟨hdot, j, hj, -, hown⟩)
    · rw [hglobal] at hmine
      have := eq_of_mtpName hmine (mtpName_parent (n + i) suffix)
      omega
    · rw [hhead] at hmine
      exact absurd hmine (other_of_lmHead (List.prefix_append _ _) _ List.prefix_rfl)
    · rw [hown] at hmine
      rw [eq_of_mtpName hmine (mtpName_parent j suffix)]
      exact ⟨hdot, hj⟩
  · exact fun ⟨hdot, hi⟩ => .inr (.inr ⟨hdot, i, hi, by omega, rfl⟩)

end Layers

end FlashNext.Quant
