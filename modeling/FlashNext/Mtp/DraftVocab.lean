import Mathlib.Algebra.Order.Ring.Defs
import Mathlib.Data.Fin.VecNotation
import Mathlib.Data.List.MinMax
import Mathlib.Data.Matrix.Mul
import FlashNext.Chunks
import FlashNext.Python.Text
import FlashNext.Returns
import FlashNext.System

/-!
# The reduced vocabulary of the draft head

`_draft_vocab_ids` and `_reduced_vocab_logits` of `mtp_draft_vocab.py`: the draft
head computes the logits of some selected tokens only. Every rank has the rows of
a range of the ids. It multiplies those of them that are selected, and writes the
results into the columns that they have in the selection; the ranks add up their
columns, and put them into the places of their ids in a row of `-inf`.

* `draftVocabIds_spec`: what a selection is;
* `reduced_eq_full`: in every call, with cached rows or not, the logits of the
  selected ids are those of the full head, scaled, and the argmax is the one of
  the full head among them.

The arithmetic is exact: logits are in an ordered semiring, with `⊥` for `-inf`.
-/

namespace FlashNext.Mtp

open Python

/-! ## The selection -/

/-- `_draft_vocab_ids`, with the value of `QWEN4EXP_DRAFT_VOCAB` and the texts of
    the files. -/
def draftVocabIds (environ : Option Str) (readText : Str → Except Err Str) (vocabSize : Nat) :
    Except Err (List Nat) :=
  let value := environ.getD (str "0")
  if value = [] ∨ value = str "0" then .ok []
  else if isDecimal value then do
    let count ← int value
    if ¬(0 < count ∧ count ≤ vocabSize) then throw .valueError
    return List.range count.toNat
  else do
    let text ← readText value
    let ids ← ((splitlines text).filter fun line => strip line ≠ []).mapM int
    let ids := unique ids
    match ids.head?, ids.getLast? with
    | some first, some last =>
      if first < 0 ∨ (vocabSize : Int) ≤ last then throw .valueError
      else return ids.map Int.toNat
    | _, _ => throw .valueError

/-! ## The head -/

variable {R : Type*} {d : Nat}

/-- The part of the head that a rank has: the ids from `start` up to `stop`, with
    their rows and then the padding of the slice. -/
structure HeadRank (R : Type*) (d : Nat) where
  /-- `org_vocab_start_index`. -/
  start : Nat
  /-- `org_vocab_end_index`. -/
  stop : Nat
  weight : List (Fin d → R)

/-- `_draft_vocab_cache`. -/
structure Cache (R : Type*) (d : Nat) where
  ids : List Nat
  /-- The columns of the selection that the rank computes. -/
  positions : List Nat
  w : List (Fin d → R)

/-- A batch of hidden states. -/
abbrev Batch (R : Type*) (d : Nat) := List (Fin d → R)

/-- `F.linear(hidden, w)`, for one hidden state. -/
def linear [Semiring R] (h : Fin d → R) (w : List (Fin d → R)) : List R := w.map (dotProduct h)

/-- The cache that a rank makes for the selected ids. -/
def HeadRank.makeCache (rank : HeadRank R d) (ids : List Nat) : Except Err (Cache R d) := do
  let positions := (List.range ids.length).filter fun c =>
    rank.start ≤ ids.getD c 0 ∧ ids.getD c 0 < rank.stop
  -- `index_select` refuses an index past the slice.
  let w ← positions.mapM fun c =>
    match rank.weight[ids.getD c 0 - rank.start]? with
    | some row => .ok row
    | none => .error .indexError
  return ⟨ids, positions, w⟩

/-- `small`: the columns of the rank, and zeros. -/
def Cache.small [Semiring R] (cache : Cache R d) (k : Nat) (hidden : Batch R d) : List (List R) :=
  hidden.map fun h =>
    let zeros := List.replicate k 0
    if cache.w.length ≠ 0 then put zeros cache.positions (linear h cache.w) else zeros

/-- `tensor_model_parallel_all_reduce`: the sum of `n` rows of `k` columns over the
    ranks. -/
def allReduce [Semiring R] (n k : Nat) (smalls : List (List (List R))) : List (List R) :=
  (List.range n).map fun a => (List.range k).map fun c =>
    (smalls.map fun small => (small.getD a []).getD c 0).sum

/-- The model with the draft head. -/
structure DraftHead (R : Type*) [Semiring R] [LinearOrder R] (d : Nat) where
  /-- `config.vocab_size`. -/
  vocabSize : Nat
  /-- `_draft_token_ids`. -/
  draftTokenIds : List Nat
  /-- `logits_processor.scale`. -/
  scale : R
  scale_pos : 0 < scale
  ranks : List (HeadRank R d)
  /-- `lm_head` has a weight: it is not that of another stage of the pipeline. -/
  hasWeight : Bool
  /-- `logits_processor`, which computes the logits of the full head. -/
  logitsProcessor : Batch R d → List (List (WithBot R))

section Head

variable [Semiring R] [LinearOrder R]

namespace DraftHead

variable (model : DraftHead R d)

/-- `full`: the columns at the places of their ids, and `-inf`. -/
def full (ids : List Nat) (small : List (List R)) : List (List (WithBot R)) :=
  let full := small.map fun row => put (List.replicate model.vocabSize ⊥) ids (row.map (↑))
  if model.scale ≠ 1 then full.map fun row => row.map (WithBot.map (· * model.scale)) else full

/-- `_reduced_vocab_logits`, on all ranks, with the cache of each: the caches after
    the call, and what each rank returns. -/
def reducedVocabLogits (caches : List (Option (Cache R d))) (hidden : Batch R d) :
    Except Err (List (Cache R d) × List (List (List (WithBot R)))) := do
  let caches ← (model.ranks.zip caches).mapM fun rc =>
    match rc.2 with
    | some cache => .ok cache
    | none => rc.1.makeCache model.draftTokenIds
  let k := model.draftTokenIds.length
  let smalls := caches.map fun cache => cache.small k hidden
  let reduced :=
    if 1 < model.ranks.length then smalls.map fun _ => allReduce hidden.length k smalls else smalls
  return (caches, (caches.zip reduced).map fun cs => model.full cs.1.ids cs.2)

/-- `compute_logits`, on all ranks. -/
def computeLogits (caches : List (Option (Cache R d))) (hidden : Batch R d) :
    Except Err (List (Option (Cache R d)) × List (List (List (WithBot R)))) :=
  if model.draftTokenIds = [] ∨ model.hasWeight = false then
    .ok (caches, model.ranks.map fun _ => model.logitsProcessor hidden)
  else (fun r => (r.1.map some, r.2)) <$> model.reducedVocabLogits caches hidden

/-- The calls, from a model without caches. -/
def calls : System (List (Option (Cache R d))) (Batch R d) where
  init caches := caches = model.ranks.map fun _ => none
  step caches hidden caches' := ∃ outs, model.computeLogits caches hidden = .ok (caches', outs)

end DraftHead

/-- `argmax`: the lowest of the ids with the greatest logit. -/
def argmax (logits : List (WithBot R)) : Option Nat :=
  (List.range logits.length).argmax fun id => logits.getD id ⊥

end Head

/-! ## What a selection is -/

/-- A selection has distinct ids of the vocabulary, in order. -/
theorem draftVocabIds_spec {environ : Option Str} {readText : Str → Except Err Str}
    {vocabSize : Nat} {ids : List Nat} (h : draftVocabIds environ readText vocabSize = .ok ids) :
    ids.Pairwise (· < ·) ∧ ∀ id ∈ ids, id < vocabSize := by
  simp only [draftVocabIds] at h
  split_ifs at h
  · obtain rfl := Except.ok.inj h
    exact ⟨.nil, List.forall_mem_nil _⟩
  · obtain ⟨count, -, h⟩ := bind_eq_ok.1 h
    split_ifs at h with hcount
    · obtain rfl := Except.ok.inj h
      refine ⟨List.pairwise_lt_range, fun id hid => ?_⟩
      have := List.mem_range.1 hid
      omega
    · cases h
  · obtain ⟨text, -, h⟩ := bind_eq_ok.1 h
    obtain ⟨lines, -, h⟩ := bind_eq_ok.1 h
    have hsorted := pairwise_unique lines
    split at h
    · rename_i first last hfirst hlast
      split_ifs at h with hrange
      obtain rfl := Except.ok.inj h
      -- The first id is the least one, and the last one the greatest.
      have hmem : ∀ x ∈ unique lines, 0 ≤ x ∧ x < vocabSize := by
        intro x hx
        obtain ⟨rest, hrest⟩ := List.head?_eq_some_iff.1 hfirst
        obtain ⟨before, hbefore⟩ := List.getLast?_eq_some_iff.1 hlast
        have hge : first ≤ x := by
          rw [hrest] at hsorted hx
          rcases List.mem_cons.1 hx with rfl | hx
          · exact le_rfl
          · exact ((List.pairwise_cons.1 hsorted).1 x hx).le
        have hle : x ≤ last := by
          rw [hbefore] at hsorted hx
          rcases List.mem_append.1 hx with hx | hx
          · exact ((List.pairwise_append.1 hsorted).2.2 x hx last (List.mem_singleton_self _)).le
          · exact (List.mem_singleton.1 hx).le
        omega
      refine ⟨List.pairwise_map.2 (hsorted.imp_of_mem fun hx hy hlt => ?_), fun id hid => ?_⟩
      · have := hmem _ hx
        omega
      · obtain ⟨x, hx, rfl⟩ := List.mem_map.1 hid
        have := hmem x hx
        omega
    · cases h

/-! ## The logits -/

section Head

variable [Semiring R] [LinearOrder R]

/-- The id is one of the rank. -/
def HeadRank.Owns (rank : HeadRank R d) (id : Nat) : Prop := rank.start ≤ id ∧ id < rank.stop

instance (rank : HeadRank R d) (id : Nat) : Decidable (rank.Owns id) :=
  inferInstanceAs (Decidable (_ ∧ _))

/-- The ranks have the rows of the full head: every id of the vocabulary is one of
    exactly one rank. -/
structure DraftHead.Shards (model : DraftHead R d) (row : Nat → Fin d → R) : Prop where
  disjoint : model.ranks.Pairwise fun a b => ∀ id, ¬(a.Owns id ∧ b.Owns id)
  cover : ∀ id < model.vocabSize, ∃ rank ∈ model.ranks, rank.Owns id
  rows : ∀ rank ∈ model.ranks, ∀ id, rank.Owns id → id < model.vocabSize →
    rank.weight[id - rank.start]? = some (row id)

/-- The logits of the full head, scaled, at the selected ids, and `-inf` at the
    others. -/
def DraftHead.restricted (model : DraftHead R d) (row : Nat → Fin d → R) (h : Fin d → R) :
    List (WithBot R) :=
  (List.range model.vocabSize).map fun id =>
    if id ∈ model.draftTokenIds then ((dotProduct h (row id) * model.scale : R) : WithBot R) else ⊥

/-- The logits of a hidden state are those, and if there are selected ids, their
    argmax is the lowest of the ones with the greatest logit of the full head. -/
structure DraftHead.Restricts (model : DraftHead R d) (row : Nat → Fin d → R) (h : Fin d → R)
    (logits : List (WithBot R)) : Prop where
  logits_eq : logits = model.restricted row h
  argmax_eq : model.draftTokenIds ≠ [] → ∃ id ∈ model.draftTokenIds, argmax logits = some id ∧
    ∀ id' ∈ model.draftTokenIds, dotProduct h (row id') < dotProduct h (row id) ∨
      dotProduct h (row id') = dotProduct h (row id) ∧ id ≤ id'

/-- The columns of the selection that a rank computes. -/
def HeadRank.positions (rank : HeadRank R d) (ids : List Nat) : List Nat :=
  (List.range ids.length).filter fun c => rank.Owns (ids.getD c 0)

variable {model : DraftHead R d} {row : Nat → Fin d → R}

/-- The cache of a rank. -/
def freshCache (row : Nat → Fin d → R) (ids : List Nat) (rank : HeadRank R d) : Cache R d where
  ids := ids
  positions := rank.positions ids
  w := (rank.positions ids).map fun c => row (ids.getD c 0)

/-- A rank makes its cache. -/
theorem makeCache_eq (hshards : model.Shards row)
    (hids : ∀ id ∈ model.draftTokenIds, id < model.vocabSize) {rank : HeadRank R d}
    (hrank : rank ∈ model.ranks) :
    rank.makeCache model.draftTokenIds = .ok (freshCache row model.draftTokenIds rank) := by
  have hrows : ∀ c ∈ rank.positions model.draftTokenIds, Returns
      (match rank.weight[model.draftTokenIds.getD c 0 - rank.start]? with
        | some row => (.ok row : Except Err (Fin d → R))
        | none => .error .indexError) True (row (model.draftTokenIds.getD c 0)) := by
    intro c hc
    obtain ⟨hlt, howns⟩ := List.mem_filter.1 hc
    have hmem := getD_mem_of_lt (List.mem_range.1 hlt) 0
    rw [hshards.rows rank hrank _ (of_decide_eq_true howns) (hids _ hmem)]
    exact .ok trivial
  have hw := (Returns.mapM hrows).eq_ok fun _ _ => trivial
  change (rank.positions model.draftTokenIds).mapM _ >>= _ = _
  rw [hw]
  rfl

omit [LinearOrder R] in
/-- The columns of a rank. -/
theorem small_eq (row : Nat → Fin d → R) (ids : List Nat) (rank : HeadRank R d)
    (hidden : Batch R d) : (freshCache row ids rank).small ids.length hidden =
      hidden.map fun h => (List.range ids.length).map fun c =>
        if rank.Owns (ids.getD c 0) then dotProduct h (row (ids.getD c 0)) else 0 := by
  refine List.map_congr_left fun h _ => ?_
  have hput : put (List.replicate ids.length 0) (rank.positions ids)
      ((rank.positions ids).map fun c => dotProduct h (row (ids.getD c 0))) =
        (List.range ids.length).map fun c =>
          if rank.Owns (ids.getD c 0) then dotProduct h (row (ids.getD c 0)) else 0 := by
    rw [put_replicate_map]
    refine List.map_congr_left fun c hc => if_congr ?_ rfl rfl
    simp [HeadRank.positions, List.mem_range.1 hc]
  rw [← hput]
  by_cases hw : (freshCache row ids rank).w.length ≠ 0
  · rw [if_pos hw, linear, freshCache, List.map_map]
    rfl
  · -- No selected id is one of the rank.
    have hnil : rank.positions ids = [] := by simpa [freshCache] using hw
    rw [if_neg hw, hnil]
    rfl

/-- The sum over the ranks has the logits of the full head at the selected ids. -/
theorem allReduce_eq (hshards : model.Shards row)
    (hids : ∀ id ∈ model.draftTokenIds, id < model.vocabSize) (hidden : Batch R d) :
    allReduce hidden.length model.draftTokenIds.length (model.ranks.map fun rank =>
      (freshCache row model.draftTokenIds rank).small model.draftTokenIds.length hidden) =
      hidden.map fun h => model.draftTokenIds.map fun id => dotProduct h (row id) := by
  rw [allReduce, map_eq_map_range _ hidden 0]
  refine List.map_congr_left fun a ha => ?_
  rw [map_eq_map_range _ model.draftTokenIds 0]
  refine List.map_congr_left fun c hc => ?_
  have hlen := List.mem_range.1 hc
  have hcell : ∀ rank ∈ model.ranks, (((freshCache row model.draftTokenIds rank).small
      model.draftTokenIds.length hidden).getD a []).getD c 0 =
        if rank.Owns (model.draftTokenIds.getD c 0) then
          dotProduct (hidden.getD a 0) (row (model.draftTokenIds.getD c 0)) else 0 := by
    intro rank _
    rw [small_eq, getD_map_of_lt _ (List.mem_range.1 ha) 0,
      List.getD_eq_getElem _ _ (by simpa using hlen), List.getElem_map, List.getElem_range]
  rw [List.map_map]
  refine (congrArg List.sum (List.map_congr_left hcell)).trans ?_
  have hmem := getD_mem_of_lt hlen 0
  exact sum_of_one (M := R) (fun rank => rank.Owns (model.draftTokenIds.getD c 0)) _
    (hshards.disjoint.imp fun h => h _) (hshards.cover _ (hids _ hmem))

/-- A single rank has the logits at all selected ids. -/
theorem small_of_single (hshards : model.Shards row)
    (hids : ∀ id ∈ model.draftTokenIds, id < model.vocabSize) {rank : HeadRank R d}
    (hrank : model.ranks = [rank]) (hidden : Batch R d) :
    (freshCache row model.draftTokenIds rank).small model.draftTokenIds.length hidden =
      hidden.map fun h => model.draftTokenIds.map fun id => dotProduct h (row id) := by
  rw [small_eq]
  refine List.map_congr_left fun h _ => ?_
  rw [map_eq_map_range _ model.draftTokenIds 0]
  refine List.map_congr_left fun c hc => if_pos ?_
  have hmem := getD_mem_of_lt (List.mem_range.1 hc) 0
  obtain ⟨owner, howner, howns⟩ := hshards.cover _ (hids _ hmem)
  rw [hrank] at howner
  exact List.mem_singleton.1 howner ▸ howns

/-- The columns are put into the places of their ids, and scaled. -/
theorem full_eq (model : DraftHead R d) (row : Nat → Fin d → R) (hidden : Batch R d) :
    model.full model.draftTokenIds
      (hidden.map fun h => model.draftTokenIds.map fun id => dotProduct h (row id)) =
      hidden.map (model.restricted row) := by
  have hput : ∀ h : Fin d → R, put (List.replicate model.vocabSize ⊥) model.draftTokenIds
      ((model.draftTokenIds.map fun id => dotProduct h (row id)).map ((↑) : R → WithBot R)) =
        (List.range model.vocabSize).map fun id =>
          if id ∈ model.draftTokenIds then ((dotProduct h (row id) : R) : WithBot R) else ⊥ := by
    intro h
    rw [List.map_map]
    exact put_replicate_map (fun id => ((dotProduct h (row id) : R) : WithBot R)) _ _ _
  simp only [DraftHead.full, List.map_map]
  split_ifs with hscale
  · refine List.map_congr_left fun h _ => ?_
    simp only [Function.comp_apply]
    rw [hput h, List.map_map, DraftHead.restricted]
    refine List.map_congr_left fun id _ => ?_
    rw [Function.comp_apply, apply_ite (WithBot.map (· * model.scale))]
    rfl
  · refine List.map_congr_left fun h _ => ?_
    rw [not_not] at hscale
    simp only [Function.comp_apply, hput, DraftHead.restricted, hscale, mul_one]

/-- The caches of the ranks are missing, or the ones that they make. -/
def CachesFresh (model : DraftHead R d) (row : Nat → Fin d → R)
    (caches : List (Option (Cache R d))) : Prop :=
  List.Forall₂ (fun rank cache => cache = none ∨
    cache = some (freshCache row model.draftTokenIds rank)) model.ranks caches

/-- In a call, every rank has its own cache. -/
theorem mapM_caches (hshards : model.Shards row)
    (hids : ∀ id ∈ model.draftTokenIds, id < model.vocabSize)
    {caches : List (Option (Cache R d))} (h : CachesFresh model row caches) :
    (model.ranks.zip caches).mapM (fun rc =>
      match rc.2 with
      | some cache => .ok cache
      | none => rc.1.makeCache model.draftTokenIds) =
      (.ok (model.ranks.map (freshCache row model.draftTokenIds)) :
        Except Err (List (Cache R d))) := by
  have key : ∀ {ranks : List (HeadRank R d)} {caches : List (Option (Cache R d))},
      (∀ rank ∈ ranks, rank ∈ model.ranks) → List.Forall₂ (fun rank cache => cache = none ∨
        cache = some (freshCache row model.draftTokenIds rank)) ranks caches →
      (ranks.zip caches).mapM (fun rc =>
        match rc.2 with
        | some cache => .ok cache
        | none => rc.1.makeCache model.draftTokenIds) =
        (.ok (ranks.map (freshCache row model.draftTokenIds)) :
          Except Err (List (Cache R d))) := by
    intro ranks caches hmem hfresh
    induction hfresh with
    | nil => rfl
    | cons hcache _ ih =>
      rw [List.forall_mem_cons] at hmem
      rw [List.zip_cons_cons, List.mapM_cons, ih hmem.2]
      -- A rank without a cache makes the one that it would have.
      rcases hcache with rfl | rfl
      · simp only [makeCache_eq hshards hids hmem.1]
        rfl
      · rfl
  exact key (fun _ hrank => hrank) h

/-- What a call returns. -/
theorem reducedVocabLogits_eq (hshards : model.Shards row)
    (hids : ∀ id ∈ model.draftTokenIds, id < model.vocabSize)
    {caches : List (Option (Cache R d))} (h : CachesFresh model row caches) (hidden : Batch R d) :
    model.reducedVocabLogits caches hidden =
      .ok (model.ranks.map (freshCache row model.draftTokenIds),
        model.ranks.map fun _ => hidden.map (model.restricted row)) := by
  rw [DraftHead.reducedVocabLogits, mapM_caches hshards hids h]
  refine congrArg (fun outs => Except.ok (_, outs)) ?_
  have hsmalls : (model.ranks.map (freshCache row model.draftTokenIds)).map
      (fun cache => cache.small model.draftTokenIds.length hidden) =
      model.ranks.map fun rank => (freshCache row model.draftTokenIds rank).small
        model.draftTokenIds.length hidden := List.map_map
  -- On each rank there is the sum, which a single rank has by itself.
  have hreduced : (if 1 < model.ranks.length then
      (model.ranks.map fun rank => (freshCache row model.draftTokenIds rank).small
        model.draftTokenIds.length hidden).map fun _ =>
          allReduce hidden.length model.draftTokenIds.length (model.ranks.map fun rank =>
            (freshCache row model.draftTokenIds rank).small model.draftTokenIds.length hidden)
      else model.ranks.map fun rank => (freshCache row model.draftTokenIds rank).small
        model.draftTokenIds.length hidden) =
      model.ranks.map fun _ =>
        hidden.map fun h => model.draftTokenIds.map fun id => dotProduct h (row id) := by
    split_ifs with hlen
    · rw [allReduce_eq hshards hids, List.map_map]
      rfl
    · refine List.map_congr_left fun rank hrank => ?_
      refine small_of_single hshards hids ?_ hidden
      obtain ⟨rank', hranks⟩ := List.length_eq_one_iff.1
        (Nat.le_antisymm (not_lt.1 hlen) (List.length_pos_of_mem hrank))
      rw [hranks] at hrank ⊢
      rw [List.mem_singleton.1 hrank]
  rw [hsmalls, hreduced, List.zip_map', List.map_map]
  exact List.map_congr_left fun _ _ => full_eq model row hidden

/-- The caches stay so from call to call. -/
theorem cachesFresh_of_reachable (hshards : model.Shards row)
    (hids : ∀ id ∈ model.draftTokenIds, id < model.vocabSize)
    {caches : List (Option (Cache R d))} (hs : model.calls.Reachable caches) :
    CachesFresh model row caches := by
  refine hs.invariant (P := CachesFresh model row) ?_ ?_
  · rintro _ rfl
    rw [CachesFresh, List.forall₂_map_right_iff, List.forall₂_same]
    exact fun _ _ => .inl rfl
  · rintro caches hidden caches' h ⟨outs, hcall⟩
    rw [DraftHead.computeLogits] at hcall
    split_ifs at hcall
    · obtain ⟨rfl, -⟩ := Prod.mk.inj (Except.ok.inj hcall)
      exact h
    · rw [reducedVocabLogits_eq hshards hids h] at hcall
      obtain ⟨rfl, -⟩ := Prod.mk.inj (Except.ok.inj hcall)
      rw [CachesFresh, List.map_map, List.forall₂_map_right_iff, List.forall₂_same]
      exact fun _ _ => .inr rfl

end Head

/-! ## The argmax -/

section Argmax

variable [Semiring R] [LinearOrder R] [IsStrictOrderedRing R]

/-- A number is at its own place. -/
theorem idxOf_range {i n : Nat} (hi : i < n) : (List.range n).idxOf i = i := by
  have h := (List.nodup_range (n := n)).idxOf_getElem i (by simpa using hi)
  rwa [List.getElem_range] at h

/-- The argmax of the restricted logits is that of the full head among the selected
    ids. -/
theorem argmax_restricted (model : DraftHead R d) (row : Nat → Fin d → R) (h : Fin d → R)
    (hids : ∀ id ∈ model.draftTokenIds, id < model.vocabSize) (hne : model.draftTokenIds ≠ []) :
    ∃ id ∈ model.draftTokenIds, argmax (model.restricted row h) = some id ∧
      ∀ id' ∈ model.draftTokenIds, dotProduct h (row id') < dotProduct h (row id) ∨
        dotProduct h (row id') = dotProduct h (row id) ∧ id ≤ id' := by
  have hlogit : ∀ id < model.vocabSize, (model.restricted row h).getD id ⊥ =
      if id ∈ model.draftTokenIds then ((dotProduct h (row id) * model.scale : R) : WithBot R)
      else ⊥ := by
    intro id hid
    rw [DraftHead.restricted, List.getD_eq_getElem _ _ (by simpa using hid), List.getElem_map,
      List.getElem_range]
  have hlen : (model.restricted row h).length = model.vocabSize := by simp [DraftHead.restricted]
  obtain ⟨first, hfirst⟩ := List.exists_mem_of_ne_nil _ hne
  cases hmax : argmax (model.restricted row h) with
  | none =>
    rw [argmax, hlen, List.argmax_eq_none, List.range_eq_nil] at hmax
    have := hids _ hfirst
    omega
  | some id =>
    rw [argmax, hlen] at hmax
    have hid := List.mem_range.1 (List.argmax_mem hmax)
    have hle : ∀ id' ∈ model.draftTokenIds,
        ((dotProduct h (row id') * model.scale : R) : WithBot R) ≤
          (model.restricted row h).getD id ⊥ := by
      intro id' hid'
      have := List.le_of_mem_argmax (List.mem_range.2 (hids _ hid')) hmax
      rwa [hlogit _ (hids _ hid'), if_pos hid'] at this
    -- Outside the selection the logit is below that of any selected id.
    have hmem : id ∈ model.draftTokenIds := by
      by_contra hn
      have := hle _ hfirst
      rw [hlogit id hid, if_neg hn, le_bot_iff] at this
      exact WithBot.coe_ne_bot this
    refine ⟨id, hmem, rfl, fun id' hid' => ?_⟩
    have hscaled := hle id' hid'
    rw [hlogit id hid, if_pos hmem, WithBot.coe_le_coe] at hscaled
    rcases (le_of_mul_le_mul_right hscaled model.scale_pos).lt_or_eq with hlt | heq
    · exact .inl hlt
    · -- On a tie, the argmax is the lower id.
      refine .inr ⟨heq, ?_⟩
      have hindex := List.index_of_argmax hmax (List.mem_range.2 (hids _ hid')) (by
        rw [hlogit id hid, if_pos hmem, hlogit _ (hids _ hid'), if_pos hid', heq])
      rwa [idxOf_range hid, idxOf_range (hids _ hid')] at hindex

/-- The reduced head is the full head restricted to the selection: whatever calls have
    been made, the next one returns on every rank the restricted logits of every
    hidden state of the batch. -/
theorem reduced_eq_full {model : DraftHead R d} {row : Nat → Fin d → R} {environ : Option Str}
    {readText : Str → Except Err Str}
    (hids : draftVocabIds environ readText model.vocabSize = .ok model.draftTokenIds)
    (hshards : model.Shards row) {caches : List (Option (Cache R d))}
    (hs : model.calls.Reachable caches) (hidden : Batch R d) :
    ∃ caches' outs, model.reducedVocabLogits caches hidden = .ok (caches', outs) ∧
      outs.length = model.ranks.length ∧
      ∀ out ∈ outs, List.Forall₂ (model.Restricts row) hidden out := by
  have hrange := (draftVocabIds_spec hids).2
  refine ⟨_, _, reducedVocabLogits_eq hshards hrange (cachesFresh_of_reachable hshards hrange hs)
    hidden, List.length_map _, fun out hout => ?_⟩
  obtain ⟨rank, -, rfl⟩ := List.mem_map.1 hout
  rw [List.forall₂_map_right_iff, List.forall₂_same]
  exact fun h _ => ⟨rfl, argmax_restricted model row h hrange⟩

end Argmax

/-- A head of four tokens on three ranks, of which the second has no selected one. -/
def fourTokens : DraftHead Int 2 where
  vocabSize := 4
  draftTokenIds := [0, 3]
  scale := 2
  scale_pos := by decide
  ranks := [⟨0, 1, [![0, 1]]⟩, ⟨1, 3, [![1, 1], ![2, 1], ![0, 0]]⟩, ⟨3, 4, [![3, 1]]⟩]
  hasWeight := true
  logitsProcessor _ := []

/-- Its rows. -/
def fourRows (id : Nat) : Fin 2 → Int := ![id, 1]

theorem fourTokens_shards : fourTokens.Shards fourRows where
  disjoint := by
    simp only [fourTokens, List.pairwise_cons, List.forall_mem_cons, HeadRank.Owns]
    refine ⟨⟨fun id => ?_, fun id => ?_, by simp⟩, ⟨fun id => ?_, by simp⟩, by simp, .nil⟩ <;> omega
  cover id hid := by
    have hid' : id < 4 := hid
    simp only [fourTokens, List.mem_cons, List.not_mem_nil, or_false, exists_eq_or_imp,
      exists_eq_left, HeadRank.Owns]
    omega
  rows := by
    simp only [fourTokens, List.forall_mem_cons, HeadRank.Owns]
    refine ⟨fun id hid _ => ?_, fun id hid _ => ?_, fun id hid _ => ?_, by simp⟩
    · obtain rfl : id = 0 := by omega
      rfl
    · obtain rfl | rfl : id = 1 ∨ id = 2 := by omega
      · rfl
      · rfl
    · obtain rfl : id = 3 := by omega
      rfl

/-- A file with a blank line and an id that is there twice; the second call finds
    the caches of the first one. -/
theorem reduced_eq_full_fourTokens : ∃ caches,
    fourTokens.computeLogits [none, none, none] [![1, -1]] =
      .ok (caches, List.replicate 3
        [[((-2 : Int) : WithBot Int), ⊥, ⊥, ((4 : Int) : WithBot Int)]]) ∧
    ∃ caches' outs, fourTokens.reducedVocabLogits caches [![0, 1], ![-1, 0]] = .ok (caches', outs) ∧
      outs.length = 3 ∧
      ∀ out ∈ outs, List.Forall₂ (fourTokens.Restricts fourRows) [![0, 1], ![-1, 0]] out := by
  have hids : draftVocabIds (some "ids.txt") (fun _ => .ok "3\n\n 0\n3\n") fourTokens.vocabSize =
      .ok fourTokens.draftTokenIds := rfl
  refine ⟨_, rfl, reduced_eq_full hids fourTokens_shards (.step (.init rfl) ⟨_, rfl⟩) _⟩

end FlashNext.Mtp
