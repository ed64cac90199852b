import Mathlib.Data.List.Count
import FlashNext.Gateway.Edits
import FlashNext.Gateway.Revoke

/-!
# Request counters

The counters are in the entries in memory, which the proxy changes in place and
the watcher flushes to the file from time to time; a reload takes the entries of
the file and keeps the higher counter of each id.

`counters_never_lost` is the property of runs whose edits are documents with
complete entries of distinct ids, with integers as their counters, and whose saves
succeed: a counter goes up by one for each admitted request, becomes the maximum of
the two on a reload, and otherwise stays as it is unless its key is rotated; there
always are a key and an admin token; and the file holds the configuration whenever
nothing is dirty and no edit is pending. The invariant behind it is that the entries
in memory are complete too (`Intact`), and that a file which the gateway has written
holds what is in memory, up to what the dirty flag announces (`Linked`).

A counter that is a float need not go up (`counters_never_lost_fails`).
-/

namespace FlashNext.Gateway

open Python

/-! ## Complete entries -/

/-- The fields of an entry that the gateway reads. -/
def fieldNames : List Str := [str "id", str "key", str "requests", str "last_used"]

theorem forall_fieldNames {P : Str → Prop} : (∀ name ∈ fieldNames, P name) ↔
    P (str "id") ∧ P (str "key") ∧ P (str "requests") ∧ P (str "last_used") := by
  simp [fieldNames]

/-- A value for a field: the id and the key are strings, the counter is an integer. -/
def FieldOk (name : Str) (v : Val) : Prop :=
  (name = str "id" ∨ name = str "key" → ∃ s, v = .str s) ∧
    (name = str "requests" → ∃ n, v = .int n)

/-- An entry is an object that has these fields, with values as they should be. -/
def HasFields (ok : Str → Val → Prop) (k : Val) : Prop :=
  ∃ d, k = .dict d ∧ ∀ name ∈ fieldNames, ∃ v, Dict.get d name = some v ∧ ok name v

/-- A complete entry. -/
abbrev Complete : Val → Prop := HasFields FieldOk

/-- The counter of an entry, if it is an integer. -/
def requestsOf : Val → Option Int
  | .dict d =>
    match Dict.get d "requests" with
    | some (.int n) => some n
    | _ => none
  | _ => none

/-- The counter of the first entry with the id. -/
def counter (ks : List Val) (id : Str) : Option Int := (ks.find? (hasId id)).bind requestsOf

/-- A value that is no id, key or counter. -/
theorem fieldOk_other {name : Str} (v : Val) (hid : name ≠ str "id") (hkey : name ≠ str "key")
    (hrequests : name ≠ str "requests") : FieldOk name v :=
  ⟨fun h => absurd h (not_or.2 ⟨hid, hkey⟩), fun h => absurd h hrequests⟩

/-- Setting a field keeps the fields. -/
theorem HasFields.setItem {ok : Str → Val → Prop} {k : Val} (h : HasFields ok k) {name : Str}
    {v : Val} (hv : ok name v) : HasFields ok (setItem k name v) := by
  obtain ⟨d, rfl, hd⟩ := h
  refine ⟨_, rfl, fun name' hname' => ?_⟩
  by_cases hn : name' = name
  · subst hn
    exact ⟨v, Dict.get_insert_self _ _ _, hv⟩
  · rw [Dict.get_insert_of_ne _ _ hn]
    exact hd name' hname'

theorem requestsOf_setItem {k : Val} (h : Complete k) (n : Int) :
    requestsOf (setItem k "requests" (.int n)) = some n := by
  obtain ⟨d, rfl, -⟩ := h
  simp [setItem, requestsOf]

theorem requestsOf_setItem_of_ne {name : Str} (hn : name ≠ str "requests") (k v : Val) :
    requestsOf (setItem k name v) = requestsOf k := by
  cases k with
  | dict d => rw [setItem, requestsOf, requestsOf, Dict.get_insert_of_ne _ _ (Ne.symm hn)]
  | _ => rfl

theorem idStr_setItem {name : Str} (hn : name ≠ str "id") (k v : Val) :
    idStr (setItem k name v) = idStr k := by
  cases k with
  | dict d => rw [setItem, idStr, idStr, Dict.get_insert_of_ne _ _ (Ne.symm hn)]
  | _ => rfl

section Complete

variable {k : Val} (h : Complete k)
include h

theorem Complete.id : ∃ d id, k = .dict d ∧ Dict.get d "id" = some (.str id) ∧
    idStr k = some id := by
  obtain ⟨d, rfl, hd⟩ := h
  obtain ⟨v, hv, hok⟩ := hd (str "id") (by simp [fieldNames])
  obtain ⟨id, rfl⟩ := hok.1 (.inl rfl)
  exact ⟨d, id, rfl, hv, by simp [idStr, hv]⟩

theorem Complete.requests : ∃ n, k.getItem "requests" = .ok (.int n) ∧ requestsOf k = some n := by
  obtain ⟨d, rfl, hd⟩ := h
  obtain ⟨v, hv, hok⟩ := hd (str "requests") (by simp [fieldNames])
  obtain ⟨n, rfl⟩ := hok.2 rfl
  exact ⟨n, by simp [Val.getItem, hv], by simp [requestsOf, hv]⟩

theorem Complete.lastUsed : ∃ v, k.getItem "last_used" = .ok v := by
  obtain ⟨d, rfl, hd⟩ := h
  obtain ⟨v, hv, -⟩ := hd (str "last_used") (by simp [fieldNames])
  exact ⟨v, by simp [Val.getItem, hv]⟩

end Complete

theorem complete_newKey (fresh : Fresh) (label : Str) : Complete (newKey fresh label) := by
  refine ⟨_, rfl, forall_fieldNames.2 ⟨?_, ?_, ?_, ?_⟩⟩
  · exact ⟨.str fresh.id, by simp [Dict.get_cons], fun _ => ⟨_, rfl⟩, by simp⟩
  · exact ⟨.str fresh.key, by simp [Dict.get_cons, Fresh.key], fun _ => ⟨_, rfl⟩, by simp⟩
  · exact ⟨.int 0, by simp [Dict.get_cons], by simp, fun _ => ⟨_, rfl⟩⟩
  · exact ⟨.none, by simp [Dict.get_cons], by simp, by simp⟩

theorem Complete.rotateKey {k : Val} (h : Complete k) (fresh : Fresh) :
    Complete (rotateKey fresh k) := by
  refine ((h.setItem ?_).setItem ?_).setItem ?_ |>.setItem ?_
  · exact ⟨fun _ => ⟨_, rfl⟩, by simp⟩
  · exact ⟨by simp, fun _ => ⟨_, rfl⟩⟩
  · exact fieldOk_other _ (by simp) (by simp) (by simp)
  · exact fieldOk_other _ (by simp) (by simp) (by simp)

theorem requestsOf_rotateKey {k : Val} (h : Complete k) (fresh : Fresh) :
    requestsOf (rotateKey fresh k) = some 0 := by
  rw [Gateway.rotateKey, requestsOf_setItem_of_ne (by simp), requestsOf_setItem_of_ne (by simp)]
  exact requestsOf_setItem (h.setItem ⟨fun _ => ⟨_, rfl⟩, by simp⟩) 0

theorem idStr_rotateKey (fresh : Fresh) (k : Val) : idStr (rotateKey fresh k) = idStr k := by
  simp [rotateKey, idStr_setItem]

theorem idStr_newKey (fresh : Fresh) (label : Str) :
    idStr (newKey fresh label) = some fresh.id := by
  simp [idStr, newKey, Dict.get_cons]

/-! ## Counters in a list of entries -/

/-- The ids of entries are distinct. -/
def DistinctIds (ks : List Val) : Prop := (ks.map idStr).Nodup

/-- An entry between others is replaced by one with the same id: only the counter
    of that id changes, if no entry before it has it. -/
theorem counter_replace {ys zs : List Val} {k k' : Val} {id : Str} (hk : idStr k = some id)
    (hk' : idStr k' = some id) (hys : ∀ y ∈ ys, hasId id y = false) (j : Str) :
    counter (ys ++ k' :: zs) j =
      if j = id then requestsOf k' else counter (ys ++ k :: zs) j := by
  have hhas : ∀ j, hasId j k' = hasId j k := fun j => by rw [hasId, hasId, hk, hk']
  split_ifs with hj
  · subst hj
    rw [counter, List.find?_append, List.find?_eq_none.2 fun y hy => by simp [hys y hy],
      Option.none_or, List.find?_cons_of_pos (by simp [hasId, hk'])]
    rfl
  · have hne : hasId j k = false := by simpa [hasId, hk] using Ne.symm hj
    rw [counter, counter, List.find?_append, List.find?_append,
      List.find?_cons_of_neg (by simp [hhas, hne]), List.find?_cons_of_neg (by simp [hne])]

/-- With distinct ids, an entry is the first one with its id. -/
theorem before_of_distinct {ys zs : List Val} {k : Val} {id : Str}
    (h : DistinctIds (ys ++ k :: zs)) (hk : idStr k = some id) :
    (∀ y ∈ ys, hasId id y = false) ∧ ∀ z ∈ zs, hasId id z = false := by
  rw [DistinctIds, List.map_append, List.map_cons, List.nodup_middle, List.nodup_cons, hk,
    List.mem_append, not_or] at h
  have hfalse : ∀ {l : List Val}, some id ∉ l.map idStr → ∀ x ∈ l, hasId id x = false := by
    intro l hl x hx
    rw [hasId, decide_eq_false_iff_not]
    exact fun hid => hl (List.mem_map.2 ⟨x, hx, hid⟩)
  exact ⟨hfalse h.1.1, hfalse h.1.2⟩

/-- Changing entries without changing their ids and counters. -/
theorem counter_modify {f : Val → Val} (hid : ∀ k, idStr (f k) = idStr k)
    (hreq : ∀ k, requestsOf (f k) = requestsOf k) (ks : List Val) (i : Nat) (j : Str) :
    counter (ks.modify i f) j = counter ks j := by
  induction ks generalizing i with
  | nil => simp
  | cons k ks ih =>
    have hhas : hasId j (f k) = hasId j k := by rw [hasId, hasId, hid]
    cases i with
    | zero =>
      rw [List.modify_zero_cons, counter, counter, List.find?_cons, List.find?_cons, hhas]
      cases hasId j k <;> simp [hreq]
    | succ i =>
      have := ih i
      rw [counter, counter] at this
      rw [List.modify_succ_cons, counter, counter, List.find?_cons, List.find?_cons]
      cases hasId j k
      · exact this
      · rfl

theorem distinctIds_modify {f : Val → Val} (hid : ∀ k, idStr (f k) = idStr k) {ks : List Val}
    (h : DistinctIds ks) (i : Nat) : DistinctIds (ks.modify i f) := by
  have : (ks.modify i f).map idStr = ks.map idStr := by
    induction ks generalizing i with
    | nil => simp
    | cons k ks ih =>
      cases i with
      | zero => simp [hid]
      | succ i => simp [ih (List.Nodup.of_cons (a := idStr k) h) i]
  rwa [DistinctIds, this]

/-! ## The merge of complete entries -/

theorem idOf_any (k : Val) (j : Str) : ((idOf k).any fun i => i.same (.str j)) = hasId j k := by
  cases k with
  | dict d =>
    cases hid : Dict.get d "id" with
    | none => simp [idOf, hasId, idStr, hid]
    | some v =>
      cases v <;> simp [idOf, hasId, idStr, hid, Val.toKey, Except.toOption, Key.same, Key.num]
  | _ => simp [idOf, hasId, idStr]

/-- With distinct ids, the entry in memory that a reload compares with is the one
    with the id. -/
theorem prevEntry_eq {data : Dict} (hkeys : Dict.get data "keys" = some (.list (entries data)))
    (hids : DistinctIds (entries data)) (j : Str) :
    prevEntry data (.str j) = (entries data).find? (hasId j) := by
  have hone : ((entries data).filter (hasId j)).length ≤ 1 := by
    have := List.nodup_iff_count_le_one.1 hids (some j)
    rw [List.count_eq_countP, List.countP_map, List.countP_eq_length_filter] at this
    have hbeq : (· == some j) ∘ idStr = hasId j := funext fun k => beq_eq_decide _ _
    rwa [hbeq] at this
  rw [prevEntry, hkeys]
  simp only [Option.bind_some, Val.iter, Except.toOption, Option.getD_some, idOf_any]
  rw [← List.head?_filter]
  rcases hf : (entries data).filter (hasId j) with _ | ⟨k, _ | ⟨k', ks⟩⟩
  · rfl
  · rfl
  · rw [hf] at hone
    simp at hone

/-- The counter that an entry has after the merge. -/
def mergedCounter (mem : List Val) (j : Str) (n : Int) : Int := (counter mem j).elim n (max n)

/-- A complete entry is merged: it keeps its id, and has the higher counter. -/
theorem mergeEntry_complete {mem : List Val} {m : Dict}
    (hm : ∀ j, Dict.find m (.str j) = mem.find? (hasId j)) (hmem : ∀ k ∈ mem, Complete k)
    {k : Val} (hk : Complete k) : ∃ k', mergeEntry m k = .ok k' ∧ Complete k' ∧
      ∀ j n, idStr k = some j → requestsOf k = some n →
        requestsOf k' = some (mergedCounter mem j n) := by
  obtain ⟨d, id, hd, hget, hid⟩ := hk.id
  obtain ⟨n, hn, hreq⟩ := hk.requests
  have hgetReq : Dict.get d "requests" = some (.int n) := by
    subst hd
    cases h : Dict.get d "requests" <;> simp_all [Val.getItem]
  have hmerged : ∀ c, mergedCounter mem id n = c → ∀ j n', idStr k = some j →
      requestsOf k = some n' → mergedCounter mem j n' = c := by
    intro c hc j n' hj hn'
    obtain rfl := Option.some.inj (hid.symm.trans hj)
    obtain rfl := Option.some.inj (hreq.symm.trans hn')
    exact hc
  have hlookup := hm id
  cases hprev : mem.find? (hasId id) with
  | none =>
    -- An entry that memory does not have stays as the file has it.
    refine ⟨k, ?_, hk, fun j n' hj hn' => ?_⟩
    · rw [hprev] at hlookup
      subst hd
      simp [mergeEntry, Val.getD, hget, Val.toKey, hlookup, bind, Except.bind, pure, Except.pure]
    · rw [hn', hmerged n (by simp [mergedCounter, counter, hprev]) j n' hj hn']
      exact hn'.symm.trans hreq
  | some prev =>
    -- Of the two counters the higher one stays, with its time.
    rw [hprev] at hlookup
    have hcomplete := hmem prev (List.mem_of_find?_eq_some hprev)
    obtain ⟨p, hp, hpreq⟩ := hcomplete.requests
    obtain ⟨u, hu⟩ := hcomplete.lastUsed
    have hmax : mergedCounter mem id n = max n p := by
      simp [mergedCounter, counter, hprev, hpreq]
    obtain ⟨pd, _, rfl, hpid, -⟩ := hcomplete.id
    have hgetPrev : Dict.get pd "requests" = some (.int p) := by
      cases h : Dict.get pd "requests" <;> simp_all [Val.getItem]
    have htruthy : (Val.dict pd).truthy = true := by
      cases pd <;> simp_all [Val.truthy]
    have hmerge : mergeEntry m k = .ok (if n < p then
        setItem (setItem k "requests" (.int p)) "last_used" u else k) := by
      subst hd
      have hlt : ((n : ℚ) < p) = (n < p) := by simp
      by_cases h : n < p <;>
        simp [mergeEntry, Val.getD, hget, Val.toKey, hlookup, htruthy, hgetReq, hgetPrev, Val.gt,
          Val.gt.gtNum, Val.num, Flt.lt, h, hp, hu, bind, Except.bind, pure, Except.pure]
    rw [hmerge]
    split_ifs with hlt
    · refine ⟨_, rfl, (hk.setItem ⟨by simp, fun _ => ⟨_, rfl⟩⟩).setItem
        (fieldOk_other _ (by simp) (by simp) (by simp)), fun j n' hj hn' => ?_⟩
      rw [hmerged _ hmax j n' hj hn', requestsOf_setItem_of_ne (by simp), requestsOf_setItem hk]
      rw [max_eq_right hlt.le]
    · refine ⟨_, rfl, hk, fun j n' hj hn' => ?_⟩
      rw [hmerged _ hmax j n' hj hn', hreq, max_eq_left (not_lt.1 hlt)]

theorem mergeKeys_ids (m : Dict) (ks : List Val) : (mergeKeys m ks).1.map idStr = ks.map idStr :=
  mergeKeys_map (fun k v w => by rw [idStr_setItem (by simp), idStr_setItem (by simp)]) m ks

/-- A list of complete entries is merged: each has the higher counter. -/
theorem mergeKeys_complete {mem : List Val} {m : Dict}
    (hm : ∀ j, Dict.find m (.str j) = mem.find? (hasId j)) (hmem : ∀ k ∈ mem, Complete k)
    {ks : List Val} (hks : ∀ k ∈ ks, Complete k) :
    (mergeKeys m ks).2 = none ∧ (∀ k ∈ (mergeKeys m ks).1, Complete k) ∧
      ∀ j, counter (mergeKeys m ks).1 j = (counter ks j).map (mergedCounter mem j) := by
  induction ks with
  | nil => simp [mergeKeys, counter]
  | cons k ks ih =>
    rw [List.forall_mem_cons] at hks
    obtain ⟨k', hk', hcomplete, hcount⟩ := mergeEntry_complete hm hmem hks.1
    obtain ⟨hok, hall, hrest⟩ := ih hks.2
    have hid : idStr k' = idStr k := by
      rcases mergeEntry_cases hk' with rfl | ⟨_, _, v, w, _, _, rfl⟩
      · rfl
      · rw [idStr_setItem (by simp), idStr_setItem (by simp)]
    simp only [mergeKeys, hk']
    refine ⟨hok, List.forall_mem_cons.2 ⟨hcomplete, hall⟩, fun j => ?_⟩
    have hhas : hasId j k' = hasId j k := by rw [hasId, hasId, hid]
    rw [counter, counter, List.find?_cons, List.find?_cons, hhas]
    cases hj : hasId j k with
    | true =>
      obtain ⟨n, -, hn⟩ := hks.1.requests
      have hcount := hcount j n (by simpa [hasId] using hj) hn
      simp [hcount, hn]
    | false => exact hrest j

/-! ## Intact configurations -/

/-- A configuration with complete entries of distinct ids, at least one of them,
    and with an admin token. -/
structure Intact (data : Dict) : Prop where
  distinct : data.Distinct
  nonempty : entries data ≠ []
  complete : ∀ k ∈ entries data, Complete k
  ids : DistinctIds (entries data)
  token : falsy data "admin_token" = false

/-- A document that is an object with a list of complete entries of distinct ids. -/
def CompleteDoc (v : Val) : Prop :=
  ∃ items ks, v = .dict items ∧ Dict.get (laidOver v) "keys" = some (.list ks) ∧
    (∀ k ∈ ks, Complete k) ∧ DistinctIds ks

/-- What the step draws is new: an id that no entry in memory has, and a token that
    is not empty. -/
def DrawsIds (ks : List Val) (a : Label) : Prop :=
  ∀ fresh ∈ a.fresh, some fresh.id ∉ ks.map idStr ∧ fresh.adminToken ≠ []

theorem Intact.keys {data : Dict} (h : Intact data) :
    Dict.get data "keys" = some (.list (entries data)) := by
  obtain ⟨k, ks, hks⟩ := List.exists_cons_of_ne_nil h.nonempty
  exact keys_of_entries (i := 0) (k := k) (by rw [hks]; rfl)

theorem token_normalize {fresh : Fresh} (hf : fresh.adminToken ≠ []) (data : Dict) :
    falsy (normalize fresh data) "admin_token" = false := by
  have hset : ∀ d : Dict, falsy (Dict.insert d (.str "admin_token") (.str fresh.adminToken))
      "admin_token" = false := fun d => by simp [falsy, Val.truthy, hf]
  cases ht : falsy data "admin_token" <;> simp only [normalize, ht] <;> split_ifs <;>
    simp_all [falsy_insert_of_ne]

/-- A configuration read from complete entries is intact once it is normalized. -/
theorem intact_normalize {data : Dict} {ks : List Val} (hd : data.Distinct)
    (hkeys : Dict.get data "keys" = some (.list ks)) (hks : ∀ k ∈ ks, Complete k)
    (hids : DistinctIds ks) {fresh : Fresh} (hf : fresh.adminToken ≠ []) :
    Intact (normalize fresh data) := by
  have hentries := entries_normalize fresh data
  rw [entries_eq hkeys] at hentries
  cases hfalsy : falsy data "keys" with
  | true =>
    rw [hfalsy, if_pos rfl] at hentries
    refine ⟨normalize_distinct hd fresh, ?_, ?_, ?_, token_normalize hf data⟩ <;> rw [hentries]
    · exact List.cons_ne_nil _ _
    · exact List.forall_mem_singleton.2 (complete_newKey _ _)
    · exact List.nodup_singleton _
  | false =>
    rw [hfalsy, if_neg Bool.false_ne_true] at hentries
    refine ⟨normalize_distinct hd fresh, ?_, ?_, ?_, token_normalize hf data⟩ <;> rw [hentries]
    · rintro rfl
      simp [falsy, hkeys, Val.truthy] at hfalsy
    · exact hks
    · exact hids

/-- Other entries of distinct ids in an intact configuration. -/
theorem Intact.setKeys {data : Dict} (h : Intact data) {ks : List Val} (hne : ks ≠ [])
    (hks : ∀ k ∈ ks, Complete k) (hids : DistinctIds ks) : Intact (setKeys data ks) where
  distinct := h.distinct.insert _ _
  nonempty := by rwa [entries_setKeys]
  complete := by rwa [entries_setKeys]
  ids := by rwa [entries_setKeys]
  token := by rw [Gateway.setKeys, falsy_insert_of_ne (by simp), h.token]

/-- Changing an entry in an intact configuration, but not its id. -/
theorem Intact.modify {data : Dict} (h : Intact data) {f : Val → Val}
    (hid : ∀ k, idStr (f k) = idStr k) (hf : ∀ k, Complete k → Complete (f k)) (i : Nat) :
    Intact (Gateway.setKeys data ((entries data).modify i f)) := by
  refine h.setKeys ?_ (forall_modify h.complete hf i) (distinctIds_modify hid h.ids i)
  rw [← List.length_pos_iff, List.length_modify, List.length_pos_iff]
  exact h.nonempty

/-- Setting an URL in an intact configuration. -/
theorem Intact.url {data : Dict} (h : Intact data) (url : Str) :
    Intact (Dict.insert data (.str "public_url") (.str url)) where
  distinct := h.distinct.insert _ _
  nonempty := by rw [entries_insert_of_ne (by simp)]; exact h.nonempty
  complete := by rw [entries_insert_of_ne (by simp)]; exact h.complete
  ids := by rw [entries_insert_of_ne (by simp)]; exact h.ids
  token := by rw [falsy_insert_of_ne (by simp), h.token]

/-- An entry with the counter `n`, last used now. -/
def withCount (n : Int) (now : Flt) (k : Val) : Val :=
  setItem (setItem k "requests" (.int n)) "last_used" (.float now)

theorem idStr_withCount (n : Int) (now : Flt) (k : Val) : idStr (withCount n now k) = idStr k := by
  rw [withCount, idStr_setItem (by simp), idStr_setItem (by simp)]

theorem Complete.withCount {k : Val} (h : Complete k) (n : Int) (now : Flt) :
    Complete (withCount n now k) :=
  (h.setItem ⟨by simp, fun _ => ⟨_, rfl⟩⟩).setItem
    (fieldOk_other _ (by simp) (by simp) (by simp))

theorem requestsOf_withCount {k : Val} (h : Complete k) (n : Int) (now : Flt) :
    requestsOf (withCount n now k) = some n := by
  rw [Gateway.withCount, requestsOf_setItem_of_ne (by simp), requestsOf_setItem h]

/-- The entry that a request is counted for, and how. -/
theorem counted_entry {data data' : Dict} {presented : Str} {now : Flt} (h : Intact data)
    (hc : Counted data data' presented now) : ∃ i k n, (entries data)[i]? = some k ∧
      keyStr k = some presented ∧ requestsOf k = some n ∧
      data' = setKeys data ((entries data).modify i (withCount (n + 1) now)) := by
  obtain ⟨i, k, v, v', hk, hkey, hv, hv', rfl⟩ := hc
  obtain ⟨n, hn, hreq⟩ := (h.complete k (List.mem_of_getElem? hk)).requests
  obtain rfl := Except.ok.inj (hv.symm.trans hn)
  obtain rfl := Except.ok.inj hv'
  refine ⟨i, k, n, hk, hkey, hreq, ?_⟩
  rw [List.modify_eq_set_getElem?, hk]
  rfl

/-- A reload of a document with complete entries merges them, and does not raise. -/
theorem adopt_complete {data m new : Dict} {v : Val} {e : Option Err} (h : Intact data)
    (hv : CompleteDoc v) (hm : ∀ id, Dict.find m id = prevEntry data id)
    (had : adopt m v = (new, e)) : e = none ∧ ∃ ks, Dict.get (laidOver v) "keys" = some (.list ks) ∧
      new = setKeys (laidOver v) (mergeKeys m ks).1 ∧
      (∀ k ∈ (mergeKeys m ks).1, Complete k) ∧ DistinctIds (mergeKeys m ks).1 ∧
      ∀ j, counter (mergeKeys m ks).1 j = (counter ks j).map (mergedCounter (entries data) j) := by
  obtain ⟨items, ks, rfl, hkeys, hks, hids⟩ := hv
  rcases adopt_cases had with ⟨-, hno⟩ | ⟨ks', hkeys', rfl, rfl⟩
  · exact absurd ⟨rfl, ks, hkeys⟩ hno
  · obtain rfl : ks = ks' := by simpa [hkeys] using hkeys'
    have hfind : ∀ j, Dict.find m (.str j) = (entries data).find? (hasId j) :=
      fun j => by rw [hm, prevEntry_eq h.keys h.ids]
    obtain ⟨hok, hall, hcount⟩ := mergeKeys_complete hfind h.complete hks
    exact ⟨hok, ks, hkeys, rfl, hall, by rwa [DistinctIds, mergeKeys_ids], hcount⟩

/-- The steps keep a configuration intact. -/
theorem kept_intact : Kept Intact CompleteDoc DrawsIds where
  dumps {data} h := by
    refine ⟨data, entries data, rfl, ?_, h.complete, h.ids⟩
    exact Dict.get_update_of_some h.distinct h.keys
  change {a data data'} hc hG h := by
    cases hc with
    | count hcount =>
      obtain ⟨i, k, n, -, -, -, rfl⟩ := counted_entry h hcount
      exact h.modify (idStr_withCount _ _) (fun k hk => hk.withCount _ _) i
    | config => exact h
    | url => exact h.url _
    | @create _ fresh _ _ ks label hkeys =>
      have hks := entries_eq hkeys
      refine h.setKeys (by simp) (fun k hk => ?_) ?_
      · rcases List.mem_append.1 hk with hk | hk
        · exact h.complete k (by rwa [hks])
        · obtain rfl := List.mem_singleton.1 hk
          exact complete_newKey _ _
      · have hnew := (hG fresh (List.mem_singleton_self _)).1
        have hids := h.ids
        rw [hks] at hnew hids
        rw [DistinctIds, List.map_append, List.map_singleton, idStr_newKey,
          List.nodup_append_comm]
        exact List.nodup_cons.2 ⟨hnew, hids⟩
    | @revoke kid _ _ _ i hi hlen =>
      -- The last key is never revoked.
      have hpos := List.length_pos_iff.2 h.nonempty
      obtain ⟨hlt, -, -⟩ := List.findIdx?_eq_some_iff_getElem.1 hi
      refine h.setKeys ?_ (fun k hk => h.complete k ((List.eraseIdx_sublist _ _).subset hk))
        (((List.eraseIdx_sublist _ _).map idStr).nodup h.ids)
      rw [← List.length_pos_iff, List.length_eraseIdx_of_lt hlt]
      omega
    | rotate => exact h.modify (idStr_rotateKey _) (fun k hk => hk.rotateKey _) _
    | label i label =>
      exact h.modify (fun k => idStr_setItem (by simp) k _)
        (fun k hk => hk.setItem (fieldOk_other _ (by simp) (by simp) (by simp))) i
    | stale => exact h
  adopt {c data v m new e} hG h hv hm had := by
    obtain ⟨rfl, ks, -, rfl, hks, hids, -⟩ := adopt_complete h hv hm had
    exact intact_normalize ((laidOver_distinct v).insert _ _) (Dict.get_insert_self _ _ _) hks hids
      (hG _ (List.mem_singleton_self _)).2
  start {c d data} hG hd hi := by
    have hf := (hG _ (List.mem_singleton_self _)).2
    have h : Intact data := by
      rcases initData_cases hi with rfl | ⟨v, ht, -, rfl⟩
      · exact intact_normalize (by simp [Dict.Distinct, blank])
          (show Dict.get blank "keys" = some (.list []) from rfl) (fun _ h => by cases h)
          List.nodup_nil hf
      · obtain ⟨items, ks, rfl, hkeys, hks, hids⟩ := hd v ht
        exact intact_normalize (laidOver_distinct _) hkeys hks hids hf
    exact ⟨h, h.url _⟩

/-! ## The counters over a step -/

/-- Changing an entry, with its id: the counters of the other ids are as they were. -/
theorem counter_modify_entry {ks : List Val} (hids : DistinctIds ks) {f : Val → Val}
    (hid : ∀ k, idStr (f k) = idStr k) {i : Nat} {k : Val} {id : Str} (hk : ks[i]? = some k)
    (hkid : idStr k = some id) (j : Str) :
    counter (ks.modify i f) j = if j = id then requestsOf (f k) else counter ks j := by
  obtain ⟨ys, zs, rfl, rfl⟩ := split_of_getElem? hk
  rw [modify_append_cons]
  exact counter_replace hkid ((hid k).trans hkid) (before_of_distinct hids hkid).1 j

theorem counter_of_getElem {ks : List Val} (hids : DistinctIds ks) {i : Nat} {k : Val} {id : Str}
    (hk : ks[i]? = some k) (hkid : idStr k = some id) : counter ks id = requestsOf k := by
  have h := counter_modify_entry (f := fun k => k) hids (fun _ => rfl) hk hkid id
  rwa [if_pos rfl, show ks.modify i (fun k => k) = ks from List.modify_id i ks] at h

/-- A request is counted for one id. -/
theorem counter_counted {data data' : Dict} {presented : Str} {now : Flt} (h : Intact data)
    (hc : Counted data data' presented now) : ∃ k ∈ entries data, ∃ id n,
      keyStr k = some presented ∧ idStr k = some id ∧ counter (entries data) id = some n ∧
      ∀ j, counter (entries data') j =
        if j = id then some (n + 1) else counter (entries data) j := by
  obtain ⟨i, k, n, hk, hkey, hreq, rfl⟩ := counted_entry h hc
  have hmem := List.mem_of_getElem? hk
  obtain ⟨-, id, -, -, hid⟩ := (h.complete k hmem).id
  refine ⟨k, hmem, id, n, hkey, hid, (counter_of_getElem h.ids hk hid).trans hreq, fun j => ?_⟩
  rw [entries_setKeys, counter_modify_entry h.ids (idStr_withCount _ _) hk hid,
    requestsOf_withCount (h.complete k hmem)]

/-- Another change leaves the counter of an id that stays, unless its key is rotated. -/
theorem counter_changed {a : Label} {data data' : Dict} (h : Intact data)
    (hc : Change a data data') (ha : ∀ req now, a ≠ .proxy req now) {j : Str} {n n' : Int}
    (hn : counter (entries data) j = some n) (hn' : counter (entries data') j = some n') :
    n' = n ∨ n' = 0 ∧ ∃ fresh c, a = .admin (.keyOp j .rotate) fresh c := by
  cases hc with
  | count => exact absurd rfl (ha _ _)
  | config => exact .inl (Option.some.inj (hn'.symm.trans hn))
  | url =>
    rw [entries_insert_of_ne (by simp), hn] at hn'
    exact .inl (Option.some.inj hn').symm
  | create label hkeys =>
    obtain ⟨k, hk, -⟩ := Option.bind_eq_some_iff.1 hn
    rw [entries_eq hkeys] at hn hk
    rw [entries_setKeys, counter, List.find?_append, hk, Option.some_or] at hn'
    rw [counter, hk] at hn
    exact .inl (Option.some.inj (hn'.symm.trans hn))
  | @revoke kid _ _ _ i hi =>
    obtain ⟨ys, k, zs, hks, rfl, -, hk⟩ := split_of_findIdx hi
    have hids := h.ids
    have hkid : idStr k = some kid := by simpa [hasId] using hk
    rw [hks] at hids hn
    obtain ⟨hys, hzs⟩ := before_of_distinct hids hkid
    rw [entries_setKeys, hks, eraseIdx_append_cons, counter, List.find?_append] at hn'
    -- The id that is revoked is not there any more.
    have hj : j ≠ kid := by
      rintro rfl
      rw [List.find?_eq_none.2 fun y hy => by simp [hys y hy],
        List.find?_eq_none.2 fun z hz => by simp [hzs z hz]] at hn'
      cases hn'
    have hne : hasId j k = false := by simpa [hasId, hkid] using Ne.symm hj
    rw [counter, List.find?_append, List.find?_cons_of_neg (by simp [hne])] at hn
    exact .inl (Option.some.inj (hn'.symm.trans hn))
  | @rotate kid fresh c _ i hi =>
    obtain ⟨hlt, hk, -⟩ := List.findIdx?_eq_some_iff_getElem.1 hi
    have hkid : idStr (entries data)[i] = some kid := by simpa [hasId] using hk
    rw [entries_setKeys, counter_modify_entry h.ids (idStr_rotateKey fresh)
      (List.getElem?_eq_getElem hlt) hkid] at hn'
    split_ifs at hn' with hj
    · subst hj
      rw [requestsOf_rotateKey (h.complete _ (List.getElem_mem hlt))] at hn'
      exact .inr ⟨(Option.some.inj hn').symm, fresh, c, rfl⟩
    · exact .inl (Option.some.inj (hn'.symm.trans hn))
  | label i label =>
    rw [entries_setKeys, counter_modify (fun k => idStr_setItem (by simp) k _)
      (fun k => requestsOf_setItem_of_ne (by simp) k _), hn] at hn'
    exact .inl (Option.some.inj hn').symm
  | stale => exact .inl (Option.some.inj (hn'.symm.trans hn))

/-- The step is a tick whose reload adopts the document `v`. -/
def Adopts (s : State) (a : Label) (v : Val) : Prop :=
  ∃ c p, a = .tick c ∧ s.proc = some p ∧ (watch s.disk p.app.cfg c.reload).2.result = .ok true ∧
    (s.disk.edits c.reload.gap).text = some (.doc v)

/-- The step is an admitted request. -/
def Admits (a : Label) (r : Option Reply) : Prop :=
  ∃ req now up, a = .proxy req now ∧ r = some (.forward up)

/-- What the step does to the counters of the ids that are there before and after
    it: an admitted request is counted for one id, that of an entry with the key
    presented; a reload takes the maximum of memory and disk; and any other step
    leaves the counters, but for that of a key that is rotated. -/
structure CountersKept (s : State) (a : Label) (s' : State) (r : Option Reply) : Prop where
  admitted : ∀ req now up, a = .proxy req now → r = some (.forward up) →
    ∃ k ∈ s.entries, ∃ id n, keyStr k = some (bearer req) ∧ idStr k = some id ∧
      counter s.entries id = some n ∧
      ∀ j, counter s'.entries j = if j = id then some (n + 1) else counter s.entries j
  reloaded : ∀ v, Adopts s a v → ∀ j n n', counter s.entries j = some n →
    counter s'.entries j = some n' →
    ∃ m, counter (entries (laidOver v)) j = some m ∧ n' = max n m
  otherwise : ¬Admits a r → (∀ v, ¬Adopts s a v) → ∀ j n n', counter s.entries j = some n →
    counter s'.entries j = some n' →
    n' = n ∨ n' = 0 ∧ ∃ fresh c, a = .admin (.keyOp j .rotate) fresh c

/-- No step but a rotation of its key lowers the counter of an id. -/
theorem CountersKept.le {s s' : State} {a : Label} {r : Option Reply} (h : CountersKept s a s' r)
    {j : Str} {n n' : Int} (hn : counter s.entries j = some n)
    (hn' : counter s'.entries j = some n') :
    n ≤ n' ∨ ∃ fresh c, a = .admin (.keyOp j .rotate) fresh c := by
  by_cases hadmit : Admits a r
  · obtain ⟨req, now, up, ha, hr⟩ := hadmit
    obtain ⟨_, _, id, m, _, _, hm, hall⟩ := h.admitted req now up ha hr
    rw [hall] at hn'
    split_ifs at hn' with hj
    · subst hj
      obtain rfl := Option.some.inj (hm.symm.trans hn)
      obtain rfl := Option.some.inj hn'
      exact .inl (by omega)
    · exact .inl (Option.some.inj (hn.symm.trans hn')).le
  · by_cases hadopt : ∃ v, Adopts s a v
    · obtain ⟨v, hv⟩ := hadopt
      obtain ⟨m, -, rfl⟩ := h.reloaded v hv j n n' hn hn'
      exact .inl (le_max_left n m)
    · rcases h.otherwise hadmit (not_exists.1 hadopt) j n n' hn hn' with rfl | ⟨-, hrotate⟩
      · exact .inl le_rfl
      · exact .inr hrotate

/-- The saves of a step. -/
def Label.saves : Label → List SaveCalls
  | .start c => [c.save, c.saveUrl]
  | .admin _ _ c | .finish _ _ c | .stop c => [c]
  | .tick c => [c.reload.save, c.flush]
  | _ => []

/-- The condition on the steps of a run: edits bring in documents with complete
    entries of distinct ids, an id that is drawn is new, and saves succeed. -/
def Counting (s : State) (a : Label) : Prop :=
  Meets CompleteDoc DrawsIds s a ∧ ∀ c ∈ a.saves, c.failed = none

/-- A round of the watcher leaves the configuration, or adopts the document in the
    file. -/
theorem round_cases {d : Disk} {p : Proc} {c : TickCalls} (hI : Intact p.app.cfg.data)
    (hd : (d.edits c.reload.gap).Holds CompleteDoc) (hsave : c.reload.save.failed = none) :
    ((watch d p.app.cfg c.reload).1 = d.edits c.reload.gap ∧
      (watch d p.app.cfg c.reload).2.cfg.data = p.app.cfg.data ∧
      (watch d p.app.cfg c.reload).2.result ≠ .ok true) ∨
    ∃ v new m, (d.edits c.reload.gap).text = some (.doc v) ∧
      (∀ id, Dict.find m id = prevEntry p.app.cfg.data id) ∧ adopt m v = (new, none) ∧
      (watch d p.app.cfg c.reload).2.cfg.data = normalize c.reload.fresh new ∧
      (watch d p.app.cfg c.reload).2.result = .ok true ∧
      (watch d p.app.cfg c.reload).1 = (d.edits c.reload.gap).adopt.save
        (dumps (normalize c.reload.fresh new)) c.reload.save := by
  rcases watch_cases d p.app.cfg c.reload with h |
    ⟨v, m, new, ht, hm, _, ⟨e, had, -⟩ | ⟨had, hdata, ⟨_, hr, hdisk⟩ | ⟨e, hf, -⟩⟩⟩
  · exact .inl h
  · cases (adopt_complete hI (hd v ht) hm had).1
  · exact .inr ⟨v, new, m, ht, hm, had, hdata, hr, hdisk⟩
  · rw [hsave] at hf
    cases hf

/-- The flush leaves the configuration that the reload has left. -/
theorem round_data (d : Disk) (p : Proc) (c : TickCalls) :
    (p.round d c).2.app.cfg.data = (watch d p.app.cfg c.reload).2.cfg.data := by
  rcases flush_cases (watch d p.app.cfg c.reload).1 (p.reloaded (watch d p.app.cfg c.reload).2)
      c.flush with h | ⟨_, _, h, _⟩
  · rw [Proc.round, h]
    rfl
  · rw [Proc.round, h]
    rfl

/-- The counters after a reload are the higher ones. -/
theorem counter_adopted {data m new : Dict} {v : Val} (h : Intact data) (hv : CompleteDoc v)
    (hm : ∀ id, Dict.find m id = prevEntry data id) (had : adopt m v = (new, none))
    {fresh : Fresh} (hfresh : some fresh.id ∉ (entries data).map idStr) {j : Str} {n n' : Int}
    (hn : counter (entries data) j = some n)
    (hn' : counter (entries (normalize fresh new)) j = some n') :
    ∃ k, counter (entries (laidOver v)) j = some k ∧ n' = max n k := by
  obtain ⟨-, ks, hkeys, rfl, -, -, hcount⟩ := adopt_complete h hv hm had
  rw [entries_normalize] at hn'
  split_ifs at hn'
  · -- The default key has a new id.
    obtain ⟨k, hk, -⟩ := Option.bind_eq_some_iff.1 hn
    have hid : hasId j (newKey fresh "default") = true := by
      by_contra hne
      rw [counter, List.find?_cons_of_neg hne] at hn'
      cases hn'
    rw [hasId, decide_eq_true_eq, idStr_newKey] at hid
    have hkj := List.find?_some hk
    rw [hasId, decide_eq_true_eq, ← hid] at hkj
    exact absurd (List.mem_map.2 ⟨k, List.mem_of_find?_eq_some hk, hkj⟩) hfresh
  · rw [entries_setKeys, hcount] at hn'
    obtain ⟨k, hk, rfl⟩ := Option.map_eq_some_iff.1 hn'
    refine ⟨k, by rwa [entries_eq hkeys], ?_⟩
    rw [mergedCounter, hn]
    exact max_comm k n

section Step

variable {s s' : State} {a : Label} {r : Option Reply}

/-- A step that is neither a request to the proxy nor a tick. -/
theorem CountersKept.of_other (hp : ∀ req now, a ≠ .proxy req now) (ht : ∀ c, a ≠ .tick c)
    (h : ∀ j n n', counter s.entries j = some n → counter s'.entries j = some n' →
      n' = n ∨ n' = 0 ∧ ∃ fresh c, a = .admin (.keyOp j .rotate) fresh c) :
    CountersKept s a s' r where
  admitted req now _ ha := absurd ha (hp req now)
  reloaded := by
    rintro v ⟨c, _, ha, -⟩
    exact absurd ha (ht c)
  otherwise _ _ := h

/-- A tick of the watcher. -/
theorem CountersKept.tick {d : Disk} {p : Proc} {c : TickCalls}
    (hs : State.Sound Intact CompleteDoc ⟨d, some p⟩)
    (hc : Counting ⟨d, some p⟩ (.tick c)) :
    CountersKept ⟨d, some p⟩ (.tick c) ⟨(p.round d c).1, some (p.round d c).2⟩ none := by
  obtain ⟨⟨hb, hdraw⟩, hsaves⟩ := hc
  have hI : Intact p.app.cfg.data := hs.mem p rfl
  have hd := Disk.Holds.edits hs.file (bring_append.1 (bring_append.1 hb).1).1
  have hfresh := (hdraw _ (List.mem_singleton_self _)).1
  have hafter : State.entries ⟨(p.round d c).1, some (p.round d c).2⟩ =
      entries (watch d p.app.cfg c.reload).2.cfg.data := congrArg entries (round_data d p c)
  rcases round_cases hI hd (hsaves _ List.mem_cons_self) with ⟨-, hdata, hr⟩ |
    ⟨v, new, m, ht, hm, had, hdata, hr, -⟩
  · refine ⟨fun _ _ _ ha => (by cases ha), ?_, fun _ _ j n n' hn hn' => ?_⟩
    · rintro v ⟨_, _, ⟨⟩, ⟨⟩, hr', -⟩
      exact absurd hr' hr
    · rw [hafter, hdata] at hn'
      exact .inl (Option.some.inj (hn'.symm.trans hn))
  · refine ⟨fun _ _ _ ha => (by cases ha), ?_, fun _ hno => ?_⟩
    · rintro v' ⟨_, _, ⟨⟩, ⟨⟩, -, ht'⟩ j n n' hn hn'
      obtain rfl : v = v' := by simpa using (ht.symm.trans ht' : _)
      rw [hafter, hdata] at hn'
      exact counter_adopted hI (hd v ht) hm had hfresh hn hn'
    · exact absurd ⟨c, p, rfl, rfl, hr, ht⟩ (hno v)

/-- What the steps do to the counters. -/
theorem CountersKept.step (hs : s.Sound Intact CompleteDoc) (hc : Counting s a)
    (h : s.step a = some (s', r)) : CountersKept s a s' r := by
  cases State.steps_of_step h with
  | edit f =>
    exact .of_other (fun _ _ h => by cases h) (fun _ h => by cases h) fun j n n' hn hn' =>
      .inl (Option.some.inj (hn'.symm.trans hn))
  | start c =>
    exact .of_other (fun _ _ h => by cases h) (fun _ h => by cases h) fun j n n' hn _ => by
      cases hn
  | @proxy d p req now =>
    rcases proxy_cases p.app req now with ⟨r, h, hr⟩ | ⟨data, hcount, h⟩
    · -- The request is not admitted.
      have hsame : State.entries ⟨d, some { p with app := (proxy p.app req now).1 }⟩ =
          State.entries ⟨d, some p⟩ := by rw [h]
      refine ⟨fun _ _ up _ hup => absurd (Option.some.inj hup) (by rw [h]; exact hr up), ?_,
        fun _ _ j n n' hn hn' => ?_⟩
      · rintro v ⟨_, _, h, -⟩
        cases h
      · rw [hsame] at hn'
        exact .inl (Option.some.inj (hn'.symm.trans hn))
    · refine ⟨?_, ?_, fun hno => absurd ⟨req, now, _, rfl, by rw [h]⟩ hno⟩
      · rintro _ _ up ⟨⟩ -
        obtain ⟨k, hk, id, n, hkey, hid, hn, hall⟩ := counter_counted (hs.mem p rfl) hcount
        refine ⟨k, hk, id, n, hkey, hid, hn, ?_⟩
        rw [h]
        exact hall
      · rintro v ⟨_, _, h, -⟩
        cases h
  | @admin d p req fresh c =>
    refine .of_other (fun _ _ h => by cases h) (fun _ h => by cases h) fun j n n' hn hn' => ?_
    rcases admin_cases d p req fresh c with ⟨-, hp, -⟩ | ⟨data, hchange, -, hp, -⟩
    · rw [State.entries, Option.elim_some, hp.data] at hn'
      exact .inl (Option.some.inj (hn'.symm.trans hn))
    · rw [State.entries, Option.elim_some, hp.data] at hn'
      exact counter_changed (hs.mem p rfl) hchange (fun _ _ h => by cases h) hn hn'
  | @finish d p i w body c =>
    refine .of_other (fun _ _ h => by cases h) (fun _ h => by cases h) fun j n n' hn hn' => ?_
    rcases finish_cases d p w i body c with ⟨e, h⟩ | ⟨data, hchange, -, hp⟩
    · rw [State.entries, Option.elim_some, h] at hn'
      exact .inl (Option.some.inj (hn'.symm.trans hn))
    · rw [State.entries, Option.elim_some, hp.data] at hn'
      exact counter_changed (hs.mem p rfl) hchange (fun _ _ h => by cases h) hn hn'
  | tick c => exact .tick hs hc
  | flush c | stop c =>
    exact .of_other (fun _ _ h => by cases h) (fun _ h => by cases h) fun j n n' _ hn' => by
      cases hn'

end Step

/-! ## Memory and file -/

/-- The watcher is running, and the file holds the configuration if nothing is
    dirty and the gateway knows the file: no edit is pending. -/
def Linked (d : Disk) (p : Proc) : Prop :=
  p.watching = true ∧ (p.app.dirty = false → d.adopted = true →
    d.text = some (dumps p.app.cfg.data))

section Linked

variable {d : Disk} {p : Proc} {c : SaveCalls} {data : Dict}

/-- Edits leave the file as it is, or are pending. -/
theorem edits_eq_or_pending (d : Disk) (fs : List (Option File)) :
    d.edits fs = d ∨ (d.edits fs).adopted = false := by
  rcases List.eq_nil_or_concat fs with rfl | ⟨fs, f, rfl⟩
  · exact .inl rfl
  · rw [List.concat_eq_append, Disk.edits_concat]
    exact .inr rfl

/-- A save that succeeds, and that no edit follows, leaves its text in the file. -/
theorem text_of_save (hf : c.failed = none) (ha : (d.save (dumps data) c).adopted = true) :
    (d.save (dumps data) c).text = some (dumps data) := by
  have hsave : d.save (dumps data) c =
      ((d.edits c.before).replace (dumps data) c.stamp).edits c.after := by rw [Disk.save, hf]
  rw [hsave] at ha ⊢
  rcases edits_eq_or_pending ((d.edits c.before).replace (dumps data) c.stamp) c.after with h | h
  · rw [h]
    rfl
  · rw [h] at ha
    cases ha

/-- After a save, memory and file are linked. -/
theorem linked_of_save (hw : p.watching = true) (hf : c.failed = none) :
    Linked (d.save (dumps p.app.cfg.data) c) p :=
  ⟨hw, fun _ => text_of_save hf⟩

/-- Edits keep memory and file linked. -/
theorem Linked.edits (h : Linked d p) (fs : List (Option File)) : Linked (d.edits fs) p := by
  refine ⟨h.1, fun hdirty ha => ?_⟩
  rcases edits_eq_or_pending d fs with he | he
  · rw [he] at ha ⊢
    exact h.2 hdirty ha
  · rw [he] at ha
    cases ha

/-- A process with the same configuration and flags is linked to the same file. -/
theorem Linked.holds {p' : Proc} (h : Linked d p) (hp : p'.Holds p p.app.cfg.data) :
    Linked d p' := by
  rw [Linked, hp.watching, hp.dirty, hp.data]
  exact h

/-- A start-up that succeeds has saved what it has in memory. -/
theorem Linked.start {d : Disk} {c : StartCalls}
    (hs : ∀ c' ∈ (Label.start c).saves, c'.failed = none) {p : Proc} (hp : p ∈ (start d c).2) :
    Linked (start d c).1 p := by
  obtain ⟨hsave, hurl⟩ := List.forall_mem_cons.1 hs
  rcases start_cases d c with h | ⟨data, -, ⟨h, hall⟩ | ⟨h, hall⟩⟩
  · rw [h] at hp
    cases hp
  · obtain ⟨hdata, -, hw⟩ := hall p hp
    rw [h, ← hdata]
    exact linked_of_save hw hsave
  · obtain ⟨hdata, -, hw⟩ := hall p hp
    rw [h, ← hdata]
    exact linked_of_save hw (hurl _ (List.mem_singleton_self _))

/-- A round of the watcher keeps memory and file linked. -/
theorem Linked.round {c : TickCalls} (h : Linked d p) (hI : Intact p.app.cfg.data)
    (hd : (d.edits c.reload.gap).Holds CompleteDoc)
    (hs : ∀ c' ∈ (Label.tick c).saves, c'.failed = none) :
    Linked (p.round d c).1 (p.round d c).2 := by
  obtain ⟨hsave, hflush⟩ := List.forall_mem_cons.1 hs
  have hw : Linked (watch d p.app.cfg c.reload).1 (p.reloaded (watch d p.app.cfg c.reload).2) := by
    rcases round_cases hI hd hsave with ⟨hdisk, hdata, hr⟩ | ⟨_, new, _, _, _, _, hdata, hr, hdisk⟩
    · rw [hdisk]
      refine (h.edits c.reload.gap).holds ⟨hdata, ?_, rfl⟩
      exact if_neg hr
    · rw [hdisk, ← hdata]
      exact linked_of_save (p := p.reloaded _) h.1 hsave
  rcases flush_cases (watch d p.app.cfg c.reload).1 (p.reloaded (watch d p.app.cfg c.reload).2)
      c.flush with h | ⟨-, hdisk, hdata, hflags⟩
  · rw [Proc.round, h]
    exact hw
  · have hok := hflush _ (List.mem_singleton_self _)
    rw [Proc.round, hdisk, ← hdata]
    exact linked_of_save ((hflags hok).2.trans hw.1) hok

end Linked

/-- The steps keep memory and file linked. -/
theorem linked_step {s s' : State} {a : Label} {r : Option Reply}
    (hs : s.Sound Intact CompleteDoc) (hl : ∀ p ∈ s.proc, Linked s.disk p) (hc : Counting s a)
    (h : s.step a = some (s', r)) : ∀ p ∈ s'.proc, Linked s'.disk p := by
  obtain ⟨⟨hb, -⟩, hsaves⟩ := hc
  cases State.steps_of_step h with
  | edit f => exact fun q hq => (hl q hq).edits [f]
  | start c => exact fun q hq => .start hsaves hq
  | @proxy d p req now =>
    rintro _ ⟨⟩
    rcases proxy_cases p.app req now with ⟨r, h, -⟩ | ⟨data, -, h⟩
    · rw [h]
      exact hl p rfl
    · refine ⟨(hl p rfl).1, fun hdirty => ?_⟩
      rw [h] at hdirty
      cases hdirty
  | @admin d p req fresh c =>
    rintro _ ⟨⟩
    rcases admin_cases d p req fresh c with ⟨hdisk, hp, -⟩ | ⟨data, -, hdisk, hp, -⟩
    · rw [hdisk]
      exact (hl p rfl).holds hp
    · rw [hdisk, ← hp.data]
      exact linked_of_save (hp.watching.trans (hl p rfl).1) (hsaves c (List.mem_singleton_self c))
  | @finish d p i w body c =>
    rintro _ ⟨⟩
    rcases finish_cases d p w i body c with ⟨e, h⟩ | ⟨data, -, hdisk, hp⟩
    · rw [h]
      exact hl p rfl
    · rw [hdisk, ← hp.data]
      exact linked_of_save (hp.watching.trans (hl p rfl).1) (hsaves c (List.mem_singleton_self c))
  | @tick d p c =>
    rintro _ ⟨⟩
    exact (hl p rfl).round (hs.mem p rfl)
      (Disk.Holds.edits hs.file (bring_append.1 (bring_append.1 hb).1).1) hsaves
  | flush c | stop c => exact fun _ hq => by cases hq

/-- A clean shutdown leaves every counter in the file, if no edit is pending. -/
theorem text_of_stop {d : Disk} {p : Proc} {s' : State} {c : SaveCalls} {r : Option Reply}
    (hl : Linked d p) (hf : c.failed = none) (h : State.step ⟨d, some p⟩ (.stop c) = some (s', r))
    (ha : s'.disk.adopted = true) : s'.disk.text = some (dumps p.app.cfg.data) := by
  cases State.steps_of_step h with
  | flush => exact text_of_save hf ha
  | stop _ hflush => exact hl.2 (Bool.eq_false_iff.2 fun hdirty => hflush ⟨hl.1, hdirty⟩) ha

/-- Request counters are never lost: in every state that a run reaches, there are a
    key and an admin token, and the file holds the configuration if nothing is dirty
    and no edit is pending; every step keeps the counters, and lowers none but that
    of a key that it rotates; and a clean shutdown that leaves no edit pending leaves
    the configuration in the file. -/
theorem counters_never_lost {s₀ s : State} (h₀ : s₀.Initial) (hfile : s₀.disk.Holds CompleteDoc)
    (hrun : (server.restrict Counting).Leads s₀ s) :
    (∀ p ∈ s.proc, entries p.app.cfg.data ≠ [] ∧ falsy p.app.cfg.data "admin_token" = false) ∧
    (∀ p ∈ s.proc, p.app.dirty = false → s.disk.adopted = true →
      s.disk.text = some (dumps p.app.cfg.data)) ∧
    ∀ a s' r, Counting s a → s.step a = some (s', r) → CountersKept s a s' r ∧
      (∀ j n n', counter s.entries j = some n → counter s'.entries j = some n' →
        n ≤ n' ∨ ∃ fresh c, a = .admin (.keyOp j .rotate) fresh c) ∧
      ∀ c, a = .stop c → ∀ p ∈ s.proc, s'.disk.adopted = true →
        s'.disk.text = some (dumps p.app.cfg.data) := by
  obtain ⟨hs, hl⟩ : s.Sound Intact CompleteDoc ∧ ∀ p ∈ s.proc, Linked s.disk p := by
    have hdown : ∀ p, p ∉ s₀.proc := fun p hp => by rw [h₀.1] at hp; cases hp
    refine hrun.invariant (P := fun s => s.Sound Intact CompleteDoc ∧ ∀ p ∈ s.proc, Linked s.disk p)
      ⟨⟨hfile, fun p hp => absurd hp (hdown p)⟩, fun p hp => absurd hp (hdown p)⟩ ?_
    rintro s a s' ⟨hs, hl⟩ ⟨hc, hstep⟩
    obtain ⟨⟨t, r⟩, ht, rfl⟩ := Option.map_eq_some_iff.1 hstep
    exact ⟨kept_intact.step hs hc.1 ht, linked_step hs hl hc ht⟩
  refine ⟨fun p hp => ⟨(hs.mem p hp).nonempty, (hs.mem p hp).token⟩, fun p hp => (hl p hp).2,
    fun a s' r hc h => ?_⟩
  have hkept : CountersKept s a s' r := .step hs hc h
  refine ⟨hkept, fun j n n' => hkept.le, ?_⟩
  rintro c rfl p hp ha
  obtain ⟨d, q⟩ := s
  obtain rfl : q = some p := hp
  exact text_of_stop (hl p rfl) (hc.2 c (List.mem_singleton_self c)) h ha

/-! ## A run -/

/-- A file with three keys is a document with complete entries. -/
theorem complete_threeKeys : (State.down (some threeKeys)).disk.Holds CompleteDoc := by
  intro v hv
  obtain rfl := Text.doc.inj (Option.some.inj hv)
  refine ⟨_, _, rfl, rfl, fun k hk => ?_, by change List.Nodup _; decide⟩
  simp only [List.mem_cons, List.not_mem_nil, or_false] at hk
  rcases hk with rfl | rfl | rfl
  · exact complete_newKey _ _
  · exact complete_newKey _ _
  · exact complete_newKey _ _

/-- An admitted request is counted, and its counter is in the file after a clean
    shutdown. -/
theorem counters_never_lost_stop :
    ∃ s s' p, (State.down (some threeKeys)).run [Label.start startUp,
        .proxy (getModels [(str "Authorization", str "Bearer sk-1")]) (.fin 9)] = some s ∧
      s.step (.stop (.undisturbed 5)) = some (s', none) ∧ s.proc = some p ∧
      counter (entries p.app.cfg.data) "a" = some 1 ∧
      s'.disk.text = some (dumps p.app.cfg.data) := by
  obtain ⟨s, s', p, hs, hstop, hp, hcount, hadopted⟩ : ∃ s s' p,
      (State.down (some threeKeys)).run [Label.start startUp,
        .proxy (getModels [(str "Authorization", str "Bearer sk-1")]) (.fin 9)] = some s ∧
      s.step (.stop (.undisturbed 5)) = some (s', none) ∧ s.proc = some p ∧
      counter (entries p.app.cfg.data) "a" = some 1 ∧ s'.disk.adopted = true :=
    ⟨_, _, _, rfl, rfl, rfl, by decide, rfl⟩
  have start : Counting (State.down (some threeKeys)) (.start startUp) := by
    refine ⟨⟨bring_nil, fun fresh hf => ?_⟩, by simp [Label.saves, startUp, SaveCalls.undisturbed]⟩
    obtain rfl := List.mem_singleton.1 hf
    exact ⟨List.not_mem_nil, by decide⟩
  have request : ∀ s req now, Counting s (.proxy req now) :=
    fun s req now => ⟨⟨bring_nil, fun _ h => by cases h⟩, fun _ h => by cases h⟩
  have stop : Counting s (.stop (.undisturbed 5)) :=
    ⟨⟨bring_nil, fun _ h => by cases h⟩, by simp [Label.saves, SaveCalls.undisturbed]⟩
  obtain ⟨-, -, hstep⟩ := counters_never_lost (s := s) ⟨rfl, rfl, rfl⟩ complete_threeKeys
    (State.leads_of_run (l := [_, _]) ⟨start, fun _ _ => ⟨request _ _ _, fun _ _ => trivial⟩⟩ hs)
  exact ⟨s, s', p, hs, hstop, hp, hcount, (hstep _ _ _ stop hstop).2.2 _ rfl p hp hadopted⟩

/-! ## Counters that are no integers -/

/-- A value for a field, where the counter may be any number. -/
def NumericField (name : Str) (v : Val) : Prop :=
  (name = str "id" ∨ name = str "key" → ∃ s, v = .str s) ∧
    (name = str "requests" → ∃ x, v.num = some x)

/-- A document that is an object with a list of entries of distinct ids, complete but for
    counters that may be any numbers. -/
def NumericDoc (v : Val) : Prop :=
  ∃ items ks, v = .dict items ∧ Dict.get (laidOver v) "keys" = some (.list ks) ∧
    (∀ k ∈ ks, HasFields NumericField k) ∧ DistinctIds ks

/-- What an entry with the id has as its counter. -/
def requestsOfId (ks : List Val) (id : Str) : Option Val :=
  (ks.find? (hasId id)).bind fun k => (k.getItem "requests").toOption

/-- A document with a key whose counter is the float `2 ^ 53`. -/
def hugeDoc : Val :=
  .dict [(.str "keys", .list [.dict [(.str "id", .str "h"), (.str "label", .str "huge"),
    (.str "key", .str "sk-huge"), (.str "created", .float (.fin 0)), (.str "last_used", .none),
    (.str "requests", .float (.fin (2 ^ 53)))]])]

/-- A request with that key. -/
def hugeRequest : Label := .proxy (getModels [(str "Authorization", str "Bearer sk-huge")]) (.fin 9)

/-- An admitted request leaves a counter that is the float `2 ^ 53`. -/
theorem counters_never_lost_fails : NumericDoc hugeDoc ∧ ∃ s s' up,
    (State.down none).run [.start startUp, .edit (some ⟨.doc hugeDoc, ⟨3, 3, 3⟩⟩),
      .tick tickOnce] = some s ∧
    s.step hugeRequest = some (s', some (.forward up)) ∧
    requestsOfId s.entries "h" = some (.float (.fin (2 ^ 53))) ∧
    requestsOfId s'.entries "h" = some (.float (.fin (2 ^ 53))) := by
  refine ⟨⟨_, _, rfl, rfl, ?_, ?_⟩, ?_⟩
  · refine List.forall_mem_singleton.2 ⟨_, rfl, forall_fieldNames.2 ⟨?_, ?_, ?_, ?_⟩⟩
    · exact ⟨.str "h", rfl, fun _ => ⟨_, rfl⟩, by simp⟩
    · exact ⟨.str "sk-huge", rfl, fun _ => ⟨_, rfl⟩, by simp⟩
    · exact ⟨_, rfl, by simp, fun _ => ⟨_, rfl⟩⟩
    · exact ⟨.none, rfl, by simp, by simp⟩
  · exact List.nodup_singleton _
  · refine ⟨_, _, _, rfl, rfl, rfl, ?_⟩
    change some (Val.float (Flt.succ (.fin (2 ^ 53)))) = _
    rw [Flt.succ_two_pow]

end FlashNext.Gateway
