import Mathlib.Data.List.Induction
import FlashNext.Gateway.Config

/-!
# Reloading the configuration

A reload adopts an edit of the file: the document is laid over a blank
configuration, and every entry keeps the higher of its two counters. It binds
`self.data` to the blank configuration first, and can raise at each step that
follows: what is then left in memory is neither the old configuration nor the
edited one, while the watcher reports that it keeps the current one.

* `reload_cases`: all that a reload can do;
* `Mergeable`: the documents whose adoption does not raise, said of the
  document and of the entries in memory (`adopt_ok_iff`);
* `reload_allOrNothing_iff`: a reload is all or nothing exactly when it does not
  get as far as binding `self.data`, or the document is mergeable and the save
  succeeds.
-/

namespace FlashNext.Gateway

open Python

/-! ## The index of the entries in memory -/

/-- The id of an entry, where it has one that can index it. -/
def idOf : Val → Option Key
  | .dict d => (Dict.get d "id").bind fun v => v.toKey.toOption
  | _ => none

/-- An entry that the comprehension `mine` takes or leaves without raising. -/
def EntryIndexable : Val → Prop
  | .dict d => ∀ v, Dict.get d "id" = some v → ∃ id, v.toKey = .ok id
  | .list xs => xs.any (Val.eq · (.str "id")) = false
  | .str s => s.tails.any ((str "id").isPrefixOf ·) = false
  | _ => False

/-- The keys of the configuration are a collection of such entries. -/
def Indexable (data : Dict) : Prop :=
  ∃ keys ks, Dict.get data "keys" = some keys ∧ keys.iter = .ok ks ∧ ∀ k ∈ ks, EntryIndexable k

/-- The entry in memory with the id `id`, the last one if there are several. -/
def prevEntry (data : Dict) (id : Key) : Option Val :=
  (((Dict.get data "keys").bind fun keys => keys.iter.toOption).getD []).filter
    (fun k => (idOf k).any (·.same id)) |>.getLast?

/-- An entry added to the index `acc`. -/
def indexEntry (acc : Dict) (k : Val) : Dict :=
  match idOf k with
  | some id => Dict.insert acc id k
  | none => acc

/-- An indexable entry is indexed by its id, if it has one. -/
theorem mineEntry_of_indexable {k : Val} (hk : EntryIndexable k) (acc : Dict) :
    mineEntry acc k = .ok (indexEntry acc k) := by
  cases k with
  | dict d =>
    cases hid : Dict.get d "id" with
    | none => simp [mineEntry, indexEntry, Val.contains, idOf, hid, bind, Except.bind, pure,
        Except.pure]
    | some v =>
      obtain ⟨id, hid'⟩ := hk v hid
      simp [mineEntry, indexEntry, Val.contains, Val.getItem, idOf, hid, hid', bind, Except.bind,
        pure, Except.pure, Except.toOption]
  | list xs =>
    rw [EntryIndexable] at hk
    simp [mineEntry, indexEntry, Val.contains, idOf, hk, bind, Except.bind, pure, Except.pure]
  | str s =>
    rw [EntryIndexable] at hk
    simp [mineEntry, indexEntry, Val.contains, idOf, hk, bind, Except.bind, pure, Except.pure]
  | _ => exact hk.elim

/-- The comprehension raises on any other entry. -/
theorem mineEntry_of_not_indexable {k : Val} (hk : ¬EntryIndexable k) (acc : Dict) :
    ∃ e, mineEntry acc k = .error e := by
  cases k with
  | dict d =>
    simp only [EntryIndexable, not_forall, not_exists] at hk
    obtain ⟨v, hid, hv⟩ := hk
    cases hv' : v.toKey with
    | ok id => exact absurd hv' (hv id)
    | error e =>
      exact ⟨e, by simp [mineEntry, Val.contains, Val.getItem, hid, hv', bind, Except.bind]⟩
  | list xs =>
    rw [EntryIndexable, Bool.not_eq_false] at hk
    exact ⟨_, by simp [mineEntry, Val.contains, Val.getItem, hk, bind, Except.bind]; rfl⟩
  | str s =>
    rw [EntryIndexable, Bool.not_eq_false] at hk
    exact ⟨_, by simp [mineEntry, Val.contains, Val.getItem, hk, bind, Except.bind]; rfl⟩
  | _ => exact ⟨_, rfl⟩

theorem foldlM_mineEntry {ks : List Val} (acc : Dict) :
    (∀ k ∈ ks, EntryIndexable k) → ks.foldlM mineEntry acc = .ok (ks.foldl indexEntry acc) := by
  induction ks generalizing acc with
  | nil => exact fun _ => rfl
  | cons k ks ih =>
    intro h
    rw [List.forall_mem_cons] at h
    rw [List.foldlM_cons, mineEntry_of_indexable h.1]
    exact ih _ h.2

theorem foldlM_mineEntry_error {ks : List Val} (acc : Dict) (h : ¬∀ k ∈ ks, EntryIndexable k) :
    ∃ e, ks.foldlM mineEntry acc = .error e := by
  induction ks generalizing acc with
  | nil => exact absurd (by simp) h
  | cons k ks ih =>
    rw [List.foldlM_cons]
    by_cases hk : EntryIndexable k
    · rw [mineEntry_of_indexable hk]
      exact ih _ fun hks => h (List.forall_mem_cons.2 ⟨hk, hks⟩)
    · obtain ⟨e, he⟩ := mineEntry_of_not_indexable hk acc
      exact ⟨e, by rw [he]; rfl⟩

/-- An entry found in the index is the last one of its id. -/
theorem find_index (ks : List Val) (id : Key) :
    Dict.find (ks.foldl indexEntry []) id =
      (ks.filter fun k => (idOf k).any (·.same id)).getLast? := by
  induction ks using List.reverseRecOn with
  | nil => rfl
  | append_singleton ks k ih =>
    rw [List.filter_append, List.foldl_append, List.foldl_cons, List.foldl_nil, indexEntry]
    cases hk : idOf k with
    | none => simp [hk, ih]
    | some j =>
      -- An entry of the same id is replaced.
      simp only [Dict.find_insert, ih]
      by_cases hj : j.same id <;> simp [hk, hj]

/-- The comprehension `mine` succeeds on the indexable configurations, and
    finds the entry in memory with a given id. -/
theorem mine_of_indexable {data : Dict} (h : Indexable data) :
    ∃ m, mine data = .ok m ∧ ∀ id, Dict.find m id = prevEntry data id := by
  obtain ⟨keys, ks, hkeys, hks, hall⟩ := h
  refine ⟨ks.foldl indexEntry [], ?_, fun id => ?_⟩
  · simp [mine, Val.getItem, hkeys, hks, bind, Except.bind]
    exact foldlM_mineEntry [] hall
  · simp [prevEntry, hkeys, hks, Except.toOption, find_index]

theorem mine_of_not_indexable {data : Dict} (h : ¬Indexable data) :
    ∃ e, mine data = .error e := by
  cases hkeys : Dict.get data "keys" with
  | none => exact ⟨.keyError, by simp [mine, Val.getItem, hkeys, bind, Except.bind]⟩
  | some keys =>
    cases hks : keys.iter with
    | error e => exact ⟨e, by simp [mine, Val.getItem, hkeys, hks, bind, Except.bind]⟩
    | ok ks =>
      obtain ⟨e, he⟩ := foldlM_mineEntry_error [] fun hall => h ⟨keys, ks, hkeys, hks, hall⟩
      exact ⟨e, by simpa [mine, Val.getItem, hkeys, hks, bind, Except.bind] using he⟩

/-- The entry in memory with a given id is a dict, with an id. -/
theorem prevEntry_dict {data : Dict} {id : Key} {prev : Val} (h : prevEntry data id = some prev) :
    ∃ p, prev = .dict p ∧ (Val.dict p).truthy = true := by
  have hmem := List.mem_of_getLast? h
  rw [List.mem_filter] at hmem
  cases prev with
  | dict p =>
    refine ⟨p, rfl, ?_⟩
    cases p with
    | nil => simp [idOf] at hmem
    | cons _ _ => rfl
  | _ => simp [idOf] at hmem

/-! ## The merge -/

/-- An entry that the loop merges without raising: it is an object whose id can
    be looked up, and if there is an entry in memory with that id, then their
    counters can be compared, and the fields that would be copied are there. -/
def EntryMergeable (data : Dict) (k : Val) : Prop :=
  ∃ d id, k = .dict d ∧ ((Dict.get d "id").getD .none).toKey = .ok id ∧
    ∀ p, prevEntry data id = some (.dict p) →
      ∃ b,
        ((Dict.get p "requests").getD (.int 0)).gt ((Dict.get d "requests").getD (.int 0)) = .ok b ∧
        (b = true → (Dict.get p "requests").isSome ∧ (Dict.get p "last_used").isSome)

/-- A document that can be adopted over the configuration `data`: an object, or
    a list of pairs, whose keys are a collection of mergeable entries. -/
def Mergeable (data : Dict) (disk : Val) : Prop :=
  Dict.Updatable disk ∧ ∃ keys ks, Dict.get (Dict.update blank disk).1 "keys" = some keys ∧
    keys.iter = .ok ks ∧ ∀ k ∈ ks, EntryMergeable data k

variable {data : Dict} {m : Dict}

theorem mergeEntry_ok_iff (hm : ∀ id, Dict.find m id = prevEntry data id) (k : Val) :
    (∃ k', mergeEntry m k = .ok k') ↔ EntryMergeable data k := by
  cases k with
  | dict d =>
    cases hid : ((Dict.get d "id").getD .none).toKey with
    | error e => simp [mergeEntry, EntryMergeable, Val.getD, hid, bind, Except.bind]
    | ok id =>
      simp only [EntryMergeable, Val.dict.injEq, exists_eq_left', hid, Except.ok.injEq,
        exists_and_left, ← hm]
      cases hp : Dict.find m id with
      | none => simp [mergeEntry, Val.getD, hid, hp, bind, Except.bind, pure, Except.pure]
      | some prev =>
        obtain ⟨p, rfl, ht⟩ := prevEntry_dict ((hm id).symm.trans hp)
        -- The fields are only read if our counter is higher.
        cases hgt : ((Dict.get p "requests").getD (.int 0)).gt
            ((Dict.get d "requests").getD (.int 0)) with
        | error e => simp [mergeEntry, Val.getD, hid, hp, ht, hgt, bind, Except.bind]
        | ok b =>
          cases b with
          | false => simp [mergeEntry, Val.getD, hid, hp, ht, hgt, bind, Except.bind, pure,
              Except.pure]
          | true =>
            cases hr : Dict.get p "requests" <;> cases hl : Dict.get p "last_used" <;>
              simp_all [mergeEntry, Val.getD, Val.getItem, bind, Except.bind, pure, Except.pure]
  | _ => simp [mergeEntry, EntryMergeable, Val.getD, bind, Except.bind]

theorem mergeKeys_ok_iff (hm : ∀ id, Dict.find m id = prevEntry data id) (ks : List Val) :
    (mergeKeys m ks).2 = none ↔ ∀ k ∈ ks, EntryMergeable data k := by
  induction ks with
  | nil => simp [mergeKeys]
  | cons k ks ih =>
    rw [List.forall_mem_cons, ← mergeEntry_ok_iff hm, ← ih, mergeKeys]
    cases mergeEntry m k <;> simp

/-- The adoption raises on the documents that are not mergeable, and only on
    these. -/
theorem adopt_ok_iff (hm : ∀ id, Dict.find m id = prevEntry data id) (disk : Val) :
    (adopt m disk).2 = none ↔ Mergeable data disk := by
  rw [Mergeable, ← Dict.update_ok_iff blank disk]
  cases hu : Dict.update blank disk with
  | mk new err =>
    cases err with
    | some e => simp [adopt, hu]
    | none =>
      cases hkeys : Dict.get new "keys" with
      | none => simp [adopt, hu, Val.getItem, hkeys]
      | some keys =>
        cases hks : keys.iter with
        | error e => simp [adopt, hu, Val.getItem, hkeys, hks]
        | ok ks => simp [adopt, hu, Val.getItem, hkeys, hks, mergeKeys_ok_iff hm]

/-! ## All that a reload can do -/

/-- The file cannot be read as a document: it is absent, does not parse, or
    holds `null`. -/
def Unreadable : Option Text → Prop
  | some (.doc v) => v = .none
  | _ => True

theorem read_of_unreadable {text : Option Text} (h : Unreadable text) :
    read text = .ok none ∨ ∃ b e, text = some (.deep b) ∧ read text = .error e := by
  cases text with
  | none => exact .inl rfl
  | some t =>
    cases t with
    | doc v => exact .inl (by rw [show v = .none from h]; rfl)
    | junk b => exact .inl rfl
    | deep b => exact .inr ⟨b, _, rfl, rfl⟩

theorem read_of_not_unreadable {text : Option Text} (h : ¬Unreadable text) :
    ∃ disk, text = some (.doc disk) ∧ read text = .ok (some disk) := by
  cases text with
  | none => exact absurd trivial h
  | some t =>
    cases t with
    | doc v => exact ⟨v, rfl, by cases v <;> first | rfl | exact absurd rfl h⟩
    | junk b => exact absurd trivial h
    | deep b => exact absurd trivial h

/-- The reload does not get to the point where it binds `self.data`: the file
    is absent or unchanged, or cannot be read, or the keys in memory cannot be
    indexed. -/
def Untouched (cfg : Config) (calls : ReloadCalls) : Prop :=
  calls.stat = none ∨ calls.stat = cfg.stamp ∨ Unreadable calls.text ∨ ¬Indexable cfg.data

/-- A reload that stops before it touches the data notes at most that it has warned. It
    raises only what indexing the keys, or reading a document that is nested too deeply,
    raises. -/
theorem reload_eq_of_untouched {cfg : Config} {calls : ReloadCalls} (hu : Untouched cfg calls) :
    ∃ warned result, cfg.reloadIfChanged calls = ⟨{ cfg with warned := warned }, none, result⟩ ∧
      result ≠ .ok true ∧
      (Indexable cfg.data → (∀ b, calls.text ≠ some (.deep b)) → result = .ok false) := by
  cases hst : calls.stat with
  | none =>
    exact ⟨cfg.warned, .ok false, by simp [Config.reloadIfChanged, hst], by simp, fun _ _ => rfl⟩
  | some st =>
    by_cases hc : cfg.stamp = some st
    · refine ⟨cfg.warned, .ok false, ?_, by simp, fun _ _ => rfl⟩
      rw [Config.reloadIfChanged, hst]
      exact if_pos hc
    by_cases hr : Unreadable calls.text
    · rcases read_of_unreadable hr with hread | ⟨b, e, ht, hread⟩
      · exact ⟨some st, .ok false, by simp [Config.reloadIfChanged, hst, hc, hread], by simp,
          fun _ _ => rfl⟩
      · exact ⟨cfg.warned, .error e, by simp [Config.reloadIfChanged, hst, hc, hread], by simp,
          fun _ hdeep => absurd ht (hdeep b)⟩
    · obtain ⟨disk, _, hread⟩ := read_of_not_unreadable hr
      have hi : ¬Indexable cfg.data := by
        rcases hu with h | h | h | h
        · simp [hst] at h
        · exact absurd (h.symm.trans hst) hc
        · exact absurd h hr
        · exact h
      obtain ⟨e, he⟩ := mine_of_not_indexable hi
      exact ⟨cfg.warned, .error e, by simp [Config.reloadIfChanged, hst, hc, hread, he], by simp,
        fun h => absurd h hi⟩

/-- A reload that stops before it touches the data leaves it, and writes nothing. -/
theorem reload_of_untouched {cfg : Config} {calls : ReloadCalls} (hu : Untouched cfg calls) :
    (cfg.reloadIfChanged calls).cfg.data = cfg.data ∧
      (cfg.reloadIfChanged calls).cfg.gen = cfg.gen ∧
      (cfg.reloadIfChanged calls).cfg.stamp = cfg.stamp ∧
      (cfg.reloadIfChanged calls).wrote = none ∧
      (cfg.reloadIfChanged calls).result ≠ .ok true := by
  obtain ⟨warned, result, heq, hne, -⟩ := reload_eq_of_untouched hu
  rw [heq]
  exact ⟨rfl, rfl, rfl, rfl, hne⟩

/-- A reload that touches the data binds it to what the document gives, and raises
    from that, or saves it. -/
theorem reload_of_touched {cfg : Config} {calls : ReloadCalls} (hu : ¬Untouched cfg calls) :
    ∃ disk m, calls.text = some (.doc disk) ∧ mine cfg.data = .ok m ∧
      (∀ id, Dict.find m id = prevEntry cfg.data id) ∧
      cfg.reloadIfChanged calls =
        match adopt m disk with
        | (data, some e) => ⟨{ cfg with data := data, gen := cfg.gen + 1 }, none, .error e⟩
        | (data, none) =>
          match calls.saved with
          | .ok st =>
            ⟨{ cfg with data := normalize calls.fresh data, gen := cfg.gen + 1, stamp := st },
              some (dumps (normalize calls.fresh data)), .ok true⟩
          | .error e =>
            ⟨{ cfg with data := normalize calls.fresh data, gen := cfg.gen + 1 }, none,
              .error e⟩ := by
  simp only [Untouched, not_or, not_not] at hu
  obtain ⟨hst, hc, hr, hi⟩ := hu
  obtain ⟨st, hst⟩ := Option.ne_none_iff_exists'.1 hst
  have hc : cfg.stamp ≠ some st := fun h => hc (hst.trans h.symm)
  obtain ⟨disk, htext, hread⟩ := read_of_not_unreadable hr
  obtain ⟨m, hmine, hm⟩ := mine_of_indexable hi
  refine ⟨disk, m, htext, hmine, hm, ?_⟩
  simp only [Config.reloadIfChanged, Config.save, hst, hc, hread, hmine, if_false]
  rcases adopt m disk with ⟨data, _ | e⟩
  · cases calls.saved <;> rfl
  · rfl

/-- A reload stops before it touches the data; or it binds the data to what the
    document gives before it raises; or it adopts the document, and saves it or
    raises from the save. -/
theorem reload_cases (cfg : Config) (calls : ReloadCalls) :
    (Untouched cfg calls ∧ (cfg.reloadIfChanged calls).cfg.data = cfg.data ∧
      (cfg.reloadIfChanged calls).cfg.gen = cfg.gen ∧
      (cfg.reloadIfChanged calls).cfg.stamp = cfg.stamp ∧
      (cfg.reloadIfChanged calls).wrote = none ∧
      (cfg.reloadIfChanged calls).result ≠ .ok true) ∨
    ∃ disk m, ¬Untouched cfg calls ∧ calls.text = some (.doc disk) ∧
      mine cfg.data = .ok m ∧ (∀ id, Dict.find m id = prevEntry cfg.data id) ∧
      ((∃ data e, adopt m disk = (data, some e) ∧ ¬Mergeable cfg.data disk ∧
          cfg.reloadIfChanged calls =
            ⟨{ cfg with data := data, gen := cfg.gen + 1 }, none, .error e⟩) ∨
        ∃ data, adopt m disk = (data, none) ∧ Mergeable cfg.data disk ∧
          ((∃ st, calls.saved = .ok st ∧ cfg.reloadIfChanged calls =
              ⟨{ cfg with data := normalize calls.fresh data, gen := cfg.gen + 1, stamp := st },
                some (dumps (normalize calls.fresh data)), .ok true⟩) ∨
            ∃ e, calls.saved = .error e ∧ cfg.reloadIfChanged calls =
              ⟨{ cfg with data := normalize calls.fresh data, gen := cfg.gen + 1 }, none,
                .error e⟩)) := by
  by_cases hu : Untouched cfg calls
  · exact .inl ⟨hu, reload_of_untouched hu⟩
  · obtain ⟨disk, m, htext, hmine, hm, hrel⟩ := reload_of_touched hu
    refine .inr ⟨disk, m, hu, htext, hmine, hm, ?_⟩
    have hmerge := adopt_ok_iff hm disk
    rcases had : adopt m disk with ⟨data, _ | e⟩
    · rw [had] at hmerge
      refine .inr ⟨data, rfl, hmerge.1 rfl, ?_⟩
      cases hs : calls.saved with
      | ok st => exact .inl ⟨st, rfl, by rw [hrel, had, hs]⟩
      | error e => exact .inr ⟨e, rfl, by rw [hrel, had, hs]⟩
    · rw [had] at hmerge
      exact .inl ⟨data, e, rfl, fun h => (nomatch hmerge.2 h), by rw [hrel, had]⟩

/-! ## All or nothing -/

/-- If the reload raises or returns `False`, then the configuration is the one
    it was, object and contents, so that the next flush writes it back. -/
def AllOrNothing (cfg : Config) (calls : ReloadCalls) : Prop :=
  (cfg.reloadIfChanged calls).result ≠ .ok true →
    (cfg.reloadIfChanged calls).cfg.data = cfg.data ∧
    (cfg.reloadIfChanged calls).cfg.gen = cfg.gen ∧
    ∀ st, ((cfg.reloadIfChanged calls).cfg.save (.ok st)).2 = .ok (dumps cfg.data)

/-- A reload is all or nothing exactly when it does not get as far as binding
    `self.data`, or the document is mergeable and the save succeeds. -/
theorem reload_allOrNothing_iff (cfg : Config) (calls : ReloadCalls) :
    AllOrNothing cfg calls ↔ Untouched cfg calls ∨
      ∃ disk st, calls.text = some (.doc disk) ∧ Mergeable cfg.data disk ∧
        calls.saved = .ok st := by
  rcases reload_cases cfg calls with ⟨hu, hdata, hgen, _, _, _⟩ | ⟨disk, m, hu, htext, _, _, h⟩
  · exact ⟨fun _ => .inl hu, fun _ _ => ⟨hdata, hgen, fun st => by rw [Config.save, hdata]⟩⟩
  -- Past the binding the generation differs, so only a reload that returns
  -- `True` is all or nothing.
  have key : AllOrNothing cfg calls ↔ (cfg.reloadIfChanged calls).result = .ok true := by
    refine ⟨fun ha => ?_, fun hr hne => absurd hr hne⟩
    by_contra hr
    have hgen := (ha hr).2.1
    rcases h with ⟨_, _, _, _, hrel⟩ | ⟨_, _, _, ⟨_, _, hrel⟩ | ⟨_, _, hrel⟩⟩ <;>
      simp [hrel] at hgen
  rw [key]
  rcases h with ⟨data, e, _, hnm, hrel⟩ | ⟨data, _, hmerge, ⟨st, hs, hrel⟩ | ⟨e, hs, hrel⟩⟩
  · rw [hrel]
    refine ⟨fun h => by simp at h, fun h => ?_⟩
    rcases h with h | ⟨disk', _, htext', hmerge, _⟩
    · exact absurd h hu
    · obtain rfl : disk = disk' := by simpa using htext.symm.trans htext'
      exact absurd hmerge hnm
  · rw [hrel]
    exact ⟨fun _ => .inr ⟨disk, st, htext, hmerge, hs⟩, fun _ => rfl⟩
  · rw [hrel]
    refine ⟨fun h => by simp at h, fun h => ?_⟩
    rcases h with h | ⟨_, st, _, _, hs'⟩
    · exact absurd h hu
    · rw [hs] at hs'; cases hs'

/-- The edit `{"keys": null}` of the file of `oneKey`. -/
def nullKeys : ReloadCalls where
  stat := some ⟨2, 2, 2⟩
  text := some (.doc (.dict [(.str "keys", .none)]))
  fresh := ⟨str "t", str "b2", str "other", .fin 0⟩
  saved := .ok (some ⟨3, 3, 3⟩)

/-- Reloading `{"keys": null}` raises, and leaves neither a key nor an admin
    token, in memory and in the file after the next flush. -/
theorem reload_null_keys_loses :
    (oneKey.reloadIfChanged nullKeys).result = .error .typeError ∧
    Dict.get (oneKey.reloadIfChanged nullKeys).cfg.data "keys" = some .none ∧
    Dict.get (oneKey.reloadIfChanged nullKeys).cfg.data "admin_token" = some (.str []) ∧
    ((oneKey.reloadIfChanged nullKeys).cfg.save (.ok none)).2 =
      .ok (dumps [(.str "public_url", .str []), (.str "keys", .none),
        (.str "admin_token", .str [])]) ∧
    ¬AllOrNothing oneKey nullKeys := by
  refine ⟨rfl, rfl, rfl, rfl, fun h => ?_⟩
  have hdata := (h fun hr => nomatch (show Except.error Err.typeError = .ok true from hr)).1
  have htoken : some (Val.str []) = some (Val.str (str "admin")) :=
    congrArg (Dict.get · "admin_token") hdata
  simp [str] at htoken

end FlashNext.Gateway
