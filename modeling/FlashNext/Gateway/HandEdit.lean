import FlashNext.Gateway.Counters

/-!
# Keys edited by hand

A key that is written into `gateway.json` by hand is meant to work from the next
request on. An adopted document only gets the top-level fields that it lacks; its
entries are taken as they are, and each field of an entry is read without a
default somewhere: `requests` when a request is counted, `id` when a key is looked
up for an operation, `last_used` when a later reload finds a lower counter. A key
that is not ASCII makes `hmac.compare_digest` raise.

`handEdits_work` says for which edits the keys work (`HandEditsWork`), in every
state of every run: those whose entries have an id, a counter, a field
`last_used`, and an ASCII key (`UsableDoc`). `handEdits_fail` shows what happens
without each of them.
-/

namespace FlashNext.Gateway

open Python

/-! ## Edited documents -/

/-- An entry as one may write it: an object with a string for its key. Its id, if
    it has one, can be hashed, and its counter, if it has one, is a number. -/
def HandEntry (k : Val) : Prop :=
  ∃ d, k = .dict d ∧ (keyStr k).isSome ∧
    (∀ v, Dict.get d "id" = some v → ∃ id, v.toKey = .ok id) ∧
    ∀ v, Dict.get d "requests" = some v → v.num.isSome

/-- An object with a list of such entries, of distinct keys. -/
def HandDoc (v : Val) : Prop :=
  ∃ items ks, v = .dict items ∧ Dict.get (laidOver v) "keys" = some (.list ks) ∧
    (∀ k ∈ ks, HandEntry k) ∧ (keyStrs ks).Nodup

/-- A value for a field: an id that can be hashed, an ASCII key, a number for the
    counter. -/
def FieldUsable (name : Str) (v : Val) : Prop :=
  (name = str "id" → ∃ id, v.toKey = .ok id) ∧
    (name = str "key" → ∃ s, v = .str s ∧ isAscii s = true) ∧
    (name = str "requests" → v.num.isSome = true)

/-- An entry that works. -/
abbrev UsableEntry : Val → Prop := HasFields FieldUsable

/-- An object with a list of entries that work. -/
def UsableDoc (v : Val) : Prop :=
  ∃ items ks, v = .dict items ∧ Dict.get (laidOver v) "keys" = some (.list ks) ∧
    ∀ k ∈ ks, UsableEntry k

/-- A configuration with entries that work. -/
structure Usable (data : Dict) : Prop where
  distinct : data.Distinct
  keys : Dict.get data "keys" = some (.list (entries data))
  url : (Dict.get data "public_url").isSome
  entries : ∀ k ∈ entries data, UsableEntry k

/-- The tokens that the step draws are ASCII. -/
def DrawsAscii (_ : List Val) (a : Label) : Prop := ∀ fresh ∈ a.fresh, isAscii fresh.key = true

theorem fieldUsable_other {name : Str} (v : Val) (hid : name ≠ str "id") (hkey : name ≠ str "key")
    (hrequests : name ≠ str "requests") : FieldUsable name v :=
  ⟨fun h => absurd h hid, fun h => absurd h hkey, fun h => absurd h hrequests⟩

section Usable

variable {k : Val} (h : UsableEntry k)
include h

theorem UsableEntry.id : ∃ d v id, k = .dict d ∧ Dict.get d "id" = some v ∧ v.toKey = .ok id := by
  obtain ⟨d, rfl, hd⟩ := h
  obtain ⟨v, hv, hok⟩ := hd (str "id") (by simp [fieldNames])
  obtain ⟨id, hid⟩ := hok.1 rfl
  exact ⟨d, v, id, rfl, hv, hid⟩

theorem UsableEntry.key : ∃ s, keyStr k = some s ∧ isAscii s = true := by
  obtain ⟨d, rfl, hd⟩ := h
  obtain ⟨v, hv, hok⟩ := hd (str "key") (by simp [fieldNames])
  obtain ⟨s, rfl, hs⟩ := hok.2.1 rfl
  exact ⟨s, by simp [keyStr, hv], hs⟩

theorem UsableEntry.counter : HasCounter k := by
  obtain ⟨d, rfl, hd⟩ := h
  obtain ⟨v, hv, hok⟩ := hd (str "requests") (by simp [fieldNames])
  exact ⟨v, by simp [Val.getItem, hv], hok.2.2 rfl⟩

/-- The fields of an entry that a later reload may need. -/
theorem UsableEntry.merged : ∃ d v, k = .dict d ∧ Dict.get d "requests" = some v ∧
    v.num.isSome = true ∧ (Dict.get d "last_used").isSome = true := by
  obtain ⟨d, rfl, hd⟩ := h
  obtain ⟨v, hv, hok⟩ := hd (str "requests") (by simp [fieldNames])
  obtain ⟨u, hu, -⟩ := hd (str "last_used") (by simp [fieldNames])
  exact ⟨d, v, rfl, hv, hok.2.2 rfl, by rw [hu]; rfl⟩

end Usable

theorem usable_newKey {fresh : Fresh} (hf : isAscii fresh.key = true) (label : Str) :
    UsableEntry (newKey fresh label) := by
  refine ⟨_, rfl, forall_fieldNames.2 ⟨?_, ?_, ?_, ?_⟩⟩
  · exact ⟨.str fresh.id, by simp [Dict.get_cons], fun _ => ⟨_, rfl⟩, by simp, by simp⟩
  · exact ⟨.str fresh.key, by simp [Dict.get_cons, Fresh.key], by simp, fun _ => ⟨_, rfl, hf⟩,
      by simp⟩
  · exact ⟨.int 0, by simp [Dict.get_cons], by simp, by simp, fun _ => rfl⟩
  · exact ⟨.none, by simp [Dict.get_cons], by simp, by simp, by simp⟩

theorem UsableEntry.rotateKey {k : Val} (h : UsableEntry k) {fresh : Fresh}
    (hf : isAscii fresh.key = true) : UsableEntry (rotateKey fresh k) := by
  refine ((h.setItem ?_).setItem ?_).setItem ?_ |>.setItem ?_
  · exact ⟨by simp, fun _ => ⟨_, rfl, hf⟩, by simp⟩
  · exact ⟨by simp, by simp, fun _ => rfl⟩
  · exact fieldUsable_other _ (by simp) (by simp) (by simp)
  · exact fieldUsable_other _ (by simp) (by simp) (by simp)

/-- Setting the counter to a number. -/
theorem UsableEntry.setRequests {k : Val} (h : UsableEntry k) {v : Val} (hv : v.num.isSome = true)
    (w : Val) : UsableEntry (setItem (setItem k "requests" v) "last_used" w) :=
  (h.setItem ⟨by simp, by simp, fun _ => hv⟩).setItem
    (fieldUsable_other _ (by simp) (by simp) (by simp))

/-! ## The merge -/

/-- Numbers can be compared. -/
theorem gt_of_num {a b : Val} (ha : a.num.isSome = true) (hb : b.num.isSome = true) :
    ∃ r, a.gt b = .ok r := by
  obtain ⟨x, hx⟩ := Option.isSome_iff_exists.1 ha
  obtain ⟨y, hy⟩ := Option.isSome_iff_exists.1 hb
  cases a <;> cases b <;> simp_all [Val.gt, Val.gt.gtNum, Val.num]

/-- The entry in memory that a reload compares with is one of those. -/
theorem mem_of_prevEntry {data : Dict} (h : Usable data) {id : Key} {prev : Val}
    (hp : prevEntry data id = some prev) : prev ∈ entries data := by
  have hmem := List.mem_of_getLast? hp
  rw [h.keys] at hmem
  exact (List.mem_filter.1 hmem).1

/-- With a usable configuration in memory, any entry written by hand is merged. -/
theorem entryMergeable_of_hand {data : Dict} (h : Usable data) {k : Val} (hk : HandEntry k) :
    EntryMergeable data k := by
  obtain ⟨d, rfl, -, hid, hreq⟩ := hk
  obtain ⟨id, hid⟩ : ∃ id, ((Dict.get d "id").getD .none).toKey = .ok id := by
    cases hget : Dict.get d "id" with
    | none => exact ⟨_, rfl⟩
    | some v => exact hid v hget
  refine ⟨d, id, rfl, hid, fun p hp => ?_⟩
  obtain ⟨_, v, ⟨⟩, hv, hnum, hlast⟩ := (h.entries _ (mem_of_prevEntry h hp)).merged
  have hdisk : ((Dict.get d "requests").getD (.int 0)).num.isSome = true := by
    cases hget : Dict.get d "requests" with
    | none => rfl
    | some w => exact hreq w hget
  obtain ⟨b, hb⟩ := gt_of_num hnum hdisk
  exact ⟨b, by rw [hv]; exact hb, fun _ => ⟨by rw [hv]; rfl, hlast⟩⟩

theorem handEntry_of_usable {k : Val} (h : UsableEntry k) : HandEntry k := by
  obtain ⟨s, hs, -⟩ := h.key
  obtain ⟨d, rfl, hd⟩ := h
  refine ⟨d, rfl, by rw [hs]; rfl, fun v hv => ?_, fun v hv => ?_⟩
  · obtain ⟨w, hw, hok⟩ := hd (str "id") (by simp [fieldNames])
    obtain rfl := Option.some.inj (hw.symm.trans hv)
    exact hok.1 rfl
  · obtain ⟨w, hw, hok⟩ := hd (str "requests") (by simp [fieldNames])
    obtain rfl := Option.some.inj (hw.symm.trans hv)
    exact hok.2.2 rfl

/-- An object with a list of entries written by hand can be adopted. -/
theorem mergeable_of_hand {data : Dict} (h : Usable data) {items : Dict} {ks : List Val}
    (hkeys : Dict.get (laidOver (.dict items)) "keys" = some (.list ks))
    (hks : ∀ k ∈ ks, HandEntry k) : Mergeable data (.dict items) :=
  ⟨trivial, .list ks, ks, hkeys, rfl, fun k hk => entryMergeable_of_hand h (hks k hk)⟩

/-- The merge keeps entries usable. -/
theorem mergeKeys_usable {data m : Dict} (h : Usable data)
    (hm : ∀ id, Dict.find m id = prevEntry data id) {ks : List Val}
    (hks : ∀ k ∈ ks, UsableEntry k) : ∀ k ∈ (mergeKeys m ks).1, UsableEntry k := by
  induction ks with
  | nil => simp [mergeKeys]
  | cons k ks ih =>
    rw [mergeKeys]
    split
    · exact hks
    · rename_i k' hk'
      rw [List.forall_mem_cons] at hks
      refine List.forall_mem_cons.2 ⟨?_, ih hks.2⟩
      rcases mergeEntry_cases hk' with rfl | ⟨id, prev, v, w, hprev, hv, rfl⟩
      · exact hks.1
      · obtain ⟨v', hv', hnum⟩ := (h.entries prev (mem_of_prevEntry h (hm id ▸ hprev))).counter
        obtain rfl := Except.ok.inj (hv.symm.trans hv')
        exact hks.1.setRequests hnum w

/-! ## Usable configurations -/

theorem usable_normalize {data : Dict} {ks : List Val} (hd : data.Distinct)
    (hkeys : Dict.get data "keys" = some (.list ks)) (hks : ∀ k ∈ ks, UsableEntry k) {fresh : Fresh}
    (hf : isAscii fresh.key = true) : Usable (normalize fresh data) := by
  have hentries := entries_normalize fresh data
  have hget := get_keys_normalize fresh data
  rw [entries_eq hkeys] at hentries
  rw [hkeys] at hget
  cases hfalsy : falsy data "keys" with
  | true =>
    rw [hfalsy, if_pos rfl] at hentries hget
    refine ⟨normalize_distinct hd fresh, by rw [hget, hentries], url_normalize _ _, ?_⟩
    rw [hentries]
    exact List.forall_mem_singleton.2 (usable_newKey hf _)
  | false =>
    rw [hfalsy, if_neg Bool.false_ne_true] at hentries hget
    refine ⟨normalize_distinct hd fresh, by rw [hget, hentries], url_normalize _ _, ?_⟩
    rwa [hentries]

theorem Usable.setKeys {data : Dict} (h : Usable data) {ks : List Val}
    (hks : ∀ k ∈ ks, UsableEntry k) : Usable (setKeys data ks) where
  distinct := h.distinct.insert _ _
  keys := by rw [entries_setKeys]; exact Dict.get_insert_self _ _ _
  url := by rw [Gateway.setKeys, Dict.get_insert_of_ne _ _ (by simp)]; exact h.url
  entries := by rwa [entries_setKeys]

theorem Usable.withUrl {data : Dict} (h : Usable data) (url : Str) : Usable (withUrl data url) where
  distinct := h.distinct.insert _ _
  keys := by rw [withUrl_entries, Gateway.withUrl, Dict.get_insert_of_ne _ _ (by simp), h.keys]
  url := by rw [Gateway.withUrl, Dict.get_insert_self]; rfl
  entries := by rw [withUrl_entries]; exact h.entries

/-- The steps keep a configuration usable. -/
theorem kept_usable : Kept Usable UsableDoc DrawsAscii where
  dumps {data} h := ⟨data, entries data, rfl, Dict.get_update_of_some h.distinct h.keys, h.entries⟩
  change {a data data'} hc hG h := by
    cases hc with
    | count hcount =>
      obtain ⟨i, k, v, v', hk, -, hv, hv', rfl⟩ := hcount
      have husable := h.entries k (List.mem_of_getElem? hk)
      have hnum : v'.num.isSome = true := by cases v <;> cases hv' <;> rfl
      refine h.setKeys fun k' hk' => ?_
      rcases List.mem_or_eq_of_mem_set hk' with hk' | rfl
      · exact h.entries k' hk'
      · exact husable.setRequests hnum _
    | config => exact h
    | url => exact h.withUrl _
    | @create _ fresh _ _ ks label hkeys =>
      refine h.setKeys fun k hk => ?_
      rcases List.mem_append.1 hk with hk | hk
      · exact h.entries k (by rwa [entries_eq hkeys])
      · obtain rfl := List.mem_singleton.1 hk
        exact usable_newKey (hG fresh (List.mem_singleton_self _)) label
    | revoke => exact h.setKeys fun k hk => h.entries k ((List.eraseIdx_sublist _ _).subset hk)
    | @rotate _ fresh =>
      have hf := hG fresh (List.mem_singleton_self _)
      exact h.setKeys (forall_modify h.entries (fun k hk => hk.rotateKey hf) _)
    | label i label =>
      exact h.setKeys (forall_modify h.entries (fun k hk => hk.setItem
        (fieldUsable_other _ (by simp) (by simp) (by simp))) i)
    | stale => exact h
  adopt {c data v m new e} hG h hv hm had := by
    -- A usable document can be merged, so it is adopted as a whole.
    obtain ⟨items, ks, rfl, hkeys, hks⟩ := hv
    have hok := (adopt_ok_iff hm _).2
      (mergeable_of_hand h hkeys fun k hk => handEntry_of_usable (hks k hk))
    rw [had] at hok
    obtain rfl : e = none := hok
    rcases adopt_cases had with ⟨-, hno⟩ | ⟨ks', hkeys', rfl, -⟩
    · exact absurd ⟨rfl, ks, hkeys⟩ hno
    · obtain rfl : ks = ks' := by simpa [hkeys] using hkeys'
      exact usable_normalize ((laidOver_distinct _).insert _ _) (Dict.get_insert_self _ _ _)
        (mergeKeys_usable h hm hks) (hG _ (List.mem_singleton_self _))
  start {c d data} hG hd hi := by
    have hf := hG _ (List.mem_singleton_self _)
    have h : Usable data := by
      rcases initData_cases hi with rfl | ⟨v, ht, -, rfl⟩
      · exact usable_normalize (by simp [Dict.Distinct, blank])
          (show Dict.get blank "keys" = some (.list []) from rfl) (fun _ h => by cases h) hf
      · obtain ⟨items, ks, rfl, hkeys, hks⟩ := hd v ht
        exact usable_normalize (laidOver_distinct _) hkeys hks hf
    exact ⟨h, h.withUrl _⟩

/-! ## What hand-edited keys are meant to do -/

/-- The entries of the lists of earlier generations are objects. -/
def Proc.StaleObjects (p : Proc) : Prop := ∀ g, ∀ k ∈ p.stale g, ∃ d, k = .dict d

/-- In this state, the keys work: a request with one of them, on an allowed path, is
    admitted and counted; the proxy raises on no token but one that is not ASCII;
    `api_state` does not raise; `api_key_op` does not raise, in either half, unless
    its body gives no label or its position is no longer in the list; and a tick on a
    file with a document written by hand, whose saves succeed, completes. -/
structure HandEditsWork (s : State) : Prop where
  admits : ∀ p ∈ s.proc, ∀ req now, pathAllowed req.path = true →
    bearer req ∈ keyStrs (entries p.app.cfg.data) →
    ∃ data, Counted p.app.cfg.data data (bearer req) now ∧ proxy p.app req now =
      ({ p.app with cfg := { p.app.cfg with data := data }, dirty := true },
        .forward (upstreamRequest p.app req))
  proxy : ∀ p ∈ s.proc, ∀ req now e, (proxy p.app req now).2 = .raised e →
    isAscii (bearer req) = false
  state : ∀ p ∈ s.proc, ∀ server, ∃ body, apiState p.app server = .ok body
  lookup : ∀ p ∈ s.proc, ∀ kid op fresh e, apiKeyOp p.app.cfg kid op fresh ≠ .reply (.raised e)
  label : ∀ p ∈ s.proc, ∀ h ∈ p.pending, ∀ b label, labelOf b = .ok label →
    h.idx < (p.heldKeys h).length → ∃ keys, labelKey (p.heldKeys h) h.idx (.ok b) = .ok keys
  watcher : ∀ p ∈ s.proc, ∀ c : TickCalls, Bring HandDoc c.reload.gap →
    (∀ b, (s.disk.edits c.reload.gap).text ≠ some (.deep b)) → c.reload.save.failed = none →
    c.flush.failed = none → (∃ b, (watch s.disk p.app.cfg c.reload).2.result = .ok b) ∧
      (p.round s.disk c).2.watching = p.watching

/-- The key strings over a step: those of a document are there when a reload has
    adopted it; and a key string stays, unless its key is revoked or rotated, or the
    watcher reads a document without it, or the process ends. -/
structure KeysStay (s : State) (a : Label) (s' : State) : Prop where
  adopted : ∀ v, Adopts s a v → ∀ x ∈ keyStrs (entries (laidOver v)), x ∈ keyStrs s'.entries
  stay : s'.proc.isSome = true → ∀ x ∈ keyStrs s.entries, x ∈ keyStrs s'.entries ∨
    (∃ kid op fresh c, a = .admin (.keyOp kid op) fresh c ∧ (op = .revoke ∨ op = .rotate) ∧
      (s.entries.find? (hasId kid)).bind keyStr = some x) ∨
    ∃ c v, a = .tick c ∧ (s.disk.edits c.reload.gap).text = some (.doc v) ∧
      x ∉ keyStrs (entries (laidOver v))

/-! ## One state -/

section State

variable {app : App} {req : Request} {now : Flt} (h : Usable app.cfg.data)
include h

theorem iterated_of_usable : Iterated app.cfg.data (entries app.cfg.data) := ⟨_, h.keys, rfl⟩

theorem keyStr_of_usable : ∀ k ∈ entries app.cfg.data, (keyStr k).isSome := by
  intro k hk
  obtain ⟨s, hs, -⟩ := (h.entries k hk).key
  rw [hs]
  rfl

/-- All comparisons with an ASCII token take place. -/
theorem comparable_of_usable {presented : Str} (hp : isAscii presented = true) :
    Comparable (entries app.cfg.data) presented := by
  refine ⟨hp, fun k hk s hs => ?_⟩
  obtain ⟨t, ht, hascii⟩ := (h.entries k ((List.takeWhile_prefix _).subset hk)).key
  obtain rfl := Option.some.inj (ht.symm.trans hs)
  exact hascii

/-- A request with one of the keys is admitted and counted. -/
theorem admits_of_usable (hpath : pathAllowed req.path = true)
    (hkey : bearer req ∈ keyStrs (entries app.cfg.data)) :
    ∃ data, Counted app.cfg.data data (bearer req) now ∧ proxy app req now =
      ({ app with cfg := { app.cfg with data := data }, dirty := true },
        .forward (upstreamRequest app req)) := by
  obtain ⟨k, hk, hkeyStr⟩ := List.mem_filterMap.1 hkey
  have hascii : isAscii (bearer req) = true := by
    obtain ⟨s, hs, hascii⟩ := (h.entries k hk).key
    obtain rfl := Option.some.inj (hs.symm.trans hkeyStr)
    exact hascii
  cases hfind : (entries app.cfg.data).find? (keyStr · = some (bearer req)) with
  | none => exact absurd hkeyStr (by simpa using List.find?_eq_none.1 hfind k hk)
  | some k' =>
    have hcount := (h.entries k' (List.mem_of_find?_eq_some hfind)).counter
    rcases proxy_of_match now hpath (iterated_of_usable h) (keyStr_of_usable h)
      (comparable_of_usable h hascii) hfind with ⟨hno, -⟩ | ⟨-, hcounted⟩
    · exact absurd hcount hno
    · exact hcounted

/-- The proxy does not raise on an ASCII token. -/
theorem not_raised_of_usable (hascii : isAscii (bearer req) = true) (e : Err) :
    (proxy app req now).2 ≠ .raised e := by
  cases hpath : pathAllowed req.path with
  | false =>
    rw [proxy_of_not_allowed hpath]
    exact fun h => by cases h
  | true =>
    by_cases hkey : bearer req ∈ keyStrs (entries app.cfg.data)
    · obtain ⟨data, -, hp⟩ : ∃ data, Counted app.cfg.data data (bearer req) now ∧ _ :=
        admits_of_usable h hpath hkey
      rw [hp]
      exact fun h => by cases h
    · have hfind : (entries app.cfg.data).find? (keyStr · = some (bearer req)) = none :=
        List.find?_eq_none.2 fun k hk hs =>
          hkey (List.mem_filterMap.2 ⟨k, hk, of_decide_eq_true hs⟩)
      rw [proxy_of_no_match hpath (iterated_of_usable h) (keyStr_of_usable h)
        (.inr (comparable_of_usable h hascii)) hfind]
      exact fun h => by cases h

theorem apiState_of_usable (server : Val) : ∃ body, apiState app server = .ok body := by
  obtain ⟨url, hurl⟩ := Option.isSome_iff_exists.1 h.url
  exact ⟨_, by
    simp [apiState, Val.getItem, hurl, h.keys, bind, Except.bind, pure, Except.pure]
    rfl⟩

end State

/-- A lookup among entries that have an id does not raise. -/
theorem findKey_ok (kid : Str) {ks : List Val} (h : ∀ k ∈ ks, UsableEntry k) :
    ∃ r, findKey kid ks = .ok r := by
  induction ks with
  | nil => exact ⟨none, rfl⟩
  | cons k ks ih =>
    rw [List.forall_mem_cons] at h
    obtain ⟨d, v, _, rfl, hv, -⟩ := h.1.id
    obtain ⟨r, hr⟩ := ih h.2
    cases he : v.eq (.str kid) <;>
      simp [findKey, Val.getItem, hv, he, hr, bind, Except.bind, pure, Except.pure]

theorem lookup_of_usable {cfg : Config} (h : Usable cfg.data) (kid : Str) (op : Op)
    (fresh : Fresh) (e : Err) : apiKeyOp cfg kid op fresh ≠ .reply (.raised e) := by
  obtain ⟨r, hr⟩ := findKey_ok kid h.entries
  cases r with
  | none =>
    simp [apiKeyOp, Outcome.ofExcept, Val.getItem, h.keys, Val.iter, hr, bind, Except.bind, pure,
      Except.pure]
  | some i =>
    rw [apiKeyOp_of_found h.keys hr]
    cases op with
    | revoke => split_ifs <;> simp
    | _ => simp

/-- A label is set in a list of objects, at a position that is in it. -/
theorem labelKey_ok {keys : List Val} (h : ∀ k ∈ keys, ∃ d, k = .dict d) {idx : Nat}
    (hidx : idx < keys.length) {b : Val} {label : Str} (hl : labelOf b = .ok label) :
    ∃ ks, labelKey keys idx (.ok b) = .ok ks := by
  obtain ⟨d, hd⟩ := h _ (List.getElem_mem hidx)
  have hk : keys[idx]? = some (.dict d) := by rw [List.getElem?_eq_getElem hidx, hd]
  exact ⟨_, by simp [labelKey, hl, hk, bind, Except.bind, pure, Except.pure]; rfl⟩

theorem dict_of_usable {data : Dict} (h : Usable data) : ∀ k ∈ entries data, ∃ d, k = .dict d := by
  intro k hk
  obtain ⟨d, hd, -⟩ := h.entries k hk
  exact ⟨d, hd⟩

/-- With a usable configuration in memory, a reload completes on every document that
    can be adopted. -/
theorem reload_completes {cfg : Config} {calls : ReloadCalls} (h : Usable cfg.data)
    (hdeep : ∀ b, calls.text ≠ some (.deep b))
    (hdoc : ∀ v, calls.text = some (.doc v) → Mergeable cfg.data v) {st : Option Stamp}
    (hs : calls.saved = .ok st) : ∃ b, (cfg.reloadIfChanged calls).result = .ok b := by
  -- The ids in memory can be looked up.
  have hindex : Indexable cfg.data := by
    refine ⟨_, _, h.keys, rfl, fun k hk => ?_⟩
    obtain ⟨d, v, id, rfl, hv, hid⟩ := (h.entries k hk).id
    intro w hw
    obtain rfl := Option.some.inj (hv.symm.trans hw)
    exact ⟨id, hid⟩
  by_cases hu : Untouched cfg calls
  · obtain ⟨warned, result, heq, -, hfalse⟩ := reload_eq_of_untouched hu
    exact ⟨false, by rw [heq, hfalse hindex hdeep]⟩
  · obtain ⟨disk, m, ht, -, hm, hrel⟩ := reload_of_touched hu
    have hok := (adopt_ok_iff hm disk).2 (hdoc disk ht)
    rcases had : adopt m disk with ⟨data, e⟩
    rw [had] at hok
    obtain rfl : e = none := hok
    exact ⟨true, by rw [hrel, had, hs]⟩

/-- With a usable configuration in memory, and a usable document in the file, the
    keys work. -/
theorem handEditsWork_of_usable {s : State} (hs : s.Sound Usable UsableDoc)
    (ho : ∀ p ∈ s.proc, p.StaleObjects) : HandEditsWork s where
  admits p hp _ _ hpath hkey := admits_of_usable (hs.mem p hp) hpath hkey
  proxy p hp req now e he := by
    by_contra hascii
    exact not_raised_of_usable (hs.mem p hp) (Bool.eq_true_of_not_eq_false hascii) e he
  state p hp := apiState_of_usable (hs.mem p hp)
  lookup p hp := lookup_of_usable (hs.mem p hp)
  label p hp h _ b label hl hidx := by
    refine labelKey_ok (fun k hk => ?_) hidx hl
    rw [Proc.heldKeys] at hk
    split_ifs at hk
    · exact dict_of_usable (hs.mem p hp) k hk
    · exact ho p hp _ k hk
  watcher p hp c hgap hdeep hsave hflush := by
    have husable := hs.mem p hp
    -- What the watcher reads is the file, or an edit of it in the meantime.
    have hmerge : ∀ v, (s.disk.edits c.reload.gap).text = some (.doc v) →
        Mergeable p.app.cfg.data v := by
      have hhand : (s.disk.edits c.reload.gap).Holds fun v => ∃ items ks, v = .dict items ∧
          Dict.get (laidOver v) "keys" = some (.list ks) ∧ ∀ k ∈ ks, HandEntry k := by
        refine Disk.Holds.edits (fun v hv => ?_) fun f hf v hv => ?_
        · obtain ⟨items, ks, hv, hkeys, hks⟩ := hs.file v hv
          exact ⟨items, ks, hv, hkeys, fun k hk => handEntry_of_usable (hks k hk)⟩
        · obtain ⟨items, ks, hv, hkeys, hks, -⟩ := hgap f hf v hv
          exact ⟨items, ks, hv, hkeys, hks⟩
      intro v hv
      obtain ⟨items, ks, rfl, hkeys, hks⟩ := hhand v hv
      exact mergeable_of_hand husable hkeys hks
    obtain ⟨st, hst⟩ : ∃ st, c.reload.save.saved = .ok st := by
      rw [SaveCalls.saved, hsave]
      cases c.reload.save.after.getLast? <;> exact ⟨_, rfl⟩
    refine ⟨?_, ?_⟩
    · rw [watch_reload]
      exact reload_completes husable hdeep hmerge hst
    · rcases flush_cases (watch s.disk p.app.cfg c.reload).1
          (p.reloaded (watch s.disk p.app.cfg c.reload).2) c.flush with h | ⟨-, -, -, hflags⟩
      · rw [Proc.round, h]
        rfl
      · rw [Proc.round]
        exact (hflags hflush).2

/-! ## The steps -/

section Step

variable {s s' : State} {a : Label} {r : Option Reply}

@[simp] theorem flush_stale (d : Disk) (p : Proc) (c : SaveCalls) :
    (p.flush d c).2.stale = p.stale := by
  unfold Proc.flush
  split_ifs
  · split <;> rfl
  · rfl

@[simp] theorem admin_stale (d : Disk) (p : Proc) (req : AdminRequest) (fresh : Fresh)
    (c : SaveCalls) : (p.admin d req fresh c).2.1.stale = p.stale := by
  unfold Proc.admin
  split <;> rfl

/-- A list with another entry in place of one, an object in place of an object. -/
theorem staleObjects_update {p : Proc} (h : p.StaleObjects) {g : Nat} {ks : List Val}
    (hks : ∀ k ∈ ks, ∃ d, k = .dict d) {p' : Proc}
    (hp : p'.stale = Function.update p.stale g ks) : p'.StaleObjects := by
  intro g' k hk
  rw [hp] at hk
  by_cases hg : g' = g
  · subst hg
    rw [Function.update_self] at hk
    exact hks k hk
  · rw [Function.update_of_ne hg] at hk
    exact h g' k hk

/-- After a start-up no request holds a list. -/
theorem stale_of_start {d : Disk} {c : StartCalls} {p : Proc} (hp : p ∈ (start d c).2) :
    p.stale = fun _ => [] := by
  revert hp
  simp only [start]
  split
  · intro hp; cases hp
  · split
    · intro hp; cases hp
    · split_ifs
      · split
        · intro hp; cases hp
        · rintro ⟨⟩; rfl
      · rintro ⟨⟩; rfl

/-- The lists that requests still hold keep being lists of objects. -/
theorem staleObjects_step (hs : s.Sound Usable UsableDoc) (ho : ∀ p ∈ s.proc, p.StaleObjects)
    (h : s.step a = some (s', r)) : ∀ p ∈ s'.proc, p.StaleObjects := by
  cases State.steps_of_step h with
  | edit f => exact ho
  | start c =>
    intro q hq g k hk
    rw [stale_of_start hq] at hk
    cases hk
  | @proxy d p req now =>
    rintro _ ⟨⟩
    exact ho p rfl
  | @admin d p req fresh c =>
    rintro _ ⟨⟩ g k hk
    rw [admin_stale] at hk
    exact ho p rfl g k hk
  | @finish d p i w body c =>
    rintro _ ⟨⟩
    -- A label is set in the list that the request holds: that of the configuration, or one
    -- that a reload has replaced since.
    by_cases hgen : w.gen = p.app.cfg.gen
    · rcases labelKey_cases (entries p.app.cfg.data) w.idx body with ⟨e, he⟩ |
        ⟨_, _, _, _, _, _, hkeys⟩
      · simp only [Proc.finish, hgen, if_true, he]
        exact ho p rfl
      · simp only [Proc.finish, hgen, if_true, hkeys]
        exact ho p rfl
    · rcases labelKey_cases (p.stale w.gen) w.idx body with ⟨e, he⟩ | ⟨_, label, _, _, _, _, hkeys⟩
      · simp only [Proc.finish, hgen, if_false, he]
        exact ho p rfl
      · simp only [Proc.finish, hgen, if_false, hkeys]
        refine staleObjects_update (ho p rfl) (forall_modify (ho p rfl w.gen) ?_ w.idx) rfl
        rintro k ⟨d, rfl⟩
        exact ⟨_, rfl⟩
  | @tick d p c =>
    rintro _ ⟨⟩
    have hstale : (p.round d c).2.stale = (p.reloaded (watch d p.app.cfg c.reload).2).stale :=
      flush_stale _ _ _
    -- A reload leaves the list in memory to the requests that hold it.
    by_cases hgen : (watch d p.app.cfg c.reload).2.cfg.gen = p.app.cfg.gen
    · intro g k hk
      rw [hstale, Proc.reloaded, if_pos hgen] at hk
      exact ho p rfl g k hk
    · refine staleObjects_update (g := p.app.cfg.gen) (ho p rfl) (dict_of_usable (hs.mem p rfl)) ?_
      rw [hstale, Proc.reloaded, if_neg hgen]
  | flush c | stop c => exact fun _ hq => by cases hq

/-- A change leaves a key string, unless it revokes or rotates its key. -/
theorem keyStrs_of_change {data data' : Dict} (hc : Change a data data') {x : Str}
    (hx : x ∈ keyStrs (entries data)) : x ∈ keyStrs (entries data') ∨
    ∃ kid op fresh c, a = .admin (.keyOp kid op) fresh c ∧ (op = .revoke ∨ op = .rotate) ∧
      ((entries data).find? (hasId kid)).bind keyStr = some x := by
  -- The entry found is the one at the position.
  have found : ∀ {kid i}, (entries data).findIdx? (hasId kid) = some i → ∃ ys k zs,
      entries data = ys ++ k :: zs ∧ ys.length = i ∧ (∃ d, k = .dict d) ∧
        ((entries data).find? (hasId kid)).bind keyStr = keyStr k := by
    intro kid i hi
    obtain ⟨ys, k, zs, hks, hlen, hys, hk⟩ := split_of_findIdx hi
    refine ⟨ys, k, zs, hks, hlen, dict_of_hasId hk, ?_⟩
    rw [hks, find?_append_cons hys hk, Option.bind_some]
  -- A key string is before the position, at it, or after it.
  have place : ∀ {ys k zs}, entries data = ys ++ k :: zs →
      (x ∈ keyStrs ys ∨ x ∈ keyStrs zs) ∨ keyStr k = some x := by
    intro ys k zs hks
    obtain ⟨k', hk', hkey⟩ := List.mem_filterMap.1 hx
    rw [hks, List.mem_append, List.mem_cons] at hk'
    rcases hk' with h | rfl | h
    · exact .inl (.inl (List.mem_filterMap.2 ⟨k', h, hkey⟩))
    · exact .inr hkey
    · exact .inl (.inr (List.mem_filterMap.2 ⟨k', h, hkey⟩))
  cases hc with
  | count hcount => exact .inl (by rwa [keyStrs_counted hcount])
  | config => exact .inl hx
  | url => exact .inl (by rwa [entries_insert_of_ne (by simp)])
  | create label hkeys =>
    rw [entries_setKeys, keyStrs_append]
    rw [entries_eq hkeys] at hx
    exact .inl (List.mem_append_left _ hx)
  | revoke hi =>
    obtain ⟨ys, k, zs, hks, rfl, -, hfind⟩ := found hi
    rcases place hks with h | h
    · refine .inl ?_
      rw [entries_setKeys, hks, eraseIdx_append_cons]
      simpa using h
    · exact .inr ⟨_, _, _, _, rfl, .inl rfl, hfind.trans h⟩
  | rotate hi =>
    obtain ⟨ys, k, zs, hks, rfl, ⟨d, rfl⟩, hfind⟩ := found hi
    rcases place hks with h | h
    · refine .inl ?_
      rw [entries_setKeys, hks, modify_append_cons, keyStrs_append,
        keyStrs_cons (keyStr_rotateKey _ d)]
      simp only [List.mem_append, List.mem_cons]
      exact h.imp_right .inr
    · exact .inr ⟨_, _, _, _, rfl, .inr rfl, hfind.trans h⟩
  | label i label =>
    exact .inl (by rwa [entries_setKeys, keyStrs_modify fun k => keyStr_setItem (by simp) k _])
  | stale => exact .inl hx

/-- Key strings are still there when the configuration is normalized. -/
theorem mem_keyStrs_normalize {data : Dict} {x : Str} (hx : x ∈ keyStrs (entries data))
    (fresh : Fresh) : x ∈ keyStrs (entries (normalize fresh data)) := by
  rw [entries_normalize]
  split_ifs with hfalsy
  · rw [entries_of_falsy hfalsy] at hx
    cases hx
  · exact hx

/-- A step that is no tick: it adopts nothing. -/
theorem KeysStay.of_change (ht : ∀ c, a ≠ .tick c)
    (h : s'.proc.isSome = true → ∀ x ∈ keyStrs s.entries, x ∈ keyStrs s'.entries ∨
      ∃ kid op fresh c, a = .admin (.keyOp kid op) fresh c ∧ (op = .revoke ∨ op = .rotate) ∧
        (s.entries.find? (hasId kid)).bind keyStr = some x) : KeysStay s a s' where
  adopted := by
    rintro v ⟨c, _, ha, -⟩
    exact absurd ha (ht c)
  stay hp x hx := (h hp x hx).imp_right .inl

/-- A tick: the key strings are those of the document, if there is one. -/
theorem KeysStay.tick {d : Disk} {p : Proc} {c : TickCalls} :
    KeysStay ⟨d, some p⟩ (.tick c) ⟨(p.round d c).1, some (p.round d c).2⟩ := by
  have hafter : State.entries ⟨(p.round d c).1, some (p.round d c).2⟩ =
      entries (watch d p.app.cfg c.reload).2.cfg.data := congrArg entries (round_data d p c)
  refine ⟨?_, fun _ x hx => ?_⟩
  · rintro v ⟨_, _, ⟨⟩, ⟨⟩, hr, ht⟩ x hx
    rw [hafter]
    rcases watch_cases d p.app.cfg c.reload with ⟨-, -, hno⟩ |
      ⟨v', m, new, ht', -, -, ⟨e, -, -, -, he⟩ | ⟨had, hdata, -⟩⟩
    · exact absurd hr hno
    · rw [hr] at he
      cases he
    · obtain rfl : v' = v := by simpa using (ht'.symm.trans ht : _)
      rw [hdata]
      exact mem_keyStrs_normalize (by rwa [keyStrs_adopt had]) _
  · rw [hafter]
    rcases watch_cases d p.app.cfg c.reload with ⟨-, hdata, -⟩ |
      ⟨v, m, new, ht, -, -, ⟨e, had, -, hdata, -⟩ | ⟨had, hdata, -⟩⟩
    · exact .inl (by rw [hdata]; exact hx)
    all_goals
      rw [hdata]
      by_cases hv : x ∈ keyStrs (entries (laidOver v))
      swap
      · exact .inr (.inr ⟨c, v, rfl, ht, hv⟩)
    · exact .inl (by rwa [keyStrs_adopt had])
    · exact .inl (mem_keyStrs_normalize (by rwa [keyStrs_adopt had]) _)

/-- What the steps do to the key strings. -/
theorem KeysStay.step (h : s.step a = some (s', r)) : KeysStay s a s' := by
  cases State.steps_of_step h with
  | edit f => exact .of_change (fun _ h => by cases h) fun _ x hx => .inl hx
  | start c => exact .of_change (fun _ h => by cases h) fun _ x hx => by cases hx
  | @proxy d p req now =>
    refine .of_change (fun _ h => by cases h) fun _ x hx => ?_
    rcases proxy_cases p.app req now with ⟨r, h, -⟩ | ⟨data, hcount, h⟩
    · exact .inl (by rw [State.entries, Option.elim_some, h]; exact hx)
    · exact .inl (by rw [State.entries, Option.elim_some, h, keyStrs_counted hcount]; exact hx)
  | @admin d p req fresh c =>
    refine .of_change (fun _ h => by cases h) fun _ x hx => ?_
    rcases admin_cases d p req fresh c with ⟨-, hp, -⟩ | ⟨data, hc, -, hp, -⟩
    · exact .inl (by rw [State.entries, Option.elim_some, hp.data]; exact hx)
    · rw [State.entries, Option.elim_some, hp.data]
      exact keyStrs_of_change hc hx
  | @finish d p i w body c =>
    refine .of_change (fun _ h => by cases h) fun _ x hx => ?_
    rcases finish_cases d p w i body c with ⟨e, h⟩ | ⟨data, hc, -, hp⟩
    · exact .inl (by rw [State.entries, Option.elim_some, h]; exact hx)
    · rw [State.entries, Option.elim_some, hp.data]
      exact keyStrs_of_change hc hx
  | tick c => exact .tick
  | flush c | stop c => exact .of_change (fun _ h => by cases h) fun hup => by cases hup

end Step

/-- Hand-edited keys work in every state that is reached by edits whose entries have
    an id, a counter, a field `last_used` and an ASCII key; and every step keeps the
    keys. -/
theorem handEdits_work {s₀ s : State} (h₀ : s₀.Initial) (hfile : s₀.disk.Holds UsableDoc)
    (hrun : (server.restrict (Meets UsableDoc DrawsAscii)).Leads s₀ s) :
    HandEditsWork s ∧ ∀ a s' r, s.step a = some (s', r) → KeysStay s a s' := by
  have hdown : ∀ p, p ∉ s₀.proc := fun p hp => by rw [h₀.1] at hp; cases hp
  obtain ⟨hs, ho⟩ : s.Sound Usable UsableDoc ∧ ∀ p ∈ s.proc, p.StaleObjects := by
    refine hrun.invariant (P := fun s => s.Sound Usable UsableDoc ∧ ∀ p ∈ s.proc, p.StaleObjects)
      ⟨⟨hfile, fun p hp => absurd hp (hdown p)⟩, fun p hp => absurd hp (hdown p)⟩ ?_
    rintro s a s' ⟨hs, ho⟩ ⟨hm, hstep⟩
    obtain ⟨⟨t, r⟩, ht, rfl⟩ := Option.map_eq_some_iff.1 hstep
    exact ⟨kept_usable.step hs hm ht, staleObjects_step hs ho ht⟩
  exact ⟨handEditsWork_of_usable hs ho, fun a s' r h => .step h⟩

/-! ## Runs -/

/-- A file with one entry, with the fields given. -/
def oneEntry (n : Nat) (fields : Dict) : File where
  text := .doc (.dict [(.str "keys", .list [.dict fields])])
  stamp := ⟨n, n, n⟩

/-- An edit with the key `sk-hand`, and the tick that reads it. -/
def handEdit (fields : Dict) : List Label :=
  [.start startUp, .edit (some (oneEntry 3 ((.str "key", .str "sk-hand") :: fields))),
    .tick tickOnce]

/-- A request with the key `sk-hand`. -/
def handRequest : Request := getModels [(str "Authorization", str "Bearer sk-hand")]

theorem hand_oneEntry {n : Nat} {d : Dict} (hk : HandEntry (.dict d)) :
    Bring HandDoc [some (oneEntry n d)] := by
  intro f hf v hv
  obtain rfl := Option.some.inj (List.mem_singleton.1 hf)
  obtain rfl := Text.doc.inj hv
  obtain ⟨s, hs⟩ : ∃ s, keyStr (.dict d) = some s := by
    obtain ⟨_, ⟨⟩, hkey, -⟩ := hk
    exact Option.isSome_iff_exists.1 hkey
  refine ⟨_, _, rfl, rfl, List.forall_mem_singleton.2 hk, ?_⟩
  rw [keyStrs_cons hs]
  exact List.nodup_singleton s

/-- Without a counter, a request with the key raises, and without an id so does a
    lookup; without a field `last_used`, a later reload raises; and a key that is not
    ASCII makes every request raise. -/
theorem handEdits_fail :
    (∃ s p, (server.restrict (Meets HandDoc DrawsAscii)).Leads (State.down none) s ∧
      s.proc = some p ∧ (proxy p.app handRequest (.fin 9)).2 = .raised .keyError ∧
      apiKeyOp p.app.cfg "a1" .rotate ⟨[], [], [], .fin 0⟩ = .reply (.raised .keyError) ∧
      ¬HandEditsWork s) ∧
    (∃ s p, (State.down none).run (handEdit [(.str "id", .str "b1"), (.str "requests", .int 5)] ++
        [.edit (some (oneEntry 6 [(.str "key", .str "sk-hand"), (.str "id", .str "b1"),
          (.str "requests", .int 3)]))]) = some s ∧ s.proc = some p ∧
      (watch s.disk p.app.cfg tickOnce.reload).2.result = .error .keyError) ∧
    ∃ s p, (State.down none).run [.start startUp, .edit (some (oneEntry 3 [(.str "key", .str "é"),
        (.str "id", .str "b1"), (.str "requests", .int 0), (.str "last_used", .none)])),
        .tick tickOnce] = some s ∧ s.proc = some p ∧
      (proxy p.app handRequest (.fin 9)).2 = .raised .typeError := by
  refine ⟨?_, ⟨_, _, rfl, rfl, rfl⟩, ⟨_, _, rfl, rfl, rfl⟩⟩
  obtain ⟨s, p, hs, hp, hproxy, hop⟩ : ∃ s p, (State.down none).run (handEdit []) = some s ∧
      s.proc = some p ∧ (proxy p.app handRequest (.fin 9)).2 = .raised .keyError ∧
      apiKeyOp p.app.cfg "a1" .rotate ⟨[], [], [], .fin 0⟩ = .reply (.raised .keyError) :=
    ⟨_, _, rfl, rfl, rfl, rfl⟩
  have hand : HandEntry (.dict [(.str "key", .str "sk-hand")]) :=
    ⟨_, rfl, rfl, fun v hv => (by cases hv), fun v hv => (by cases hv)⟩
  refine ⟨s, p, State.leads_of_run (l := handEdit []) ⟨⟨bring_nil, ?_⟩, fun _ _ =>
    ⟨⟨hand_oneEntry hand, ?_⟩, fun _ _ => ⟨⟨bring_nil, ?_⟩, fun _ _ => trivial⟩⟩⟩ hs, hp, hproxy,
    hop, fun h => ?_⟩
  · exact List.forall_mem_singleton.2 (by decide)
  · exact fun _ h => by cases h
  · exact List.forall_mem_singleton.2 (by decide)
  · exact h.lookup p hp _ _ _ _ hop

/-- A request with a hand-edited key that has all the fields is counted. -/
theorem handEdits_work_request :
    ∃ s p data, (State.down none).run (handEdit [(.str "id", .str "b1"),
        (.str "requests", .int 0), (.str "last_used", .none)]) = some s ∧ s.proc = some p ∧
      Counted p.app.cfg.data data (str "sk-hand") (.fin 9) := by
  obtain ⟨s, p, hs, hp, hkeys⟩ : ∃ s p, (State.down none).run (handEdit [(.str "id", .str "b1"),
      (.str "requests", .int 0), (.str "last_used", .none)]) = some s ∧ s.proc = some p ∧
      keyStrs (entries p.app.cfg.data) = [str "sk-hand"] :=
    ⟨_, _, rfl, rfl, by decide⟩
  have usable : UsableEntry (.dict [(.str "key", .str "sk-hand"), (.str "id", .str "b1"),
      (.str "requests", .int 0), (.str "last_used", .none)]) := by
    refine ⟨_, rfl, forall_fieldNames.2 ⟨?_, ?_, ?_, ?_⟩⟩
    · exact ⟨_, rfl, fun _ => ⟨_, rfl⟩, by simp, by simp⟩
    · exact ⟨_, rfl, by simp, fun _ => ⟨_, rfl, by decide⟩, by simp⟩
    · exact ⟨_, rfl, by simp, by simp, fun _ => rfl⟩
    · exact ⟨_, rfl, by simp, by simp, by simp⟩
  have edit : Bring UsableDoc [some (oneEntry 3 [(.str "key", .str "sk-hand"),
      (.str "id", .str "b1"), (.str "requests", .int 0), (.str "last_used", .none)])] := by
    intro f hf v hv
    obtain rfl := Option.some.inj (List.mem_singleton.1 hf)
    obtain rfl := Text.doc.inj hv
    exact ⟨_, _, rfl, rfl, List.forall_mem_singleton.2 usable⟩
  obtain ⟨hwork, -⟩ := @handEdits_work (State.down none) _ ⟨rfl, rfl, rfl⟩
    (fun v hv => by cases hv) (State.leads_of_run (l := handEdit _)
      ⟨⟨bring_nil, List.forall_mem_singleton.2 (by decide)⟩, fun _ _ =>
        ⟨⟨edit, fun _ h => by cases h⟩, fun _ _ =>
          ⟨⟨bring_nil, List.forall_mem_singleton.2 (by decide)⟩, fun _ _ => trivial⟩⟩⟩ hs)
  obtain ⟨data, hcounted, -⟩ := hwork.admits p hp handRequest (.fin 9) rfl (by rw [hkeys]; decide)
  exact ⟨s, p, data, hs, hp, hcounted⟩

end FlashNext.Gateway
