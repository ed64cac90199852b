import FlashNext.Gateway.Reload
import FlashNext.Gateway.KeyOp

/-!
# What a step can do

What the steps of the gateway do to the configuration in memory, to the dirty
flag and to the file, said once for all the properties of runs:

* `Change`: what a request does to the configuration (`proxy_cases`,
  `admin_cases`, `finish_cases`);
* `watch_cases`, `flush_cases`: what a tick of the watcher does;
* `start_cases`: what a start-up does.

`Kept` says of a property of the configuration, and of one of the documents in
the file, that the steps keep them. `Kept.step` is the rule for one step, and
`Kept.leads` that for runs.
-/

namespace FlashNext.Gateway

open Python

/-! ## Requests -/

/-- What a request, in the step with the given label, does to the configuration. -/
inductive Change : Label → Dict → Dict → Prop
  | count {req : Request} {now : Flt} {data data' : Dict} :
      Counted data data' (bearer req) now → Change (.proxy req now) data data'
  | config {body : Except Err Val} {fresh : Fresh} {c : SaveCalls} (data : Dict) :
      Change (.admin (.config body) fresh c) data data
  | url {body : Except Err Val} {fresh : Fresh} {c : SaveCalls} (data : Dict) (url : Str) :
      Change (.admin (.config body) fresh c) data
        (Dict.insert data (.str "public_url") (.str url))
  | create {body : Option (Except Err Val)} {fresh : Fresh} {c : SaveCalls} {data : Dict}
      {ks : List Val} (label : Str) : Dict.get data "keys" = some (.list ks) →
      Change (.admin (.create body) fresh c) data (setKeys data (ks ++ [newKey fresh label]))
  | revoke {kid : Str} {fresh : Fresh} {c : SaveCalls} {data : Dict} {i : Nat} :
      (entries data).findIdx? (hasId kid) = some i → (entries data).length ≠ 1 →
      Change (.admin (.keyOp kid .revoke) fresh c) data (setKeys data ((entries data).eraseIdx i))
  | rotate {kid : Str} {fresh : Fresh} {c : SaveCalls} {data : Dict} {i : Nat} :
      (entries data).findIdx? (hasId kid) = some i →
      Change (.admin (.keyOp kid .rotate) fresh c) data
        (setKeys data ((entries data).modify i (rotateKey fresh)))
  | label {n : Nat} {body : Except Err Val} {c : SaveCalls} {data : Dict} (i : Nat) (label : Str) :
      Change (.finish n body c) data
        (setKeys data ((entries data).modify i (setItem · "label" (.str label))))
  | stale {n : Nat} {body : Except Err Val} {c : SaveCalls} (data : Dict) :
      Change (.finish n body c) data data

/-- The process holds the configuration `data`, with the flags of `p`. -/
structure Proc.Holds (p' p : Proc) (data : Dict) : Prop where
  data : p'.app.cfg.data = data
  dirty : p'.app.dirty = p.app.dirty
  watching : p'.watching = p.watching

/-- `match` finds an entry with the presented key. -/
theorem keyStr_of_matchKey {presented : Str} {ks : List Val} {i : Nat}
    (h : matchKey presented ks = .ok (some i)) :
    ∃ k, ks[i]? = some k ∧ keyStr k = some presented := by
  induction ks generalizing i with
  | nil => cases h
  | cons k ks ih =>
    rw [matchKey] at h
    obtain ⟨v, hv, h⟩ := bind_eq_ok.1 h
    obtain ⟨b, hb, h⟩ := bind_eq_ok.1 h
    -- The first entry matches, or a later one does.
    cases b with
    | true =>
      obtain rfl : 0 = i := Option.some.inj (Except.ok.inj h)
      refine ⟨k, rfl, ?_⟩
      cases v <;> simp only [compareDigest, reduceCtorEq] at hb
      split_ifs at hb
      cases k with
      | dict d =>
        cases hd : Dict.get d "key" with
        | none => simp [Val.getItem, hd] at hv
        | some w =>
          obtain rfl : w = _ := by simpa [Val.getItem, hd] using hv
          simpa [keyStr, hd] using hb
      | _ => cases hv
    | false =>
      obtain ⟨j, hrest, h⟩ := bind_eq_ok.1 h
      obtain ⟨j, rfl, rfl⟩ := Option.map_eq_some_iff.1 (Except.ok.inj h)
      exact ih hrest

/-- Only a list has an entry with a key. -/
theorem entries_of_match {cfg : Config} {presented : Str} {i : Nat}
    (h : cfg.match presented = .ok (some i)) :
    ∃ k, (entries cfg.data)[i]? = some k ∧ keyStr k = some presented := by
  obtain ⟨keys, hkeys, h⟩ := bind_eq_ok.1 h
  obtain ⟨ks, hks, h⟩ := bind_eq_ok.1 h
  obtain ⟨k, hk, hkey⟩ := keyStr_of_matchKey h
  have hget : Dict.get cfg.data "keys" = some keys := by
    cases hd : Dict.get cfg.data "keys" <;> simp_all [Val.getItem]
  cases keys with
  | list xs =>
    rw [entries_eq hget]
    obtain rfl := Except.ok.inj hks
    exact ⟨k, hk, hkey⟩
  | dict d =>
    -- The keys of a dict have no `key`, nor have the characters of a string.
    obtain rfl := Except.ok.inj hks
    obtain ⟨kv, -, rfl⟩ := by simpa using List.mem_of_getElem? hk
    cases kv <;> simp [Key.toVal, keyStr] at hkey
  | str s =>
    obtain rfl := Except.ok.inj hks
    obtain ⟨c, -, rfl⟩ := by simpa using List.mem_of_getElem? hk
    simp [keyStr] at hkey
  | _ => cases hks

/-- A request is either counted and forwarded, or changes nothing. -/
theorem proxy_cases (app : App) (req : Request) (now : Flt) :
    (∃ r, proxy app req now = (app, r) ∧ ∀ up, r ≠ .forward up) ∨
    ∃ data, Counted app.cfg.data data (bearer req) now ∧
      proxy app req now = ({ app with cfg := { app.cfg with data := data }, dirty := true },
        .forward (upstreamRequest app req)) := by
  unfold proxy
  split_ifs
  · split
    · exact .inl ⟨_, rfl, fun _ h => by cases h⟩
    · exact .inl ⟨_, rfl, fun _ h => by cases h⟩
    · obtain ⟨k, hk, hkey⟩ := entries_of_match ‹_›
      rw [List.getD_eq_getElem?_getD, hk, Option.getD_some]
      split
      · exact .inl ⟨_, rfl, fun _ h => by cases h⟩
      · rename_i i _ _ k' hcount
        obtain ⟨v, hv, h⟩ := bind_eq_ok.1 hcount
        obtain ⟨v', hv', h⟩ := bind_eq_ok.1 h
        obtain rfl := Except.ok.inj h
        exact .inr ⟨_, ⟨i, k, v, v', hk, hkey, hv, hv', rfl⟩, rfl⟩
  · exact .inl ⟨_, rfl, fun _ h => by cases h⟩

/-- `api_config` raises, or saves, with or without a new URL. -/
theorem apiConfig_cases (cfg : Config) (body : Except Err Val) :
    (∃ e, apiConfig cfg body = .reply (.raised e)) ∨
    ∃ data answer, apiConfig cfg body = .save data answer ∧ (data = cfg.data ∨
      ∃ url, data = Dict.insert cfg.data (.str "public_url") (.str url)) := by
  rw [apiConfig]
  cases body with
  | error e => exact .inl ⟨e, rfl⟩
  | ok b =>
    cases hc : b.contains "public_url" with
    | error e => exact .inl ⟨e, by simp [Outcome.ofExcept, hc, bind, Except.bind]⟩
    | ok has =>
      cases has with
      | false =>
        exact .inr ⟨_, _, by simp [Outcome.ofExcept, hc, bind, Except.bind, pure, Except.pure]; rfl,
          .inl rfl⟩
      | true =>
        cases hv : b.getItem "public_url" with
        | error e => exact .inl ⟨e, by simp [Outcome.ofExcept, hc, hv, bind, Except.bind]⟩
        | ok v =>
          cases hu : Val.strip v with
          | error e => exact .inl ⟨e, by simp [Outcome.ofExcept, hc, hv, hu, bind, Except.bind]⟩
          | ok url =>
            exact .inr ⟨_, _, by
              simp [Outcome.ofExcept, hc, hv, hu, bind, Except.bind, pure, Except.pure]
              rfl, .inr ⟨rstripSlash url, rfl⟩⟩

/-- `api_keys` raises, or adds a key. -/
theorem apiKeys_cases (cfg : Config) (body : Option (Except Err Val)) (fresh : Fresh) :
    (∃ e, apiKeys cfg body fresh = .reply (.raised e)) ∨
    ∃ ks label answer, Dict.get cfg.data "keys" = some (.list ks) ∧
      apiKeys cfg body fresh = .save (setKeys cfg.data (ks ++ [newKey fresh label])) answer := by
  rw [apiKeys]
  cases hb : body.getD (.ok (.dict [])) with
  | error e => exact .inl ⟨e, rfl⟩
  | ok b =>
    cases hkeys : Dict.get cfg.data "keys" with
    | none => exact .inl ⟨.keyError, by simp [Outcome.ofExcept, Val.getItem, hkeys, bind,
        Except.bind]⟩
    | some keys =>
      cases keys with
      | list ks =>
        cases hl : labelOf b with
        | error e => exact .inl ⟨e, by simp [Outcome.ofExcept, Val.getItem, hkeys, hl, bind,
            Except.bind]⟩
        | ok label =>
          exact .inr ⟨ks, label, _, rfl, by
            simp [Outcome.ofExcept, Val.getItem, hkeys, hl, bind, Except.bind, pure, Except.pure]
            rfl⟩
      | _ =>
        refine .inl ⟨.attributeError, ?_⟩
        simp only [Outcome.ofExcept, Val.getItem, hkeys, bind, Except.bind]
        rfl

/-- Entries are those of a list. -/
theorem keys_of_entries {data : Dict} {i : Nat} {k : Val} (h : (entries data)[i]? = some k) :
    Dict.get data "keys" = some (.list (entries data)) := by
  rw [entries] at h ⊢
  split at h
  · rename_i ks hkeys
    rw [hkeys]
  · simp at h

/-- The last key is not revoked. -/
theorem length_of_revoke {cfg : Config} {kid : Str} {fresh : Fresh} {data : Dict} {answer : Reply}
    (h : apiKeyOp cfg kid .revoke fresh = .save data answer) : (entries cfg.data).length ≠ 1 := by
  intro hlen
  obtain ⟨k, hk⟩ := List.length_eq_one_iff.1 hlen
  have hkeys := keys_of_entries (i := 0) (by rw [hk]; rfl)
  cases hf : findKey kid (entries cfg.data) with
  | error e =>
    simp [apiKeyOp, Outcome.ofExcept, Val.getItem, hkeys, Val.iter, hf, bind, Except.bind] at h
  | ok idx =>
    cases idx with
    | none =>
      simp [apiKeyOp, Outcome.ofExcept, Val.getItem, hkeys, Val.iter, hf, bind, Except.bind, pure,
        Except.pure] at h
    | some i =>
      rw [apiKeyOp_of_found hkeys hf] at h
      simp [hlen] at h

/-- `api_key_op` does not save, or revokes or rotates the first key with the id. -/
theorem apiKeyOp_changes (cfg : Config) (kid : Str) (op : Op) (fresh : Fresh) (c : SaveCalls) :
    (∃ r, apiKeyOp cfg kid op fresh = .reply r ∧ ∀ body, r ≠ .ok body) ∨
    (∃ i, apiKeyOp cfg kid op fresh = .await i) ∨
    ∃ data answer, apiKeyOp cfg kid op fresh = .save data answer ∧
      Change (.admin (.keyOp kid op) fresh c) cfg.data data := by
  rcases apiKeyOp_cases cfg kid op fresh with h | ⟨i, hi, ⟨rfl, h⟩ | ⟨rfl, h⟩ | ⟨rfl, h⟩⟩
  · exact .inl h
  · exact .inr (.inr ⟨_, _, h, .revoke hi (length_of_revoke h)⟩)
  · exact .inr (.inr ⟨_, _, h, .rotate hi⟩)
  · exact .inr (.inl ⟨i, h⟩)

/-- A handler does not save, or saves a change. -/
theorem config_admin_cases (cfg : Config) (req : AdminRequest) (fresh : Fresh) (c : SaveCalls) :
    (∃ r, cfg.admin fresh req = .reply r ∧ ∀ body, r ≠ .ok body) ∨
    (∃ i, cfg.admin fresh req = .await i) ∨
    ∃ data answer, cfg.admin fresh req = .save data answer ∧
      Change (.admin req fresh c) cfg.data data := by
  cases req with
  | config body =>
    rcases apiConfig_cases cfg body with ⟨e, h⟩ | ⟨data, answer, h, rfl | ⟨url, rfl⟩⟩
    · exact .inl ⟨_, h, fun _ h => by cases h⟩
    · exact .inr (.inr ⟨_, _, h, .config _⟩)
    · exact .inr (.inr ⟨_, _, h, .url _ _⟩)
  | create body =>
    rcases apiKeys_cases cfg body fresh with ⟨e, h⟩ | ⟨ks, label, answer, hkeys, h⟩
    · exact .inl ⟨_, h, fun _ h => by cases h⟩
    · exact .inr (.inr ⟨_, _, h, .create label hkeys⟩)
  | keyOp kid op => exact apiKeyOp_changes cfg kid op fresh c

/-- An admin request leaves the configuration and the file as they are, and does
    not answer ok, or saves a change. -/
theorem admin_cases (d : Disk) (p : Proc) (req : AdminRequest) (fresh : Fresh) (c : SaveCalls) :
    ((p.admin d req fresh c).1 = d ∧ (p.admin d req fresh c).2.1.Holds p p.app.cfg.data ∧
      ∀ body, (p.admin d req fresh c).2.2 ≠ some (.ok body)) ∨
    ∃ data, Change (.admin req fresh c) p.app.cfg.data data ∧
      (p.admin d req fresh c).1 = d.save (dumps data) c ∧
      (p.admin d req fresh c).2.1.Holds p data ∧
      ((∃ body, (p.admin d req fresh c).2.2 = some (.ok body)) → c.failed = none) := by
  rcases config_admin_cases p.app.cfg req fresh c with ⟨r, h, hr⟩ | ⟨i, h⟩ | ⟨data, answer, h, hc⟩
  · refine .inl ?_
    simp only [Proc.admin, h]
    exact ⟨trivial, ⟨rfl, rfl, rfl⟩, fun body hb => hr body (Option.some.inj hb)⟩
  · refine .inl ?_
    cases req <;> simp only [Proc.admin, h] <;>
      exact ⟨trivial, ⟨rfl, rfl, rfl⟩, fun _ h => by cases h⟩
  · refine .inr ⟨data, hc, ?_⟩
    simp only [Proc.admin, h]
    refine ⟨rfl, ⟨by simp, rfl, rfl⟩, ?_⟩
    rintro ⟨body, hr⟩
    exact (wrote_of_commit (d := d) (Option.some.inj hr)).1

/-- The rest of a `label` request raises, or saves a change. -/
theorem finish_cases (d : Disk) (p : Proc) (h : Pending) (n : Nat) (body : Except Err Val)
    (c : SaveCalls) :
    (∃ e, p.finish d h body c = (d, p, .raised e)) ∨
    ∃ data, Change (.finish n body c) p.app.cfg.data data ∧
      (p.finish d h body c).1 = d.save (dumps data) c ∧
      (p.finish d h body c).2.1.Holds p data := by
  by_cases hgen : h.gen = p.app.cfg.gen
  · rcases labelKey_cases (entries p.app.cfg.data) h.idx body with ⟨e, he⟩ |
      ⟨_, label, _, _, _, _, hkeys⟩
    · exact .inl ⟨e, by simp [Proc.finish, hgen, he]⟩
    · refine .inr ⟨_, .label h.idx label, ?_⟩
      simp only [Proc.finish, hgen, if_true, hkeys]
      exact ⟨rfl, ⟨by simp, rfl, rfl⟩⟩
  · rcases labelKey_cases (p.stale h.gen) h.idx body with ⟨e, he⟩ | ⟨_, label, _, _, _, _, hkeys⟩
    · exact .inl ⟨e, by simp [Proc.finish, hgen, he]⟩
    · refine .inr ⟨_, .stale _, ?_⟩
      simp only [Proc.finish, hgen, if_false, hkeys]
      exact ⟨rfl, ⟨by simp, rfl, rfl⟩⟩

/-! ## The watcher -/

/-- The reload on the file is that of the configuration. -/
theorem watch_reload (d : Disk) (cfg : Config) (c : WatchCalls) :
    (watch d cfg c).2 =
      cfg.reloadIfChanged ⟨d.stat, (d.edits c.gap).text, c.fresh, c.save.saved⟩ := by
  simp only [watch]
  split <;> rfl

/-- The reload of a tick changes nothing; or it binds the data to what the
    document in the file gives before it raises; or it adopts the document, and
    saves it or raises from the save. -/
theorem watch_cases (d : Disk) (cfg : Config) (c : WatchCalls) :
    ((watch d cfg c).1 = d.edits c.gap ∧ (watch d cfg c).2.cfg.data = cfg.data ∧
      (watch d cfg c).2.result ≠ .ok true) ∨
    ∃ disk m new, (d.edits c.gap).text = some (.doc disk) ∧
      (∀ id, Dict.find m id = prevEntry cfg.data id) ∧ Indexable cfg.data ∧
      ((∃ e, adopt m disk = (new, some e) ∧ (watch d cfg c).1 = d.edits c.gap ∧
          (watch d cfg c).2.cfg.data = new ∧ (watch d cfg c).2.result = .error e) ∨
        adopt m disk = (new, none) ∧ (watch d cfg c).2.cfg.data = normalize c.fresh new ∧
          ((c.save.failed = none ∧ (watch d cfg c).2.result = .ok true ∧
              (watch d cfg c).1 =
                (d.edits c.gap).adopt.save (dumps (normalize c.fresh new)) c.save) ∨
            ∃ e, c.save.failed = some e ∧ (watch d cfg c).2.result = .error e ∧
              (watch d cfg c).1 = d.edits c.gap)) := by
  rcases reload_cases cfg ⟨d.stat, (d.edits c.gap).text, c.fresh, c.save.saved⟩ with
    ⟨_, hdata, _, _, hw, hr⟩ | ⟨disk, m, hu, ht, _, hm, h⟩
  · rw [watch_reload]
    exact .inl ⟨by simp only [watch, hw], hdata, hr⟩
  · have hi : Indexable cfg.data := by
      by_contra hi
      exact hu (.inr (.inr (.inr hi)))
    refine .inr ⟨disk, m, ?_⟩
    rw [watch_reload]
    rcases h with ⟨new, e, had, _, h⟩ | ⟨new, had, _, ⟨st, hs, h⟩ | ⟨e, hs, h⟩⟩
    · refine ⟨new, ht, hm, hi, .inl ⟨e, had, ?_⟩⟩
      simp only [watch, h, and_self]
    · have hf : c.save.failed = none := by
        cases hf : c.save.failed with
        | none => rfl
        | some e => simp [SaveCalls.saved, hf] at hs
      refine ⟨new, ht, hm, hi, .inr ⟨had, ?_, .inl ⟨hf, ?_⟩⟩⟩
      · rw [h]
      · simp only [watch, h, and_self]
    · have hf : c.save.failed = some e := by
        cases hf : c.save.failed with
        | none =>
          simp only [SaveCalls.saved, hf] at hs
          split at hs <;> cases hs
        | some e' => simpa [SaveCalls.saved, hf] using hs
      refine ⟨new, ht, hm, hi, .inr ⟨had, ?_, .inr ⟨e, hf, ?_⟩⟩⟩
      · rw [h]
      · simp only [watch, h, and_self]

/-- The flush of a tick does not take place, or saves; its exception ends the
    watcher. -/
theorem flush_cases (d : Disk) (p : Proc) (c : SaveCalls) :
    (p.flush d c = (d, p)) ∨
    p.app.dirty = true ∧ (p.flush d c).1 = d.save (dumps p.app.cfg.data) c ∧
      (p.flush d c).2.app.cfg.data = p.app.cfg.data ∧
      (c.failed = none → (p.flush d c).2.app.dirty = false ∧
        (p.flush d c).2.watching = p.watching) := by
  unfold Proc.flush
  split_ifs with hdue
  · refine .inr ⟨hdue.2, ?_⟩
    cases hf : c.failed with
    | some e => simp [Config.save, SaveCalls.saved, hf]
    | none =>
      simp only [Config.save, SaveCalls.saved, hf]
      cases c.after.getLast? <;> simp
  · exact .inl rfl

/-! ## Start-up -/

/-- A process that has just started, with the configuration `data`. -/
structure Proc.Started (p : Proc) (data : Dict) : Prop where
  data : p.app.cfg.data = data
  dirty : p.app.dirty = false
  watching : p.watching = true

/-- The configuration with an URL to advertise. -/
def withUrl (data : Dict) (url : Str) : Dict := Dict.insert data (.str "public_url") (.str url)

/-- A start-up fails; or it saves what it has read, and once more if there is no
    URL to advertise in it, and starts to serve if the saves succeed. -/
theorem start_cases (d : Disk) (c : StartCalls) :
    start d c = (d, none) ∨ ∃ data, initData c.fresh d.text = .ok data ∧
      (((start d c).1 = d.layOver.save (dumps data) c.save ∧
          ∀ p ∈ (start d c).2, p.Started data) ∨
        (start d c).1 = (d.layOver.save (dumps data) c.save).save (dumps (withUrl data c.url))
            c.saveUrl ∧
          ∀ p ∈ (start d c).2, p.Started (withUrl data c.url)) := by
  cases hi : initData c.fresh d.text with
  | error e => exact .inl (by simp [start, hi])
  | ok data =>
    refine .inr ⟨data, rfl, ?_⟩
    cases hs : c.save.saved with
    | error e => exact .inl (by simp [start, hi, Config.save, hs])
    | ok st =>
      by_cases hu : falsy data "public_url" = true
      · refine .inr ?_
        cases hs' : c.saveUrl.saved with
        | error e => simp [start, hi, Config.save, hs, hu, hs', withUrl]
        | ok st' =>
          simp only [start, hi, Config.save, hs, hu, hs', if_true, withUrl, true_and]
          rintro p ⟨⟩
          exact ⟨rfl, rfl, rfl⟩
      · refine .inl ?_
        simp only [start, hi, Config.save, hs, hu, Bool.false_eq_true, if_false, true_and]
        rintro p ⟨⟩
        exact ⟨rfl, rfl, rfl⟩

/-! ## What a reload adopts -/

/-- What a document gives when it is laid over the blank configuration. -/
def laidOver (v : Val) : Dict := (Dict.update blank v).1

theorem laidOver_distinct (v : Val) : (laidOver v).Distinct :=
  Dict.Distinct.update (by simp [Dict.Distinct, blank]) v

/-- A merged entry is the one read, or that with our counters. -/
theorem mergeEntry_cases {m : Dict} {k k' : Val} (h : mergeEntry m k = .ok k') :
    k' = k ∨ ∃ id prev requests lastUsed, Dict.find m id = some prev ∧
      prev.getItem "requests" = .ok requests ∧
      k' = setItem (setItem k "requests" requests) "last_used" lastUsed := by
  obtain ⟨id, _, h⟩ := bind_eq_ok.1 h
  obtain ⟨id, _, h⟩ := bind_eq_ok.1 h
  split at h
  · exact .inl (Except.ok.inj h).symm
  · rename_i prev hprev
    split_ifs at h
    · obtain ⟨_, _, h⟩ := bind_eq_ok.1 h
      obtain ⟨_, _, h⟩ := bind_eq_ok.1 h
      obtain ⟨b, _, h⟩ := bind_eq_ok.1 h
      cases b with
      | true =>
        obtain ⟨requests, hrequests, h⟩ := bind_eq_ok.1 h
        obtain ⟨lastUsed, _, h⟩ := bind_eq_ok.1 h
        exact .inr ⟨id, prev, requests, lastUsed, hprev, hrequests, (Except.ok.inj h).symm⟩
      | false => exact .inl (Except.ok.inj h).symm
    · exact .inl (Except.ok.inj h).symm

/-- The merge keeps what the entries have besides their counters. -/
theorem mergeKeys_map {β : Type*} {f : Val → β}
    (hf : ∀ k v w, f (setItem (setItem k "requests" v) "last_used" w) = f k) (m : Dict)
    (ks : List Val) : (mergeKeys m ks).1.map f = ks.map f := by
  induction ks with
  | nil => rfl
  | cons k ks ih =>
    rw [mergeKeys]
    split
    · rfl
    · rename_i k' hk
      rw [List.map_cons, List.map_cons, ih]
      rcases mergeEntry_cases hk with rfl | ⟨_, _, v, w, _, _, rfl⟩
      · rfl
      · rw [hf]

/-- A reload takes the document as it is laid over the blank configuration; or
    that with its entries merged, if they are those of a list. -/
theorem adopt_cases {m : Dict} {v : Val} {new : Dict} {e : Option Err}
    (h : adopt m v = (new, e)) :
    (new = laidOver v ∧
      ¬((Dict.update blank v).2 = none ∧ ∃ ks, Dict.get (laidOver v) "keys" = some (.list ks))) ∨
    ∃ ks, Dict.get (laidOver v) "keys" = some (.list ks) ∧
      new = setKeys (laidOver v) (mergeKeys m ks).1 ∧ e = (mergeKeys m ks).2 := by
  rw [adopt] at h
  cases hu : Dict.update blank v with
  | mk data err =>
    have hl : laidOver v = data := by rw [laidOver, hu]
    rw [hu] at h
    rw [hl]
    cases err with
    | some e' =>
      obtain ⟨rfl, rfl⟩ := Prod.mk.inj h
      exact .inl ⟨rfl, fun h => by cases h.1⟩
    | none =>
      -- Only a list of entries is merged.
      cases hkeys : Dict.get data "keys" with
      | none =>
        simp only [Val.getItem, hkeys] at h
        obtain ⟨rfl, rfl⟩ := Prod.mk.inj h
        exact .inl ⟨rfl, by simp⟩
      | some keys =>
        simp only [Val.getItem, hkeys] at h
        cases keys with
        | list ks =>
          obtain ⟨rfl, rfl⟩ := Prod.mk.inj h
          exact .inr ⟨ks, rfl, rfl, rfl⟩
        | _ =>
          refine .inl ⟨?_, by simp⟩
          simp only [Val.iter] at h
          exact (Prod.mk.inj h).1.symm

/-! ## The parts of a configuration -/

/-- Changing an entry keeps a property of the entries that the change keeps. -/
theorem forall_modify {E : Val → Prop} {ks : List Val} (h : ∀ k ∈ ks, E k) {f : Val → Val}
    (hf : ∀ k, E k → E (f k)) (i : Nat) : ∀ k ∈ ks.modify i f, E k := by
  intro k hk
  obtain ⟨j, hj, rfl⟩ := List.getElem_of_mem hk
  rw [List.getElem_modify]
  split_ifs
  · exact hf _ (h _ (List.getElem_mem _))
  · exact h _ (List.getElem_mem _)

theorem entries_insert_of_ne {data : Dict} {k : Str} (hk : k ≠ str "keys") (v : Val) :
    entries (Dict.insert data (.str k) v) = entries data := by
  rw [entries, entries, Dict.get_insert_of_ne _ _ (Ne.symm hk)]

theorem falsy_insert_of_ne {data : Dict} {k k' : Str} (hk : k ≠ k') (v : Val) :
    falsy (Dict.insert data (.str k) v) k' = falsy data k' := by
  rw [falsy, falsy, Dict.get_insert_of_ne _ _ (Ne.symm hk)]

theorem entries_of_falsy {data : Dict} (h : falsy data "keys" = true) : entries data = [] := by
  rw [entries]
  split
  · rename_i ks hkeys
    simpa [falsy, hkeys, Val.truthy] using h
  · rfl

theorem normalize_distinct {data : Dict} (h : data.Distinct) (fresh : Fresh) :
    (normalize fresh data).Distinct := by
  simp only [normalize]
  split_ifs <;> (repeat apply Dict.Distinct.insert) <;> exact h

/-- A configuration without keys gets one; any other keeps them. -/
theorem get_keys_normalize (fresh : Fresh) (data : Dict) :
    Dict.get (normalize fresh data) "keys" =
      if falsy data "keys" = true then some (.list [newKey fresh "default"])
      else Dict.get data "keys" := by
  -- Neither the token nor the URL changes the keys.
  have htoken : ∀ d : Dict, d = (if falsy data "admin_token" = true then
      Dict.insert data (.str "admin_token") (.str fresh.adminToken) else data) →
      falsy d "keys" = falsy data "keys" ∧ Dict.get d "keys" = Dict.get data "keys" := by
    rintro d rfl
    split_ifs
    · exact ⟨falsy_insert_of_ne (by simp) _, Dict.get_insert_of_ne _ _ (by simp)⟩
    · exact ⟨rfl, rfl⟩
  have hurl : ∀ d : Dict, Dict.get (if (Dict.get d "public_url").isSome = true then d
      else Dict.insert d (.str "public_url") (.str [])) "keys" = Dict.get d "keys" := by
    intro d
    split_ifs
    · rfl
    · exact Dict.get_insert_of_ne _ _ (by simp)
  obtain ⟨hfalsy, hget⟩ := htoken _ rfl
  simp only [normalize, hurl, hfalsy]
  by_cases hk : falsy data "keys" = true
  · simp only [hk, if_true]
    exact Dict.get_insert_self _ _ _
  · simp only [hk]
    exact hget

theorem entries_normalize (fresh : Fresh) (data : Dict) :
    entries (normalize fresh data) =
      if falsy data "keys" = true then [newKey fresh "default"] else entries data := by
  rw [entries, get_keys_normalize]
  split_ifs <;> rfl

/-- A normalized configuration has a URL, if an empty one. -/
theorem url_normalize (fresh : Fresh) (data : Dict) :
    (Dict.get (normalize fresh data) "public_url").isSome = true := by
  have hurl : ∀ d : Dict, (Dict.get (if (Dict.get d "public_url").isSome = true then d
      else Dict.insert d (.str "public_url") (.str [])) "public_url").isSome = true := by
    intro d
    split_ifs with h
    · exact h
    · rw [Dict.get_insert_self]
      rfl
  exact hurl _

theorem withUrl_entries (data : Dict) (url : Str) : entries (withUrl data url) = entries data :=
  entries_insert_of_ne (by simp) _

/-- A configuration that is saved and read again has its entries. -/
theorem entries_laidOver {data : Dict} (h : data.Distinct) :
    entries (laidOver (.dict data)) = entries data := by
  cases hkeys : Dict.get data "keys" with
  | some keys =>
    rw [entries, entries, laidOver, Dict.get_update_of_some h hkeys, hkeys]
  | none =>
    rw [entries, entries, laidOver, Dict.get_update_of_none hkeys, hkeys]
    rfl

/-- What a start-up reads: the document in the file, laid over the blank
    configuration, or that configuration itself. -/
theorem initData_cases {fresh : Fresh} {text : Option Text} {data : Dict}
    (h : initData fresh text = .ok data) :
    data = normalize fresh blank ∨
    ∃ v, text = some (.doc v) ∧ (Dict.update blank v).2 = none ∧
      data = normalize fresh (laidOver v) := by
  obtain ⟨disk, hread, h⟩ := bind_eq_ok.1 h
  cases disk with
  | none => exact .inl (Except.ok.inj h).symm
  | some v =>
    have ht : text = some (.doc v) := by
      by_cases hr : Unreadable text
      · rcases read_of_unreadable hr with hr | ⟨-, e, -, hr⟩ <;> rw [hr] at hread <;> cases hread
      · obtain ⟨v', ht, hr⟩ := read_of_not_unreadable hr
        rw [hr] at hread
        obtain rfl := Option.some.inj (Except.ok.inj hread)
        exact ht
    dsimp only at h
    split_ifs at h
    · rcases hu : Dict.update blank v with ⟨d, _ | e⟩
      · rw [hu] at h
        exact .inr ⟨v, ht, by rw [hu], by rw [laidOver, hu]; exact (Except.ok.inj h).symm⟩
      · rw [hu] at h
        cases h
    · exact .inl (Except.ok.inj h).symm

/-! ## The file -/

/-- The edits around a save. -/
def SaveCalls.edits (c : SaveCalls) : List (Option File) := c.before ++ c.after

/-- The edits of the file in the step with the given label. -/
def Label.edits : Label → List (Option File)
  | .edit f => [f]
  | .start c => c.save.edits ++ c.saveUrl.edits
  | .proxy _ _ => []
  | .admin _ _ c | .finish _ _ c | .stop c => c.edits
  | .tick c => c.reload.gap ++ c.reload.save.edits ++ c.flush.edits

/-- Every document that the edits put in place has the property `J`. -/
def Bring (J : Val → Prop) (fs : List (Option File)) : Prop :=
  ∀ f, some f ∈ fs → ∀ v, f.text = .doc v → J v

/-- The document in the file, if there is one, has the property `J`. -/
def Disk.Holds (J : Val → Prop) (d : Disk) : Prop := ∀ v, d.text = some (.doc v) → J v

section Disk

variable {J : Val → Prop} {d : Disk} {fs gs : List (Option File)} {c : SaveCalls} {data : Dict}

theorem bring_nil : Bring J [] := fun _ h => by cases h

theorem bring_append : Bring J (fs ++ gs) ↔ Bring J fs ∧ Bring J gs := by
  simp only [Bring, List.mem_append]
  exact ⟨fun h => ⟨fun f hf => h f (.inl hf), fun f hf => h f (.inr hf)⟩,
    fun h f hf => hf.elim (h.1 f) (h.2 f)⟩

theorem Disk.Holds.edits (h : d.Holds J) (hb : Bring J fs) : (d.edits fs).Holds J := by
  induction fs generalizing d with
  | nil => exact h
  | cons f fs ih =>
    refine ih (d := d.edit f) (fun v hv => ?_) fun g hg => hb g (List.mem_cons_of_mem _ hg)
    obtain ⟨x, rfl, hx⟩ := Option.map_eq_some_iff.1 hv
    exact hb x List.mem_cons_self v hx

theorem Disk.Holds.save (h : d.Holds J) (hb : Bring J c.edits) (hJ : J (.dict data)) :
    (d.save (dumps data) c).Holds J := by
  obtain ⟨hbefore, hafter⟩ := bring_append.1 hb
  unfold Disk.save
  split
  · exact h.edits hbefore
  · refine Disk.Holds.edits (fun v hv => ?_) hafter
    obtain rfl := Text.doc.inj (Option.some.inj hv)
    exact hJ

theorem Disk.Holds.layOver (h : d.Holds J) : d.layOver.Holds J := by
  unfold Disk.layOver
  split
  · split_ifs <;> exact h
  · exact h

end Disk

/-! ## Properties that the steps keep -/

/-- The configuration in memory has the property `I`, and the document in the
    file the property `J`. -/
structure State.Sound (I : Dict → Prop) (J : Val → Prop) (s : State) : Prop where
  file : s.disk.Holds J
  mem : ∀ p ∈ s.proc, I p.app.cfg.data

/-- The entries in memory; none if there is no process. -/
def State.entries (s : State) : List Val := s.proc.elim [] fun p => Gateway.entries p.app.cfg.data

/-- The properties `I` of the configuration and `J` of the document in the file
    are kept by what the steps do, under the condition `G` on the entries in memory
    before the step and on the label. -/
structure Kept (I : Dict → Prop) (J : Val → Prop) (G : List Val → Label → Prop) : Prop where
  /-- The configuration, as it is saved. -/
  dumps : ∀ {data}, I data → J (.dict data)
  change : ∀ {a data data'}, Change a data data' → G (entries data) a → I data → I data'
  /-- What the document in the file gives, in a reload that may raise. -/
  adopt : ∀ {c : TickCalls} {data v m new e}, G (entries data) (.tick c) → I data → J v →
    (∀ id, Dict.find m id = prevEntry data id) → adopt m v = (new, e) →
    I (if e.isSome then new else normalize c.reload.fresh new)
  /-- What the document in the file gives in a start-up. -/
  start : ∀ {c : StartCalls} {d : Disk} {data}, G [] (.start c) → d.Holds J →
    initData c.fresh d.text = .ok data → I data ∧ I (withUrl data c.url)

/-- The condition on the steps of a run: the edits bring in documents with the
    property `J`, and `G` holds. -/
def Meets (J : Val → Prop) (G : List Val → Label → Prop) (s : State) (a : Label) : Prop :=
  Bring J a.edits ∧ G s.entries a

/-- A process that holds data with the property, over a file that does. -/
theorem State.Sound.running {I : Dict → Prop} {J : Val → Prop} {d : Disk} {p : Proc} {data : Dict}
    (hd : d.Holds J) (hp : p.app.cfg.data = data) (hI : I data) : State.Sound I J ⟨d, some p⟩ := by
  refine ⟨hd, fun q hq => ?_⟩
  obtain rfl := Option.some.inj hq
  rwa [hp]

namespace Kept

variable {I : Dict → Prop} {J : Val → Prop} {G : List Val → Label → Prop} (hK : Kept I J G)
include hK

/-- A round of the watcher keeps the properties. -/
theorem round {d : Disk} {p : Proc} {c : TickCalls} (hd : d.Holds J) (hI : I p.app.cfg.data)
    (hb : Bring J (Label.tick c).edits) (hG : G (entries p.app.cfg.data) (.tick c)) :
    State.Sound I J ⟨(p.round d c).1, some (p.round d c).2⟩ := by
  obtain ⟨hb, hflush⟩ := bring_append.1 hb
  obtain ⟨hgap, hsave⟩ := bring_append.1 hb
  have hd := hd.edits hgap
  -- The reload keeps them, and so does the flush that may follow.
  have hw : (watch d p.app.cfg c.reload).1.Holds J ∧
      I (watch d p.app.cfg c.reload).2.cfg.data := by
    rcases watch_cases d p.app.cfg c.reload with ⟨h₁, h₂, _⟩ |
      ⟨v, m, new, ht, hm, _, ⟨e, had, h₁, h₂, _⟩ | ⟨had, h₂, ⟨_, _, h₁⟩ | ⟨_, _, _, h₁⟩⟩⟩
    · exact ⟨h₁ ▸ hd, h₂ ▸ hI⟩
    · exact ⟨h₁ ▸ hd, h₂ ▸ hK.adopt hG hI (hd v ht) hm had⟩
    · have hnew := hK.adopt hG hI (hd v ht) hm had
      refine ⟨h₁ ▸ Disk.Holds.save (d := (d.edits c.reload.gap).adopt) hd hsave (hK.dumps hnew), ?_⟩
      exact h₂ ▸ hnew
    · exact ⟨h₁ ▸ hd, h₂ ▸ hK.adopt hG hI (hd v ht) hm had⟩
  rcases flush_cases (watch d p.app.cfg c.reload).1 (p.reloaded (watch d p.app.cfg c.reload).2)
      c.flush with h | ⟨_, h₁, h₂, _⟩
  · rw [Proc.round, h]
    exact .running hw.1 rfl hw.2
  · refine .running ?_ h₂ hw.2
    rw [Proc.round, h₁]
    exact hw.1.save hflush (hK.dumps hw.2)

/-- A step that meets the condition keeps the properties. -/
theorem step {s s' : State} {a : Label} {r : Option Reply} (hs : s.Sound I J) (hm : Meets J G s a)
    (h : s.step a = some (s', r)) : s'.Sound I J := by
  obtain ⟨hb, hG⟩ := hm
  have hd := hs.file
  have down : ∀ {d' : Disk}, d'.Holds J → State.Sound I J ⟨d', none⟩ :=
    fun hd => ⟨hd, fun _ hp => by cases hp⟩
  cases State.steps_of_step h with
  | edit f => exact ⟨hd.edits hb, hs.mem⟩
  | @start d c =>
    obtain ⟨hsave, hurl⟩ := bring_append.1 hb
    rcases start_cases d c with h | ⟨data, hi, ⟨h, hp⟩ | ⟨h, hp⟩⟩
    · rw [h]
      exact down hd
    · obtain ⟨hI, -⟩ := hK.start hG hd hi
      refine ⟨?_, fun p hq => (hp p hq).data ▸ hI⟩
      rw [h]
      exact hd.layOver.save hsave (hK.dumps hI)
    · obtain ⟨hI, hI'⟩ := hK.start hG hd hi
      refine ⟨?_, fun p hq => (hp p hq).data ▸ hI'⟩
      rw [h]
      exact (hd.layOver.save hsave (hK.dumps hI)).save hurl (hK.dumps hI')
  | @proxy d p req now =>
    rcases proxy_cases p.app req now with ⟨r, h, -⟩ | ⟨data, hcount, h⟩
    · exact .running hd (by rw [h]) (hs.mem p rfl)
    · exact .running hd (by rw [h]) (hK.change (.count hcount) hG (hs.mem p rfl))
  | @admin d p req fresh c =>
    rcases admin_cases d p req fresh c with ⟨hdisk, hp, -⟩ | ⟨data, hc, hdisk, hp, -⟩
    · exact .running (by rw [hdisk]; exact hd) hp.data (hs.mem p rfl)
    · have hI := hK.change hc hG (hs.mem p rfl)
      exact .running (by rw [hdisk]; exact hd.save hb (hK.dumps hI)) hp.data hI
  | @finish d p i w body c =>
    rcases finish_cases d p w i body c with ⟨e, h⟩ | ⟨data, hc, hdisk, hp⟩
    · exact .running (by rw [h]; exact hd) (by rw [h]) (hs.mem p rfl)
    · have hI := hK.change hc hG (hs.mem p rfl)
      exact .running (by rw [hdisk]; exact hd.save hb (hK.dumps hI)) hp.data hI
  | @tick d p c => exact hK.round hd (hs.mem p rfl) hb hG
  | @flush d p c => exact down (hd.save hb (hK.dumps (hs.mem p rfl)))
  | stop => exact down hd

/-- A run whose steps meet the condition keeps the properties. -/
theorem leads {s s' : State} (hs : s.Sound I J) (h : (server.restrict (Meets J G)).Leads s s') :
    s'.Sound I J := by
  refine h.invariant hs fun s a s' hs hstep => ?_
  obtain ⟨hm, hstep⟩ := hstep
  obtain ⟨⟨t, r⟩, ht, rfl⟩ := Option.map_eq_some_iff.1 hstep
  exact hK.step hs hm ht

end Kept

end FlashNext.Gateway
