import Mathlib.Data.List.Nodup
import FlashNext.Gateway.Steps

/-!
# Revocation

Revoking a key, or rotating it, is meant to be for good: the key string is then
neither in memory nor in the file, and nothing that the gateway still holds
brings it back. A suspended `label` request holds a list of keys, but only
changes it, and saves the configuration in memory; a pending reload reads the
file, and so does a restart.

`revoked_not_admitted` is the property of runs: if the key strings are distinct,
no edit after the revocation brings the string back, and no token is drawn
twice, then no later request with that string is admitted. Distinct key strings
and the absence of a string are both kept by the steps for the same reasons
(`kept_keyStrs`).
-/

namespace FlashNext.Gateway

open Python

/-! ## The key strings -/

/-- The key strings of the entries that have one. -/
def keyStrs (ks : List Val) : List Str := ks.filterMap keyStr

/-- The key of a new entry, or of a rotated one. -/
def Fresh.key (fresh : Fresh) : Str := str "sk-" ++ fresh.token

@[simp] theorem keyStrs_nil : keyStrs [] = [] := rfl

@[simp] theorem keyStrs_append (ks ks' : List Val) :
    keyStrs (ks ++ ks') = keyStrs ks ++ keyStrs ks' :=
  List.filterMap_append

theorem keyStrs_cons {k : Val} {s : Str} (h : keyStr k = some s) (ks : List Val) :
    keyStrs (k :: ks) = s :: keyStrs ks :=
  List.filterMap_cons_some h

theorem keyStrs_sublist {ks ks' : List Val} (h : ks.Sublist ks') :
    (keyStrs ks).Sublist (keyStrs ks') :=
  h.filterMap _

/-- What a step draws. -/
def Label.fresh : Label → List Fresh
  | .start c => [c.fresh]
  | .admin _ fresh _ => [fresh]
  | .tick c => [c.reload.fresh]
  | _ => []

section List

variable {α : Type*} {xs : List α} {i : Nat} {x : α}

/-- An element between those before it and those after it. -/
theorem split_of_getElem? (h : xs[i]? = some x) :
    ∃ ys zs, xs = ys ++ x :: zs ∧ ys.length = i := by
  obtain ⟨hlt, rfl⟩ := List.getElem?_eq_some_iff.1 h
  refine ⟨xs.take i, xs.drop (i + 1), ?_, List.length_take_of_le hlt.le⟩
  rw [List.getElem_cons_drop, List.take_append_drop]

end List

/-- Setting another field keeps the key string. -/
theorem keyStr_setItem {name : Str} (hn : name ≠ str "key") (k v : Val) :
    keyStr (setItem k name v) = keyStr k := by
  cases k with
  | dict d => rw [setItem, keyStr, keyStr, Dict.get_insert_of_ne _ _ (Ne.symm hn)]
  | _ => rfl

theorem keyStr_newKey (fresh : Fresh) (label : Str) :
    keyStr (newKey fresh label) = some fresh.key := by
  simp [keyStr, newKey, Dict.get_cons, Fresh.key]

/-- A rotated entry has the new key, if it is an object. -/
theorem keyStr_rotateKey (fresh : Fresh) (d : Dict) :
    keyStr (rotateKey fresh (.dict d)) = some fresh.key := by
  rw [rotateKey, keyStr_setItem (by simp), keyStr_setItem (by simp), keyStr_setItem (by simp)]
  simp [setItem, keyStr, Fresh.key]

/-- Changing an entry without changing its key string. -/
theorem keyStrs_modify {f : Val → Val} (hf : ∀ k, keyStr (f k) = keyStr k) (ks : List Val)
    (i : Nat) : keyStrs (ks.modify i f) = keyStrs ks := by
  induction ks generalizing i with
  | nil => simp [keyStrs]
  | cons k ks ih =>
    cases i with
    | zero => simp [keyStrs, hf, List.filterMap_cons]
    | succ i =>
      have := ih i
      simp only [keyStrs] at this ⊢
      rw [List.modify_succ_cons, List.filterMap_cons, List.filterMap_cons, this]

theorem keyStrs_set {ks : List Val} {i : Nat} {k k' : Val} (hk : ks[i]? = some k)
    (h : keyStr k' = keyStr k) : keyStrs (ks.set i k') = keyStrs ks := by
  obtain ⟨ys, zs, rfl, rfl⟩ := split_of_getElem? hk
  simp [keyStrs, List.filterMap_cons, h]

/-- A request that is counted leaves the key strings. -/
theorem keyStrs_counted {data data' : Dict} {presented : Str} {now : Flt}
    (h : Counted data data' presented now) : keyStrs (entries data') = keyStrs (entries data) := by
  obtain ⟨i, k, v, v', hk, -, -, -, rfl⟩ := h
  rw [show Dict.insert data (.str "keys") _ = setKeys data _ from rfl, entries_setKeys,
    keyStrs_set hk (by rw [keyStr_setItem (by simp), keyStr_setItem (by simp)])]

theorem keyStrs_mergeKeys (m : Dict) (ks : List Val) :
    keyStrs (mergeKeys m ks).1 = keyStrs ks := by
  have h := mergeKeys_map (f := keyStr)
    (fun k v w => by rw [keyStr_setItem (by simp), keyStr_setItem (by simp)]) m ks
  have hmap : ∀ xs, keyStrs xs = (xs.map keyStr).filterMap id := fun xs => by
    rw [List.filterMap_map]
    rfl
  rw [hmap, hmap, h]

/-- A reload takes the key strings of the document. -/
theorem keyStrs_adopt {m : Dict} {v : Val} {new : Dict} {e : Option Err}
    (h : adopt m v = (new, e)) : keyStrs (entries new) = keyStrs (entries (laidOver v)) := by
  rcases adopt_cases h with ⟨rfl, -⟩ | ⟨ks, hkeys, rfl, -⟩
  · rfl
  · rw [entries_setKeys, keyStrs_mergeKeys, entries_eq hkeys]

/-! ## Properties of the key strings -/

section Kept

variable {P : List Str → Prop} {N : List Str → Str → Prop}

/-- A configuration in memory whose key strings have the property `P`. -/
def KeysHave (P : List Str → Prop) (data : Dict) : Prop :=
  data.Distinct ∧ P (keyStrs (entries data))

/-- A document whose entries have key strings with the property `P`. -/
def BringsKeys (P : List Str → Prop) (v : Val) : Prop := P (keyStrs (entries (laidOver v)))

/-- Every key that the step draws is new, in the sense of `N`, to the key strings
    in memory. -/
def DrawsNew (N : List Str → Str → Prop) (ks : List Val) (a : Label) : Prop :=
  ∀ fresh ∈ a.fresh, N (keyStrs ks) fresh.key

theorem keysHave_normalize {data : Dict} (h : KeysHave P data) {fresh : Fresh}
    (hdefault : P [fresh.key]) : KeysHave P (normalize fresh data) := by
  refine ⟨normalize_distinct h.1 fresh, ?_⟩
  rw [entries_normalize]
  split_ifs
  · simpa [keyStrs, keyStr_newKey] using hdefault
  · exact h.2

/-- The steps keep a property of the key strings that holds of none, that passes
    to sublists, and that a new string keeps. -/
theorem kept_keyStrs (nil : P []) (sub : ∀ {l l'}, l.Sublist l' → P l' → P l)
    (new : ∀ {a b l x}, (a ++ b).Sublist l → P (a ++ b) → N l x → P (a ++ x :: b)) :
    Kept (KeysHave P) (BringsKeys P) (DrawsNew N) where
  dumps h := by
    rw [BringsKeys, entries_laidOver h.1]
    exact h.2
  change {a data data'} hc hG h := by
    obtain ⟨hd, hP⟩ := h
    cases hc with
    | count hcount =>
      refine ⟨?_, by rw [keyStrs_counted hcount]; exact hP⟩
      obtain ⟨_, _, _, _, _, _, _, _, rfl⟩ := hcount
      exact hd.insert _ _
    | config => exact ⟨hd, hP⟩
    | url =>
      refine ⟨hd.insert _ _, ?_⟩
      rw [entries_insert_of_ne (by simp)]
      exact hP
    | @create _ fresh _ _ ks label hkeys =>
      refine ⟨hd.insert _ _, ?_⟩
      -- The new string comes behind the others.
      rw [entries_eq hkeys] at hP hG
      rw [entries_setKeys, keyStrs_append, keyStrs_cons (keyStr_newKey fresh label)]
      exact new (by simp) (by simpa using hP) (hG fresh (List.mem_singleton_self _))
    | revoke =>
      refine ⟨hd.insert _ _, sub ?_ hP⟩
      rw [entries_setKeys]
      exact keyStrs_sublist (List.eraseIdx_sublist _ _)
    | @rotate kid fresh _ _ i hi =>
      refine ⟨hd.insert _ _, ?_⟩
      -- The new string comes between those of the keys around the rotated one.
      have hN := hG fresh (List.mem_singleton_self _)
      obtain ⟨ys, k, zs, hks, rfl, -, hk⟩ := split_of_findIdx hi
      obtain ⟨d, rfl⟩ := dict_of_hasId hk
      have hsub : (keyStrs ys ++ keyStrs zs).Sublist (keyStrs (entries data)) := by
        rw [hks, ← keyStrs_append]
        exact keyStrs_sublist ((List.sublist_cons_self _ zs).append_left ys)
      rw [entries_setKeys, hks, modify_append_cons, keyStrs_append,
        keyStrs_cons (keyStr_rotateKey fresh d)]
      exact new hsub (sub hsub hP) hN
    | label i label =>
      refine ⟨hd.insert _ _, ?_⟩
      rw [entries_setKeys, keyStrs_modify fun k => keyStr_setItem (by simp) k _]
      exact hP
    | stale => exact ⟨hd, hP⟩
  adopt {c data v m new' e} hG _ hJ _ had := by
    have h : KeysHave P new' := by
      refine ⟨?_, by rw [keyStrs_adopt had]; exact hJ⟩
      rcases adopt_cases had with ⟨rfl, -⟩ | ⟨ks, -, rfl, -⟩
      · exact laidOver_distinct v
      · exact (laidOver_distinct v).insert _ _
    split_ifs
    · exact h
    · exact keysHave_normalize h
        (new (a := []) (List.nil_sublist _) nil (hG _ (List.mem_singleton_self _)))
  start {c d data} hG hd hi := by
    have h : KeysHave P data := by
      have hdefault := new (a := []) (List.nil_sublist _) nil (hG _ (List.mem_singleton_self _))
      rcases initData_cases hi with rfl | ⟨v, ht, -, rfl⟩
      · exact keysHave_normalize ⟨by simp [Dict.Distinct, blank], nil⟩ hdefault
      · exact keysHave_normalize ⟨laidOver_distinct v, hd v ht⟩ hdefault
    exact ⟨h, h.1.insert _ _, by rw [withUrl_entries]; exact h.2⟩

end Kept

/-! ## Revocation -/

/-- No two key strings are the same. -/
abbrev KeysDistinct : Dict → Prop := KeysHave List.Nodup

/-- The key string `old` is not there. -/
abbrev LacksKey (old : Str) : Dict → Prop := KeysHave (old ∉ ·)

/-- A step before the revocation: the key strings that an edit brings in are
    distinct, and a key that is drawn is not one of those in memory. -/
abbrev KeepsDistinct : State → Label → Prop :=
  Meets (BringsKeys List.Nodup) (DrawsNew fun ks key => key ∉ ks)

/-- A step after the revocation: no edit brings in the key string `old`, and it
    is not drawn again. -/
abbrev KeepsOut (old : Str) : State → Label → Prop :=
  Meets (BringsKeys (old ∉ ·)) (DrawsNew fun _ key => key ≠ old)

theorem kept_distinct :
    Kept KeysDistinct (BringsKeys List.Nodup) (DrawsNew fun ks key => key ∉ ks) := by
  refine kept_keyStrs List.nodup_nil List.Nodup.sublist fun hsub hab hx => ?_
  rw [List.nodup_middle, List.nodup_cons]
  exact ⟨fun h => hx (hsub.subset h), hab⟩

theorem kept_lacks (old : Str) :
    Kept (LacksKey old) (BringsKeys (old ∉ ·)) (DrawsNew fun _ key => key ≠ old) := by
  refine kept_keyStrs List.not_mem_nil (fun hsub h hold => h (hsub.subset hold))
    fun _ hab hx hold => ?_
  rcases List.mem_append.1 hold with h | h
  · exact hab (List.mem_append_left _ h)
  · rcases List.mem_cons.1 h with rfl | h
    · exact hx rfl
    · exact hab (List.mem_append_right _ h)

/-- The step revokes or rotates the first key with the id `kid`, whose key string
    is `old`, and answers ok; what is drawn is not `old`, and no edit brings it back
    after the file is replaced. -/
structure Revokes (kid old : Str) (s : State) (a : Label) (s' : State) : Prop where
  key : (s.entries.find? (hasId kid)).bind keyStr = some old
  step : ∃ op fresh c body, (op = .revoke ∨ op = .rotate) ∧ a = .admin (.keyOp kid op) fresh c ∧
    s.step a = some (s', some (.ok body)) ∧ fresh.key ≠ old ∧ Bring (BringsKeys (old ∉ ·)) c.after

/-- Without the entry that has the key string `old`, or with another key in it,
    there is no such string. -/
theorem lacks_of_change {data data' : Dict} {kid old : Str} {op : Op} {fresh : Fresh}
    {c : SaveCalls} (hd : KeysDistinct data) (hop : op = .revoke ∨ op = .rotate)
    (hkey : ((entries data).find? (hasId kid)).bind keyStr = some old) (hfresh : fresh.key ≠ old)
    (hc : Change (.admin (.keyOp kid op) fresh c) data data') : LacksKey old data' := by
  obtain ⟨hdist, hnodup⟩ := hd
  -- The first entry with the id is the one that has the string.
  have split : ∀ i, (entries data).findIdx? (hasId kid) = some i → ∃ ys d zs,
      entries data = ys ++ .dict d :: zs ∧ ys.length = i ∧ old ∉ keyStrs ys ∧ old ∉ keyStrs zs := by
    intro i hi
    obtain ⟨ys, k, zs, hks, hlen, hys, hk⟩ := split_of_findIdx hi
    obtain ⟨d, rfl⟩ := dict_of_hasId hk
    rw [hks, find?_append_cons hys hk, Option.bind_some] at hkey
    rw [hks, keyStrs_append, keyStrs_cons hkey, List.nodup_middle, List.nodup_cons,
      List.mem_append, not_or] at hnodup
    exact ⟨ys, d, zs, hks, hlen, hnodup.1⟩
  refine ⟨?_, ?_⟩
  · cases hc <;> exact hdist.insert _ _
  cases hc with
  | revoke hi =>
    obtain ⟨ys, d, zs, hks, rfl, hys, hzs⟩ := split _ hi
    rw [entries_setKeys, hks, eraseIdx_append_cons, keyStrs_append, List.mem_append, not_or]
    exact ⟨hys, hzs⟩
  | rotate hi =>
    obtain ⟨ys, d, zs, hks, rfl, hys, hzs⟩ := split _ hi
    rw [entries_setKeys, hks, modify_append_cons, keyStrs_append,
      keyStrs_cons (keyStr_rotateKey fresh d)]
    simp [hys, hzs, Ne.symm hfresh]

/-- A revocation that is answered ok leaves the key string neither in memory nor
    in the file. -/
theorem sound_of_revokes {s s' : State} {a : Label} {kid old : Str}
    (hs : s.Sound KeysDistinct (BringsKeys List.Nodup)) (h : Revokes kid old s a s') :
    s'.Sound (LacksKey old) (BringsKeys (old ∉ ·)) := by
  obtain ⟨hkey, op, fresh, c, body, hop, rfl, hstep, hfresh, hafter⟩ := h
  generalize hreply : some (Reply.ok body) = r at hstep
  cases State.steps_of_step hstep with
  | @admin d p =>
    rcases admin_cases d p (.keyOp kid op) fresh c with ⟨-, -, hno⟩ | ⟨data, hc, hdisk, hp, hsaved⟩
    · exact absurd hreply.symm (hno body)
    · have hlacks := lacks_of_change (hs.mem p rfl) hop hkey hfresh hc
      refine .running ?_ hp.data hlacks
      -- The save has replaced whatever the file held.
      rw [hdisk, Disk.save, hsaved ⟨body, hreply.symm⟩]
      refine Disk.Holds.edits (fun v hv => ?_) hafter
      obtain rfl := Text.doc.inj (Option.some.inj hv)
      exact (kept_lacks old).dumps hlacks

/-- A request with a key string that is not in memory is not admitted. -/
theorem not_forward_of_lacks {app : App} {req : Request} {now : Flt} {old : Str}
    (h : LacksKey old app.cfg.data) (hreq : bearer req = old) (up : UpstreamRequest) :
    (proxy app req now).2 ≠ .forward up := by
  intro hup
  rcases proxy_cases app req now with ⟨r, hp, hr⟩ | ⟨data, ⟨i, k, _, _, hk, hkey, _⟩, hp⟩
  · rw [hp] at hup
    exact hr up hup
  · rw [hreq] at hkey
    exact h.2 (List.mem_filterMap.2 ⟨k, List.mem_of_getElem? hk, hkey⟩)

/-- Revocation is permanent: after a revocation of a key that was answered ok, no
    run admits a request with its key string. -/
theorem revoked_not_admitted {s₀ s s' t t' : State} {a : Label} {kid old : Str} {req : Request}
    {now : Flt} {r : Option Reply} (h₀ : s₀.Sound KeysDistinct (BringsKeys List.Nodup))
    (hbefore : (server.restrict KeepsDistinct).Leads s₀ s) (hrevoke : Revokes kid old s a s')
    (hafter : (server.restrict (KeepsOut old)).Leads s' t) (hreq : bearer req = old)
    (hstep : t.step (.proxy req now) = some (t', r)) (up : UpstreamRequest) :
    r ≠ some (.forward up) := by
  have hs := kept_distinct.leads h₀ hbefore
  have ht := (kept_lacks old).leads (sound_of_revokes hs hrevoke) hafter
  cases State.steps_of_step hstep with
  | @proxy d p =>
    exact fun h => not_forward_of_lacks (ht.mem p rfl) hreq up (Option.some.inj h)

/-! ## A run -/

/-- The key `sk-1` is revoked while a `label` request for another key awaits its
    body; it is not admitted after that request, a shutdown and a restart. -/
theorem revoked_not_admitted_restart :
    ∃ s s' t t' body r,
      (State.down (some threeKeys)).run [Label.start startUp, labelB] = some s ∧
      s.step revokeA = some (s', some (.ok body)) ∧
      s'.run [finishMine, .stop (.undisturbed 5), .start startUp] = some t ∧
      t.step (.proxy (getModels [(str "Authorization", str "Bearer sk-1")]) (.fin 9)) =
        some (t', r) ∧
      ∀ up, r ≠ some (.forward up) := by
  obtain ⟨s, s', t, t', body, r, hs, hrevoke, ht, hr⟩ : ∃ s s' t t' body r,
      (State.down (some threeKeys)).run [Label.start startUp, labelB] = some s ∧
      s.step revokeA = some (s', some (.ok body)) ∧
      s'.run [finishMine, .stop (.undisturbed 5), .start startUp] = some t ∧
      t.step (.proxy (getModels [(str "Authorization", str "Bearer sk-1")]) (.fin 9)) =
        some (t', r) :=
    ⟨_, _, _, _, _, _, rfl, rfl, rfl, rfl⟩
  refine ⟨s, s', t, t', body, r, hs, hrevoke, ht, hr, ?_⟩
  -- A start brings no document, and draws a key string that is not there.
  have start : ∀ {J : Val → Prop} {N : List Str → Str → Prop} (s : State),
      N (keyStrs s.entries) (str "sk-secret") → Meets J (DrawsNew N) s (.start startUp) :=
    fun s h => ⟨bring_nil, List.forall_mem_singleton.2 h⟩
  refine @revoked_not_admitted _ _ _ _ _ _ "a" "sk-1" _ _ _
    ⟨fun v hv => ?_, fun _ hp => by cases hp⟩
    (State.leads_of_run (l := [_, _]) ⟨?_, fun s₁ hs₁ => ⟨?_, fun _ _ => trivial⟩⟩ hs)
    ⟨?_, .revoke, _, _, _, .inl rfl, rfl, hrevoke, by decide, fun f hf => by cases hf⟩
    (State.leads_of_run (l := [_, _, _])
      ⟨?_, fun _ _ => ⟨?_, fun _ _ => ⟨?_, fun _ _ => trivial⟩⟩⟩ ht) rfl hr
  · obtain rfl := Text.doc.inj (Option.some.inj hv)
    change List.Nodup (keyStrs _)
    decide
  · exact start _ (by simp [keyStrs, State.down, State.entries])
  · obtain rfl := Option.some.inj hs₁
    exact ⟨bring_nil, List.forall_mem_singleton.2 (by decide)⟩
  · obtain rfl := Option.some.inj hs
    rfl
  · exact ⟨bring_nil, fun _ h => by cases h⟩
  · exact ⟨bring_nil, fun _ h => by cases h⟩
  · exact start _ (by simp)

end FlashNext.Gateway
