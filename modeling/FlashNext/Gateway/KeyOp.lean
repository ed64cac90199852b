import FlashNext.Returns
import FlashNext.Gateway.Server

/-!
# Key operations

`api_key_op` looks a key up by its id and goes on with its position in the list
of keys. A `label` request awaits its body in between, while other requests and
reloads go on: a revocation shifts the positions, and a reload puts another list
in place.

`keyOp_own` says in which runs a key operation touches only its own key: those
where a `label` request whose body is there still holds its key (`HoldsKey`).
Where several entries have one id, the entry with that id is the first one, which
is what the code looks up.
-/

namespace FlashNext.Gateway

open Python

/-! ## Lists -/

section List

variable {α : Type*} {p : α → Bool} {f : α → α} {xs : List α} {i : Nat}

/-- Changing the element behind some others. -/
theorem modify_append_cons (f : α → α) (ys : List α) (x : α) (zs : List α) :
    (ys ++ x :: zs).modify ys.length f = ys ++ f x :: zs := by
  simp [List.modify_eq_take_cons_drop]

/-- Removing it. -/
theorem eraseIdx_append_cons (ys : List α) (x : α) (zs : List α) :
    (ys ++ x :: zs).eraseIdx ys.length = ys ++ zs := by
  simp [List.eraseIdx_append_of_length_le]

/-- It is found, if those before it do not have the property `p`. -/
theorem find?_append_cons {ys : List α} (hys : ys.filter p = []) {x : α} (hx : p x = true)
    (zs : List α) : (ys ++ x :: zs).find? p = some x := by
  rw [List.find?_append, List.find?_eq_none.2 (List.filter_eq_nil_iff.1 hys), Option.none_or,
    List.find?_cons_of_pos hx]

/-- The first element with the property `p`, between those before it, which do not
    have it, and those after it. -/
theorem split_of_findIdx (h : xs.findIdx? p = some i) :
    ∃ ys x zs, xs = ys ++ x :: zs ∧ ys.length = i ∧ ys.filter p = [] ∧ p x = true := by
  obtain ⟨hlt, hx, hbefore⟩ := List.findIdx?_eq_some_iff_getElem.1 h
  refine ⟨xs.take i, xs[i], xs.drop (i + 1), ?_, List.length_take_of_le hlt.le, ?_, hx⟩
  · rw [List.getElem_cons_drop, List.take_append_drop]
  · rw [List.filter_eq_nil_iff]
    intro y hy
    obtain ⟨j, hj, rfl⟩ := List.mem_take_iff_getElem.1 hy
    exact hbefore j (by omega)

/-- Changing the first element with the property `p` changes no other. -/
theorem filter_not_modify (hf : ∀ x, p (f x) = p x) (h : xs.findIdx? p = some i) :
    (xs.modify i f).filter (!p ·) = xs.filter (!p ·) := by
  obtain ⟨ys, x, zs, rfl, rfl, -, hx⟩ := split_of_findIdx h
  simp [modify_append_cons, hf, hx]

/-- It is the first of those with the property. -/
theorem filter_modify (hf : ∀ x, p (f x) = p x) (h : xs.findIdx? p = some i) :
    (xs.modify i f).filter p = (xs.filter p).modifyHead f := by
  obtain ⟨ys, x, zs, rfl, rfl, hys, hx⟩ := split_of_findIdx h
  simp [modify_append_cons, hf, hx, hys]

/-- Removing the first element with the property `p` removes no other. -/
theorem filter_not_eraseIdx (h : xs.findIdx? p = some i) :
    (xs.eraseIdx i).filter (!p ·) = xs.filter (!p ·) := by
  obtain ⟨ys, x, zs, rfl, rfl, -, hx⟩ := split_of_findIdx h
  simp [eraseIdx_append_cons, hx]

theorem filter_eraseIdx (h : xs.findIdx? p = some i) :
    (xs.eraseIdx i).filter p = (xs.filter p).tail := by
  obtain ⟨ys, x, zs, rfl, rfl, hys, hx⟩ := split_of_findIdx h
  simp [eraseIdx_append_cons, hx, hys]

end List

/-! ## The entry with an id -/

/-- The id of an entry, if it is a string. -/
def idStr : Val → Option Str
  | .dict d =>
    match Dict.get d "id" with
    | some (.str s) => some s
    | _ => none
  | _ => none

/-- The entry has the id `kid`. -/
def hasId (kid : Str) (k : Val) : Bool := idStr k = some kid

/-- The entries with the id `kid`. -/
def ofKey (kid : Str) (ks : List Val) : List Val := ks.filter (hasId kid)

/-- The entries with another id. -/
def others (kid : Str) (ks : List Val) : List Val := ks.filter (!hasId kid ·)

theorem Val.eq_str_iff (v : Val) (s : Str) : v.eq (.str s) = true ↔ v = .str s := by
  cases v <;> simp [Val.eq, Val.eq.eqNum, Val.num]

/-- An entry that has an id at all is a dict; the id is `kid` when the code
    finds it equal. -/
theorem getItem_id {k v : Val} (h : k.getItem "id" = .ok v) (kid : Str) :
    v.eq (.str kid) = hasId kid k := by
  rw [Bool.eq_iff_iff, Val.eq_str_iff]
  cases k with
  | dict d =>
    cases hd : Dict.get d "id" with
    | none => simp [Val.getItem, hd] at h
    | some w =>
      obtain rfl : w = v := by simpa [Val.getItem, hd] using h
      cases w <;> simp [hasId, idStr, hd]
  | _ => simp [Val.getItem] at h

/-- The lookup finds the first entry with the id. -/
theorem findIdx_of_findKey {kid : Str} {ks : List Val} {i : Nat}
    (h : findKey kid ks = .ok (some i)) : ks.findIdx? (hasId kid) = some i := by
  induction ks generalizing i with
  | nil => cases h
  | cons k ks ih =>
    rw [findKey] at h
    obtain ⟨v, hid, h⟩ := bind_eq_ok.1 h
    rw [List.findIdx?_cons, ← getItem_id hid]
    cases hv : v.eq (.str kid) with
    | true =>
      rw [hv] at h
      obtain rfl : 0 = i := Option.some.inj (Except.ok.inj h)
      rfl
    | false =>
      rw [hv] at h
      obtain ⟨j, hrest, h⟩ := bind_eq_ok.1 h
      obtain ⟨j, rfl, rfl⟩ := Option.map_eq_some_iff.1 (Except.ok.inj h)
      simp [ih hrest]

/-- A lookup that finds an entry has gone through a list. -/
theorem list_of_findKey {keys : Val} {ks : List Val} {kid : Str} {i : Nat}
    (hks : keys.iter = .ok ks) (h : findKey kid ks = .ok (some i)) : keys = .list ks := by
  cases keys with
  | list xs => rw [Val.iter] at hks; rw [Except.ok.inj hks]
  | dict d =>
    -- The keys of a dict have no `id`, nor have the characters of a string.
    obtain rfl := Except.ok.inj hks
    cases d with
    | nil => cases h
    | cons kv d =>
      cases hk : kv.1 <;> simp [findKey, Key.toVal, Val.getItem, hk, bind, Except.bind] at h
  | str s =>
    obtain rfl := Except.ok.inj hks
    cases s with
    | nil => cases h
    | cons c s => simp [findKey, Val.getItem, bind, Except.bind] at h
  | _ => simp [Val.iter] at hks

@[simp] theorem entries_setKeys (data : Dict) (ks : List Val) : entries (setKeys data ks) = ks :=
  entries_eq (Dict.get_insert_self _ _ _)

/-- Setting another field keeps the id. -/
theorem hasId_setItem {name : Str} (hn : name ≠ str "id") (kid : Str) (k v : Val) :
    hasId kid (setItem k name v) = hasId kid k := by
  cases k with
  | dict d => rw [hasId, hasId, setItem, idStr, idStr, Dict.get_insert_of_ne _ _ (Ne.symm hn)]
  | _ => rfl

theorem hasId_rotateKey (fresh : Fresh) (kid : Str) (k : Val) :
    hasId kid (rotateKey fresh k) = hasId kid k := by
  simp [rotateKey, hasId_setItem]

/-! ## The condition -/

/-- The body gives no label: reading it raises, or it is not an object with a
    string for its label. -/
def NoLabel (body : Except Err Val) : Prop :=
  ∀ b, body = .ok b → ∀ label, labelOf b ≠ .ok label

/-- The request changes nothing: it has no label to set, or no entry to set it in. -/
def ChangesNothing (keys : List Val) (idx : Nat) (body : Except Err Val) : Prop :=
  NoLabel body ∨ ∀ d, keys[idx]? ≠ some (.dict d)

/-- The condition on the steps of a run: a `label` request whose body is there
    still holds its key. The list it holds is the current one, and the position
    it has found is that of the first entry with its id; or it changes nothing;
    or the list is no longer the current one, and there is no entry with its id
    any more (or it answers with an error, since the save fails). -/
def HoldsKey (s : State) : Label → Prop
  | .finish i body c => ∀ p ∈ s.proc, ∀ h ∈ p.pending[i]?,
      if h.gen = p.app.cfg.gen then
        (entries p.app.cfg.data).findIdx? (hasId h.kid) = some h.idx ∨
          ChangesNothing (entries p.app.cfg.data) h.idx body
      else ofKey h.kid (entries p.app.cfg.data) = [] ∨ c.failed.isSome ∨
        ChangesNothing (p.stale h.gen) h.idx body
  | _ => True

/-! ## What a key operation may do -/

/-- The requested change of the entries with the id, for an operation that does
    not await a body: the first one is removed, or carries the new key with fresh
    counters. -/
def Done (fresh : Fresh) : Op → List Val → List Val → Prop
  | .revoke, before, after => before ≠ [] ∧ after = before.tail
  | .rotate, _, after => ∀ k ∈ after.head?,
      k.getItem "key" = .ok (.str (str "sk-" ++ fresh.token)) ∧
        k.getItem "requests" = .ok (.int 0) ∧ k.getItem "last_used" = .ok .none ∧
        k.getItem "created" = .ok (.float fresh.created)
  | _, _, _ => False

/-- The change that a `label` request asks for: the first entry with the id
    carries the label in the body. -/
def Labelled (body : Except Err Val) (_ after : List Val) : Prop :=
  ∃ b label, body = .ok b ∧ labelOf b = .ok label ∧
    ∀ k ∈ after.head?, k.getItem "label" = .ok (.str label)

/-- The text is put in place of the file. -/
def Wrote (text : Text) (c : SaveCalls) (d d' : Disk) : Prop :=
  c.failed = none ∧ d' = ((d.edits c.before).replace text c.stamp).edits c.after

/-- A key operation for the id `kid` touches only its own key: the entries with
    another id are as they were, and if the answer is ok then the change is made,
    and is in the file. -/
structure OwnKey (kid : Str) (done : List Val → List Val → Prop) (c : SaveCalls)
    (before after : Disk × Proc) (r : Option Reply) : Prop where
  others : others kid (entries after.2.app.cfg.data) = others kid (entries before.2.app.cfg.data)
  done : (∃ body, r = some (.ok body)) →
    done (ofKey kid (entries before.2.app.cfg.data)) (ofKey kid (entries after.2.app.cfg.data))
  wrote : (∃ body, r = some (.ok body)) →
    Wrote (dumps after.2.app.cfg.data) c before.1 after.1

/-- Every key operation in the step touches only its own key. -/
def KeyOpsOwn (s : State) (a : Label) (s' : State) (r : Option Reply) : Prop :=
  match a with
  | .admin (.keyOp kid op) fresh c => ∀ p ∈ s.proc, ∀ p' ∈ s'.proc,
      OwnKey kid (Done fresh op) c (s.disk, p) (s'.disk, p') r
  | .finish i body c => ∀ p ∈ s.proc, ∀ h ∈ p.pending[i]?, ∀ p' ∈ s'.proc,
      OwnKey h.kid (Labelled body) c (s.disk, p) (s'.disk, p') r
  | _ => True

/-! ## The operations -/

/-- A handler that does not find the key raises, or answers that there is none. -/
theorem apiKeyOp_of_not_found {cfg : Config} {kid : Str} {keys : Val} {ks : List Val}
    (hkeys : Dict.get cfg.data "keys" = some keys) (hks : keys.iter = .ok ks)
    (hf : ∀ i, findKey kid ks ≠ .ok (some i)) (op : Op) (fresh : Fresh) :
    ∃ r, apiKeyOp cfg kid op fresh = .reply r ∧ ∀ body, r ≠ .ok body := by
  rcases hfind : findKey kid ks with e | _ | i
  · refine ⟨.raised e, ?_, fun _ h => by cases h⟩
    simp [apiKeyOp, Outcome.ofExcept, Val.getItem, hkeys, hks, hfind, bind, Except.bind]
  · refine ⟨.deny "no such key" 404, ?_, fun _ h => by cases h⟩
    simp [apiKeyOp, Outcome.ofExcept, Val.getItem, hkeys, hks, hfind, bind, Except.bind, pure,
      Except.pure]
  · exact absurd hfind (hf i)

/-- What a handler that has found the key does. -/
theorem apiKeyOp_of_found {cfg : Config} {kid : Str} {ks : List Val} {i : Nat}
    (hkeys : Dict.get cfg.data "keys" = some (.list ks)) (hf : findKey kid ks = .ok (some i))
    (op : Op) (fresh : Fresh) :
    apiKeyOp cfg kid op fresh =
      match op with
      | .revoke =>
        if ks.length = 1 then .reply (.deny "cannot revoke the last key" 409)
        else .save (setKeys cfg.data (ks.eraseIdx i)) (okWith "keys" (.list (ks.eraseIdx i)))
      | .rotate => .save (setKeys cfg.data (ks.modify i (rotateKey fresh)))
          (okWith "keys" (.list (ks.modify i (rotateKey fresh))))
      | .label => .await i
      | .other _ => .reply (.deny "unknown op" 400) := by
  simp only [apiKeyOp, Val.getItem, hkeys, Val.iter, hf, bind, Except.bind, pure, Except.pure]
  cases op with
  | revoke => split_ifs <;> rfl
  | _ => rfl

/-- What the handler does when the request comes in: it answers with an error, or
    it has found the first entry with the id, and revokes or rotates it, or
    awaits the body. -/
theorem apiKeyOp_cases (cfg : Config) (kid : Str) (op : Op) (fresh : Fresh) :
    (∃ r, apiKeyOp cfg kid op fresh = .reply r ∧ ∀ body, r ≠ .ok body) ∨
    ∃ i, (entries cfg.data).findIdx? (hasId kid) = some i ∧
      ((op = .revoke ∧ apiKeyOp cfg kid op fresh =
          .save (setKeys cfg.data ((entries cfg.data).eraseIdx i))
            (okWith "keys" (.list ((entries cfg.data).eraseIdx i)))) ∨
        (op = .rotate ∧ apiKeyOp cfg kid op fresh =
          .save (setKeys cfg.data ((entries cfg.data).modify i (rotateKey fresh)))
            (okWith "keys" (.list ((entries cfg.data).modify i (rotateKey fresh))))) ∨
        (op = .label ∧ apiKeyOp cfg kid op fresh = .await i)) := by
  have raised : ∀ e, apiKeyOp cfg kid op fresh = .reply (.raised e) →
      ∃ r, apiKeyOp cfg kid op fresh = .reply r ∧ ∀ body, r ≠ .ok body :=
    fun e h => ⟨_, h, fun _ h => by cases h⟩
  cases hkeys : Dict.get cfg.data "keys" with
  | none => exact .inl (raised .keyError (by
      simp [apiKeyOp, Outcome.ofExcept, Val.getItem, hkeys, bind, Except.bind]))
  | some keys =>
    cases hks : keys.iter with
    | error e => exact .inl (raised e (by
        simp [apiKeyOp, Outcome.ofExcept, Val.getItem, hkeys, hks, bind, Except.bind]))
    | ok ks =>
      -- Past this point the operation decides, if the id is found.
      by_cases hf : ∃ i, findKey kid ks = .ok (some i)
      · obtain ⟨i, hf⟩ := hf
        obtain rfl := list_of_findKey hks hf
        rw [entries_eq hkeys, apiKeyOp_of_found hkeys hf]
        cases op with
        | revoke =>
          by_cases hlen : ks.length = 1
          · exact .inl ⟨_, if_pos hlen, fun _ h => by cases h⟩
          · exact .inr ⟨i, findIdx_of_findKey hf, .inl ⟨rfl, if_neg hlen⟩⟩
        | rotate => exact .inr ⟨i, findIdx_of_findKey hf, .inr (.inl ⟨rfl, rfl⟩)⟩
        | label => exact .inr ⟨i, findIdx_of_findKey hf, .inr (.inr ⟨rfl, rfl⟩)⟩
        | other op => exact .inl ⟨_, rfl, fun _ h => by cases h⟩
      · exact .inl (apiKeyOp_of_not_found hkeys hks (fun i h => hf ⟨i, h⟩) op fresh)

/-- A label is set in a dict at the position, or the request raises. -/
theorem labelKey_cases (keys : List Val) (idx : Nat) (body : Except Err Val) :
    (∃ e, labelKey keys idx body = .error e) ∨
    ∃ b label d, body = .ok b ∧ labelOf b = .ok label ∧ keys[idx]? = some (.dict d) ∧
      labelKey keys idx body = .ok (keys.modify idx (setItem · "label" (.str label))) := by
  cases hb : body with
  | error e => exact .inl ⟨e, rfl⟩
  | ok b =>
    cases hl : labelOf b with
    | error e => exact .inl ⟨e, by simp [labelKey, hl, bind, Except.bind]⟩
    | ok label =>
      cases hk : keys[idx]? with
      | none => exact .inl ⟨.indexError, by simp [labelKey, hl, hk, bind, Except.bind]; rfl⟩
      | some k =>
        cases k with
        | dict d =>
          refine .inr ⟨b, label, d, rfl, hl, rfl, ?_⟩
          simp only [labelKey, hl, hk, bind, Except.bind, pure, Except.pure]
          rw [List.modify_eq_set_getElem?, hk]
          rfl
        | _ => exact .inl ⟨.typeError, by simp [labelKey, hl, hk, bind, Except.bind]; rfl⟩

@[simp] theorem commit_data (d : Disk) (cfg : Config) (answer : Reply) (c : SaveCalls) :
    (commit d cfg answer c).2.1.data = cfg.data := by
  unfold commit Config.save
  split <;> rfl

/-- A save that is answered ok has put its text in place. -/
theorem wrote_of_commit {d : Disk} {cfg : Config} {answer : Reply} {c : SaveCalls} {body : Val}
    (h : (commit d cfg answer c).2.2 = .ok body) :
    Wrote (dumps cfg.data) c d (commit d cfg answer c).1 := by
  cases hf : c.failed with
  | some e => simp [commit, Config.save, SaveCalls.saved, hf] at h
  | none => exact ⟨hf, by simp [commit, Disk.save, hf]⟩

/-- A key operation that saves the list `ks` touches only its own key, if the
    list has the other entries as they were and carries the change. -/
theorem ownKey_commit {kid : Str} {done : List Val → List Val → Prop} {c : SaveCalls} {d : Disk}
    {p p' : Proc} (data : Dict) {answer : Reply}
    (hp : p'.app.cfg = (commit d { p.app.cfg with data := data } answer c).2.1)
    (ho : others kid (entries data) = others kid (entries p.app.cfg.data))
    (hd : done (ofKey kid (entries p.app.cfg.data)) (ofKey kid (entries data))) :
    OwnKey kid done c (d, p) ((commit d { p.app.cfg with data := data } answer c).1, p')
      (some (commit d { p.app.cfg with data := data } answer c).2.2) := by
  have hdata : p'.app.cfg.data = data := by rw [hp, commit_data]
  refine ⟨by rw [hdata]; exact ho, fun _ => by rw [hdata]; exact hd, ?_⟩
  rintro ⟨body, hr⟩
  rw [hdata]
  exact wrote_of_commit (Option.some.inj hr)

/-- An operation that leaves the keys as they are and does not answer ok touches
    nothing. -/
theorem ownKey_of_not_ok {kid : Str} {done : List Val → List Val → Prop} {c : SaveCalls}
    {d d' : Disk} {p p' : Proc} {r : Option Reply} (hp : p'.app.cfg.data = p.app.cfg.data)
    (hr : ∀ body, r ≠ some (.ok body)) : OwnKey kid done c (d, p) (d', p') r :=
  ⟨by rw [hp], fun ⟨body, h⟩ => absurd h (hr body), fun ⟨body, h⟩ => absurd h (hr body)⟩

/-- After the first entry with the id is changed, the first of those with the id
    is the changed one. -/
theorem head_modifyHead {ks : List Val} {f : Val → Val} {k : Val}
    (h : k ∈ (ks.modifyHead f).head?) : ∃ k₀, k = f k₀ ∧ k₀ ∈ ks := by
  cases ks with
  | nil => cases h
  | cons k₀ ks => exact ⟨k₀, (Option.some.inj h).symm, List.mem_cons_self⟩

/-- An entry with an id is a dict. -/
theorem dict_of_hasId {kid : Str} {k : Val} (h : hasId kid k = true) : ∃ d, k = .dict d := by
  cases k with
  | dict d => exact ⟨d, rfl⟩
  | _ => simp [hasId, idStr] at h

/-- A key operation other than a label, or one that awaits its body. -/
theorem admin_own (d : Disk) (p : Proc) (kid : Str) (op : Op) (fresh : Fresh) (c : SaveCalls) :
    OwnKey kid (Done fresh op) c (d, p)
      ((p.admin d (.keyOp kid op) fresh c).1, (p.admin d (.keyOp kid op) fresh c).2.1)
      (p.admin d (.keyOp kid op) fresh c).2.2 := by
  rcases apiKeyOp_cases p.app.cfg kid op fresh with ⟨r, h, hr⟩ |
    ⟨i, hi, ⟨rfl, h⟩ | ⟨rfl, h⟩ | ⟨rfl, h⟩⟩
  · simp only [Proc.admin, Config.admin, h]
    exact ownKey_of_not_ok rfl fun body hb => hr body (Option.some.inj hb)
  · simp only [Proc.admin, Config.admin, h]
    refine ownKey_commit _ rfl ?_ ⟨?_, ?_⟩
    · rw [entries_setKeys, others, filter_not_eraseIdx hi, others]
    · obtain ⟨hlt, hk, -⟩ := List.findIdx?_eq_some_iff_getElem.1 hi
      exact List.ne_nil_of_mem (List.mem_filter.2 ⟨List.getElem_mem hlt, hk⟩)
    · rw [entries_setKeys, ofKey, filter_eraseIdx hi, ofKey]
  · simp only [Proc.admin, Config.admin, h]
    refine ownKey_commit _ rfl ?_ fun k hk => ?_
    · rw [entries_setKeys, others, filter_not_modify (hasId_rotateKey fresh kid) hi, others]
    · rw [entries_setKeys, ofKey, filter_modify (hasId_rotateKey fresh kid) hi] at hk
      obtain ⟨k₀, rfl, hk₀⟩ := head_modifyHead hk
      obtain ⟨d, rfl⟩ := dict_of_hasId (List.mem_filter.1 hk₀).2
      simp [rotateKey, setItem, Val.getItem, Dict.get_insert_of_ne]
  · simp only [Proc.admin, Config.admin, h]
    exact ownKey_of_not_ok rfl fun body hb => by cases hb

/-- A request that changes nothing raises. -/
theorem labelKey_of_changesNothing {keys : List Val} {idx : Nat} {body : Except Err Val}
    (h : ChangesNothing keys idx body) : ∃ e, labelKey keys idx body = .error e := by
  rcases labelKey_cases keys idx body with he | ⟨b, label, d, hb, hl, hk, -⟩
  · exact he
  · exact h.elim (fun h => absurd hl (h b hb label)) fun h => absurd hk (h d)

/-- A request that sets a label changes something. -/
theorem not_changesNothing {keys ks : List Val} {idx : Nat} {body : Except Err Val}
    (h : labelKey keys idx body = .ok ks) : ¬ChangesNothing keys idx body := by
  intro hn
  obtain ⟨e, he⟩ := labelKey_of_changesNothing hn
  rw [h] at he
  cases he

section Finish

variable {d : Disk} {p p' : Proc} {h : Pending} {body : Except Err Val} {c : SaveCalls}

/-- A `label` request that raises when its body is there touches nothing. -/
theorem finish_raised {e : Err} (he : (p.finish d h body c).2 = (p, .raised e))
    (hp' : p'.app = (p.finish d h body c).2.1.app) :
    OwnKey h.kid (Labelled body) c (d, p) ((p.finish d h body c).1, p')
      (some (p.finish d h body c).2.2) := by
  refine ownKey_of_not_ok (by rw [hp', he]) fun body hb => ?_
  rw [he] at hb
  cases hb

/-- The rest of a `label` request on the current list of keys, at the position of
    the first entry with its id. -/
theorem finish_current (hgen : h.gen = p.app.cfg.gen)
    (hold : (entries p.app.cfg.data).findIdx? (hasId h.kid) = some h.idx ∨
      ChangesNothing (entries p.app.cfg.data) h.idx body)
    (hp' : p'.app = (p.finish d h body c).2.1.app) :
    OwnKey h.kid (Labelled body) c (d, p) ((p.finish d h body c).1, p')
      (some (p.finish d h body c).2.2) := by
  rcases labelKey_cases (entries p.app.cfg.data) h.idx body with ⟨e, he⟩ |
    ⟨b, label, _, hb, hl, _, hkeys⟩
  · exact finish_raised (e := e) (by simp [Proc.finish, hgen, he]) hp'
  · have hi := hold.resolve_right (not_changesNothing hkeys)
    have hid := fun k => hasId_setItem (show str "label" ≠ str "id" by simp) h.kid k (.str label)
    simp only [Proc.finish, hgen, if_true, hkeys] at hp' ⊢
    refine ownKey_commit _ (by rw [hp']) ?_ ⟨b, label, hb, hl, fun k hk => ?_⟩
    · rw [entries_setKeys, others, filter_not_modify hid hi, others]
    · rw [entries_setKeys, ofKey, filter_modify hid hi] at hk
      obtain ⟨k₀, rfl, hk₀⟩ := head_modifyHead hk
      obtain ⟨d, rfl⟩ := dict_of_hasId (List.mem_filter.1 hk₀).2
      simp [setItem, Val.getItem]

/-- The rest of a `label` request on a list of keys that is no longer the current
    one, when there is no entry with its id any more, or the save fails. -/
theorem finish_stale (hgen : h.gen ≠ p.app.cfg.gen)
    (hold : ofKey h.kid (entries p.app.cfg.data) = [] ∨ c.failed.isSome ∨
      ChangesNothing (p.stale h.gen) h.idx body)
    (hp' : p'.app = (p.finish d h body c).2.1.app) :
    OwnKey h.kid (Labelled body) c (d, p) ((p.finish d h body c).1, p')
      (some (p.finish d h body c).2.2) := by
  rcases labelKey_cases (p.stale h.gen) h.idx body with ⟨e, he⟩ | ⟨b, label, _, hb, hl, _, hkeys⟩
  · exact finish_raised (e := e) (by simp [Proc.finish, hgen, he]) hp'
  · simp only [Proc.finish, hgen, if_false, hkeys] at hp' ⊢
    rcases hold with hnone | hfail | hn
    · -- The key is gone: the configuration is saved as it is.
      refine ownKey_commit p.app.cfg.data (by rw [hp']) rfl ⟨b, label, hb, hl, fun k hk => ?_⟩
      rw [hnone] at hk
      cases hk
    · obtain ⟨e, hfail⟩ := Option.isSome_iff_exists.1 hfail
      refine ownKey_of_not_ok (by rw [hp', commit_data]) fun body hb => ?_
      simp [commit, Config.save, SaveCalls.saved, hfail] at hb
    · exact absurd hn (not_changesNothing hkeys)

/-- The rest of a `label` request that holds its key. -/
theorem finish_own
    (hold : if h.gen = p.app.cfg.gen then
        (entries p.app.cfg.data).findIdx? (hasId h.kid) = some h.idx ∨
          ChangesNothing (entries p.app.cfg.data) h.idx body
      else ofKey h.kid (entries p.app.cfg.data) = [] ∨ c.failed.isSome ∨
        ChangesNothing (p.stale h.gen) h.idx body)
    (hp' : p'.app = (p.finish d h body c).2.1.app) :
    OwnKey h.kid (Labelled body) c (d, p) ((p.finish d h body c).1, p')
      (some (p.finish d h body c).2.2) := by
  split_ifs at hold with hgen
  · exact finish_current hgen hold hp'
  · exact finish_stale hgen hold hp'

end Finish

/-- In a run whose steps meet the condition, every step that occurs makes only
    key operations that touch their own key. -/
theorem keyOp_own {s s' : State} {a : Label} (h : (server.restrict HoldsKey).Occurs s a s')
    {r : Option Reply} (hs : s.step a = some (s', r)) : KeyOpsOwn s a s' r := by
  cases State.steps_of_step hs with
  | @admin d p req fresh c =>
    cases req with
    | keyOp kid op =>
      rintro _ ⟨⟩ _ ⟨⟩
      exact admin_own d p kid op fresh c
    | _ => trivial
  | @finish d p i w body c hw =>
    rintro _ ⟨⟩ w' hw' _ ⟨⟩
    obtain rfl := Option.some.inj (hw.symm.trans hw')
    exact finish_own (h.2.1 p rfl w hw) rfl
  | _ => trivial

/-! ## Runs -/

/-- A file with three keys. -/
def threeKeys : File where
  text := .doc (.dict [(.str "keys", .list [newKey ⟨[], str "a", str "1", .fin 0⟩ "first",
    newKey ⟨[], str "b", str "2", .fin 0⟩ "second",
    newKey ⟨[], str "c", str "3", .fin 0⟩ "third"])])
  stamp := ⟨0, 0, 0⟩

/-- A request to label the key `b`. -/
def labelB : Label := .admin (.keyOp "b" .label) ⟨[], [], [], .fin 0⟩ (.undisturbed 3)

/-- A request to revoke the key `a`. -/
def revokeA : Label := .admin (.keyOp "a" .revoke) ⟨[], [], [], .fin 0⟩ (.undisturbed 3)

/-- The body of the first pending request, with the label `mine`. -/
def finishMine : Label := .finish 0 (.ok (.dict [(.str "label", .str "mine")])) (.undisturbed 4)

/-- A label request that is not overtaken labels its own key. -/
theorem keyOp_own_label :
    ∃ s, [Label.start startUp, labelB].foldlM (fun s a => (s.step a).map (·.1))
      (State.down (some threeKeys)) = some s ∧
    ∃ s' r, s.step finishMine = some (s', r) ∧ KeyOpsOwn s finishMine s' r := by
  refine ⟨_, rfl, _, _, rfl, keyOp_own ⟨.step (a := labelB) (.step (a := .start startUp)
    (.init (s := State.down (some threeKeys)) ⟨rfl, rfl, rfl⟩) ⟨trivial, rfl⟩) ⟨trivial, rfl⟩,
    ?_, server_step rfl⟩ rfl⟩
  rintro _ ⟨⟩ _ ⟨⟩
  exact .inl rfl

/-- The labels of a list of entries. -/
def labels (ks : List Val) : List Str := ks.map fun k =>
  match k.getItem "label" with
  | .ok (.str s) => s
  | _ => []

/-- When a key before it is revoked while its body is awaited, a label request
    for `b` labels `c` and answers ok. -/
theorem keyOp_not_own :
    ∃ s s' r, server.Reachable s ∧ s.step finishMine = some (s', r) ∧
      (∃ body, r = some (.ok body)) ∧ ¬KeyOpsOwn s finishMine s' r := by
  refine ⟨_, _, _, server_replay (s := State.down (some threeKeys)) ⟨rfl, rfl, rfl⟩
    (l := [.start startUp, labelB, revokeA]) rfl, rfl, ⟨_, rfl⟩, fun h => ?_⟩
  have hothers := congrArg labels (h _ rfl _ rfl _ rfl).others
  exact absurd hothers (by decide)

end FlashNext.Gateway
