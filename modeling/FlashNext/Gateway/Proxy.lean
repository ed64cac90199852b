import FlashNext.Gateway.Config
import FlashNext.Python.Text

/-!
# The proxy

`proxy` of `scripts/gateway.py`, up to the request it sends upstream: the
allow-list on the path, the bearer token, the lookup of the key, its counters,
and the target, header fields and body of the upstream request.

Admission is meant to be sound and complete (`Admission`): a request is counted
and forwarded exactly when its path is allowed and it carries a non-empty bearer
token that is the key of an entry, and is otherwise answered 404 or 401 with
nothing changed. `proxy_admission_iff` says for which requests and
configurations it is: `hmac.compare_digest` raises on strings that are not
ASCII, a request without a token presents the empty key, and an entry may lack
the counter.
-/

namespace FlashNext.Gateway

open Python

/-! ## Strings -/

/-- `str.lower`, where it matters here: no character outside ASCII has a
    lower-case form that starts with a letter of `bearer`, or that occurs in the
    name of a header field. -/
def lower (s : Str) : Str := s.map fun c => if 65 ≤ c ∧ c ≤ 90 then c + 32 else c

/-- `s.isascii()`. -/
def isAscii (s : Str) : Bool := s.all (· < 128)

/-! ## Requests -/

/-- A client's request, as the handler sees it. -/
structure Request where
  method : Str
  /-- `request.path`, percent-decoded. -/
  path : Str
  /-- `request.rel_url.path_qs`, percent-decoded. -/
  pathQs : Str
  /-- The header fields in order, with the names as the client spelled them. -/
  headers : List (Str × Str)
  /-- `request.content`, if `request.body_exists`. -/
  body : Option (List UInt8)

/-- The request that is sent upstream. -/
structure UpstreamRequest where
  method : Str
  url : Str
  headers : List (Str × Str)
  body : Option (List UInt8)

/-- What a handler does: it answers with an error, raises, sends a request
    upstream and relays the response, or answers with a JSON document. -/
inductive Reply
  | deny (msg : Str) (status : Nat)
  | raised (e : Err)
  | forward (up : UpstreamRequest)
  | ok (body : Val)

/-- The application, as far as the proxy uses it. -/
structure App where
  cfg : Config
  upstream : Str
  upstreamKey : Str
  /-- `state["dirty"]`: some counter is not in the file. -/
  dirty : Bool

/-- `PROXY_PREFIXES`. -/
def proxyPrefixes : List Str := [str "/v1/", str "/metrics"]

/-- `HOP_BY_HOP`. -/
def hopByHop : List Str :=
  [str "connection", str "keep-alive", str "transfer-encoding", str "te", str "trailer",
    str "proxy-authorization", str "proxy-authenticate", str "upgrade", str "content-length"]

/-- The path passes the allow-list. -/
def pathAllowed (path : Str) : Bool := proxyPrefixes.any (·.isPrefixOf path)

/-- `request.headers.get(name)`: the first field of that name, in any case. -/
def getHeader (headers : List (Str × Str)) (name : Str) : Option Str :=
  (headers.find? fun h => lower h.1 = lower name).map (·.2)

/-- `bearer`. -/
def bearer (req : Request) : Str :=
  let auth := (getHeader req.headers "Authorization").getD []
  if (str "bearer ").isPrefixOf (lower auth) then strip (auth.drop 7) else []

/-! ## The key -/

/-- `hmac.compare_digest`, with a string on the right. -/
def compareDigest : Val → Str → Except Err Bool
  | .str a, b => if isAscii a && isAscii b then .ok (a = b) else .error .typeError
  | _, _ => .error .typeError

/-- The loop of `match`: the position of the first entry with the presented key. -/
def matchKey (presented : Str) : List Val → Except Err (Option Nat)
  | [] => .ok none
  | k :: ks => do
    if ← compareDigest (← k.getItem "key") presented then return some 0
    else return (← matchKey presented ks).map (· + 1)

/-- `Config.match`. -/
def Config.match (cfg : Config) (presented : Str) : Except Err (Option Nat) := do
  let keys ← (Val.dict cfg.data).getItem "keys"
  matchKey presented (← keys.iter)

/-- The entries of the configuration, where its keys are a list. -/
def entries (data : Dict) : List Val :=
  match Dict.get data "keys" with
  | some (.list ks) => ks
  | _ => []

/-- `key["requests"] += 1; key["last_used"] = time.time()`. -/
def countRequest (k : Val) (now : Flt) : Except Err Val := do
  let requests ← (← k.getItem "requests").addOne
  return setItem (setItem k "requests" requests) "last_used" (.float now)

/-! ## The upstream request -/

/-- `headers[name] = value`, in a dict of strings. -/
def setHeader : List (Str × Str) → Str → Str → List (Str × Str)
  | [], name, value => [(name, value)]
  | h :: hs, name, value =>
    if h.1 = name then (name, value) :: hs else h :: setHeader hs name value

/-- The header fields of the upstream request. -/
def upstreamHeaders (upstreamKey : Str) (headers : List (Str × Str)) : List (Str × Str) :=
  let headers := (headers.filter fun h => lower h.1 ∉ hopByHop).foldl
    (fun hs h => setHeader hs h.1 h.2) []
  let headers := headers.filter (·.1 ≠ str "Host")
  let headers := headers.filter (·.1 ≠ str "Authorization")
  if upstreamKey ≠ [] then setHeader headers "Authorization" (str "Bearer " ++ upstreamKey)
  else headers

/-- The request that the proxy sends for an admitted one. -/
def upstreamRequest (app : App) (req : Request) : UpstreamRequest where
  method := req.method
  url := app.upstream ++ req.pathQs
  headers := upstreamHeaders app.upstreamKey req.headers
  body := req.body

/-- `proxy`, up to the request it sends upstream. -/
def proxy (app : App) (req : Request) (now : Flt) : App × Reply :=
  if pathAllowed req.path then
    match app.cfg.match (bearer req) with
    | .error e => (app, .raised e)
    | .ok none => (app, .deny "Incorrect API key provided." 401)
    | .ok (some i) =>
      -- Only a list has entries with a key; the entry is changed in place.
      match countRequest ((entries app.cfg.data).getD i .none) now with
      | .error e => (app, .raised e)
      | .ok key =>
        let data :=
          Dict.insert app.cfg.data (.str "keys") (.list ((entries app.cfg.data).set i key))
        ({ app with cfg := { app.cfg with data := data }, dirty := true },
          .forward (upstreamRequest app req))
  else (app, .deny "not found" 404)

/-! ## Admission -/

/-- The key string of an entry. -/
def keyStr : Val → Option Str
  | .dict d =>
    match Dict.get d "key" with
    | some (.str s) => some s
    | _ => none
  | _ => none

/-- An iteration over the keys gives the entries `ks`. -/
def Iterated (data : Dict) (ks : List Val) : Prop :=
  ∃ keys, Dict.get data "keys" = some keys ∧ keys.iter = .ok ks

/-- The `key` of every entry is a string. -/
def KeyStrings (data : Dict) : Prop := ∀ ks, Iterated data ks → ∀ k ∈ ks, (keyStr k).isSome

/-- The requests to admit: on an allowed path, with a non-empty bearer token
    that is the key of an entry. -/
def Admitted (data : Dict) (req : Request) : Prop :=
  pathAllowed req.path = true ∧ bearer req ≠ [] ∧
    ∃ k ∈ entries data, keyStr k = some (bearer req)

/-- `data'` is `data` with one more request counted for an entry with the key
    `presented`. -/
def Counted (data data' : Dict) (presented : Str) (now : Flt) : Prop :=
  ∃ i k requests requests', (entries data)[i]? = some k ∧ keyStr k = some presented ∧
    k.getItem "requests" = .ok requests ∧ requests.addOne = .ok requests' ∧
    data' = Dict.insert data (.str "keys") (.list ((entries data).set i
      (setItem (setItem k "requests" requests') "last_used" (.float now))))

/-- Admission is sound and complete for the request: it is counted and
    forwarded if it is to be admitted, and otherwise denied, with nothing
    changed. -/
structure Admission (app : App) (req : Request) (now : Flt) : Prop where
  admits : Admitted app.cfg.data req → ∃ data, Counted app.cfg.data data (bearer req) now ∧
    proxy app req now = ({ app with cfg := { app.cfg with data := data }, dirty := true },
      .forward (upstreamRequest app req))
  denies : ¬Admitted app.cfg.data req → ∃ msg status, (status = 404 ∨ status = 401) ∧
    proxy app req now = (app, .deny msg status)

/-- The comparisons of `match` that take place do not raise: the token is ASCII,
    and so are the keys of the entries before the first one that it matches. -/
def Comparable (ks : List Val) (presented : Str) : Prop :=
  isAscii presented = true ∧
    ∀ k ∈ ks.takeWhile (keyStr · ≠ some presented), ∀ s, keyStr k = some s → isAscii s = true

/-- The entry counts its requests with a number. -/
def HasCounter (k : Val) : Prop := ∃ v, k.getItem "requests" = .ok v ∧ v.num.isSome

/-- The requests that are answered as they should be: the path is not allowed; or
    the keys are a collection, and there is none, or the comparisons do not raise
    and the entry that the token matches, if there is one, is not that of the
    empty key and has a counter. -/
def Answerable (data : Dict) (req : Request) : Prop :=
  pathAllowed req.path = false ∨ (∃ ks, Iterated data ks) ∧ (entries data = [] ∨
    Comparable (entries data) (bearer req) ∧
      ∀ k, (entries data).find? (keyStr · = some (bearer req)) = some k →
        bearer req ≠ [] ∧ HasCounter k)

section Match

variable {ks : List Val} {presented : Str}

theorem getItem_key {k : Val} {s : Str} (h : keyStr k = some s) :
    k.getItem "key" = .ok (.str s) := by
  cases k with
  | dict d =>
    simp only [keyStr] at h
    split at h
    · rename_i hget
      obtain rfl := Option.some.inj h
      simp [Val.getItem, hget]
    · cases h
  | _ => simp [keyStr] at h

/-- `match` finds the first entry with the presented key, when no comparison
    before it raises. -/
theorem matchKey_of_comparable (hks : ∀ k ∈ ks, (keyStr k).isSome)
    (hc : Comparable ks presented) :
    matchKey presented ks = .ok (ks.findIdx? (keyStr · = some presented)) := by
  induction ks with
  | nil => rfl
  | cons k ks ih =>
    rw [List.forall_mem_cons] at hks
    obtain ⟨s, hs⟩ := Option.isSome_iff_exists.1 hks.1
    obtain ⟨hp, hpre⟩ := hc
    by_cases heq : s = presented
    · subst heq
      simp [matchKey, getItem_key hs, compareDigest, hp, List.findIdx?_cons, hs, bind, Except.bind,
        pure, Except.pure]
    · -- The comparison takes place, and the loop goes on.
      have hne : keyStr k ≠ some presented := by rw [hs]; exact fun h => heq (Option.some.inj h)
      rw [List.takeWhile_cons_of_pos (by simpa using hne), List.forall_mem_cons] at hpre
      have ih := ih hks.2 ⟨hp, hpre.2⟩
      simp [matchKey, getItem_key hs, compareDigest, hpre.1 s hs, hp, heq, ih, hs,
        List.findIdx?_cons, bind, Except.bind, pure, Except.pure]

/-- `match` raises when a comparison does. -/
theorem matchKey_of_not_comparable (hks : ∀ k ∈ ks, (keyStr k).isSome) (hne : ks ≠ [])
    (hc : ¬Comparable ks presented) : ∃ e, matchKey presented ks = .error e := by
  induction ks with
  | nil => exact absurd rfl hne
  | cons k ks ih =>
    rw [List.forall_mem_cons] at hks
    obtain ⟨s, hs⟩ := Option.isSome_iff_exists.1 hks.1
    by_cases hcmp : isAscii s = true ∧ isAscii presented = true
    · -- The first comparison does not raise, so that a later one does.
      have hns : keyStr k ≠ some presented := by
        intro h
        rw [Comparable, List.takeWhile_cons_of_neg (by simp [h])] at hc
        exact hc ⟨hcmp.2, by simp⟩
      have hsp : s ≠ presented := fun h => hns (hs.trans (congrArg some h))
      have hks' : ks ≠ [] := by
        rintro rfl
        refine hc ⟨hcmp.2, ?_⟩
        rw [List.takeWhile_cons_of_pos (by simpa using hns)]
        intro j hj t ht
        obtain rfl : j = k := by simpa using hj
        rw [hs] at ht
        exact Option.some.inj ht ▸ hcmp.1
      obtain ⟨e, he⟩ := ih hks.2 hks' fun h => hc ⟨h.1, by
        rw [List.takeWhile_cons_of_pos (by simpa using hns), List.forall_mem_cons]
        exact ⟨fun t ht => by rw [hs] at ht; exact Option.some.inj ht ▸ hcmp.1, h.2⟩⟩
      exact ⟨e, by simp [matchKey, getItem_key hs, compareDigest, hcmp, hsp, he, bind, Except.bind]⟩
    · exact ⟨.typeError, by
        simp only [matchKey, getItem_key hs, compareDigest, bind, Except.bind]
        rw [if_neg (by simpa using hcmp)]⟩

end Match

theorem entries_eq {data : Dict} {ks : List Val} (h : Dict.get data "keys" = some (.list ks)) :
    entries data = ks := by
  simp [entries, h]

theorem keyStrings_of_list {data : Dict} {ks : List Val}
    (hget : Dict.get data "keys" = some (.list ks)) (h : ∀ k ∈ ks, (keyStr k).isSome) :
    KeyStrings data := by
  rintro ks' ⟨keys, hget', hiter⟩
  obtain rfl := Option.some.inj (hget.symm.trans hget')
  obtain rfl := Except.ok.inj hiter
  exact h

/-- Entries with keys are those of a list, or there are none. -/
theorem entries_of_iterated {data : Dict} {ks : List Val} (h : Iterated data ks)
    (hks : ∀ k ∈ ks, (keyStr k).isSome) : entries data = ks := by
  obtain ⟨keys, hget, hiter⟩ := h
  cases keys with
  | list xs =>
    rw [entries_eq hget]
    exact Except.ok.inj hiter
  | dict d =>
    obtain rfl := Except.ok.inj hiter
    rcases d with _ | ⟨⟨k, v⟩, d⟩
    · simp [entries, hget]
    · cases k <;> simp [Key.toVal, keyStr] at hks
  | str t =>
    obtain rfl := Except.ok.inj hiter
    rcases t with _ | ⟨c, t⟩
    · simp [entries, hget]
    · simp [keyStr] at hks
  | _ => cases hiter

/-- Whether an entry can count a request: exactly when it has a counter. -/
theorem countRequest_ok {k : Val} (now : Flt) (h : HasCounter k) :
    ∃ v v', k.getItem "requests" = .ok v ∧ v.addOne = .ok v' ∧
      countRequest k now = .ok (setItem (setItem k "requests" v') "last_used" (.float now)) := by
  obtain ⟨v, hv, hnum⟩ := h
  have : ∃ v', v.addOne = .ok v' := by
    cases v <;> simp_all [Val.num, Val.addOne]
  obtain ⟨v', hv'⟩ := this
  exact ⟨v, v', hv, hv', by simp [countRequest, hv, hv', bind, Except.bind, pure, Except.pure]⟩

theorem hasCounter_of_count {k v v' : Val} (hv : k.getItem "requests" = .ok v)
    (hv' : v.addOne = .ok v') : HasCounter k :=
  ⟨v, hv, by cases v <;> simp_all [Val.num, Val.addOne]⟩

theorem countRequest_error {k : Val} (now : Flt) (h : ¬HasCounter k) :
    ∃ e, countRequest k now = .error e := by
  cases hc : countRequest k now with
  | error e => exact ⟨e, rfl⟩
  | ok k' =>
    cases hv : k.getItem "requests" with
    | error e => simp [countRequest, hv, bind, Except.bind] at hc
    | ok v =>
      cases hv' : v.addOne with
      | error e => simp [countRequest, hv, hv', bind, Except.bind] at hc
      | ok v' => exact absurd (hasCounter_of_count hv hv') h

/-! ## All that the proxy can do -/

section Proxy

variable {app : App} {req : Request} {now : Flt} {ks : List Val}

theorem proxy_of_not_allowed (h : pathAllowed req.path = false) :
    proxy app req now = (app, .deny "not found" 404) := by
  simp [proxy, h]

/-- `match` is the loop over the entries. -/
theorem match_eq (hget : Iterated app.cfg.data ks) (presented : Str) :
    app.cfg.match presented = matchKey presented ks := by
  obtain ⟨keys, hget, hiter⟩ := hget
  simp [Config.match, Val.getItem, hget, hiter, bind, Except.bind]

/-- Keys that are no collection make `match` raise. -/
theorem proxy_of_not_iterated (now : Flt) (hpath : pathAllowed req.path = true)
    (h : ¬∃ ks, Iterated app.cfg.data ks) : ∃ e, proxy app req now = (app, .raised e) := by
  cases hget : Dict.get app.cfg.data "keys" with
  | none =>
    exact ⟨.keyError, by simp [proxy, hpath, Config.match, Val.getItem, hget, bind, Except.bind]⟩
  | some keys =>
    cases hiter : keys.iter with
    | ok ks => exact absurd ⟨ks, keys, hget, hiter⟩ h
    | error e =>
      exact ⟨e, by simp [proxy, hpath, Config.match, Val.getItem, hget, hiter, bind, Except.bind]⟩

/-- A comparison that raises is not caught. -/
theorem proxy_of_not_comparable (now : Flt) (hpath : pathAllowed req.path = true)
    (hget : Iterated app.cfg.data ks) (hks : ∀ k ∈ ks, (keyStr k).isSome)
    (hne : ks ≠ []) (hc : ¬Comparable ks (bearer req)) :
    ∃ e, proxy app req now = (app, .raised e) := by
  obtain ⟨e, he⟩ := matchKey_of_not_comparable hks hne hc
  exact ⟨e, by simp [proxy, hpath, match_eq hget, he]⟩

/-- A token that is no key is denied. -/
theorem proxy_of_no_match (hpath : pathAllowed req.path = true)
    (hget : Iterated app.cfg.data ks) (hks : ∀ k ∈ ks, (keyStr k).isSome)
    (hc : ks = [] ∨ Comparable ks (bearer req))
    (hfind : ks.find? (keyStr · = some (bearer req)) = none) :
    proxy app req now = (app, .deny "Incorrect API key provided." 401) := by
  have hm : matchKey (bearer req) ks = .ok none := by
    rcases hc with rfl | hc
    · rfl
    · rw [matchKey_of_comparable hks hc, List.findIdx?_eq_none_iff.2]
      exact fun k hk => by simpa using List.find?_eq_none.1 hfind k hk
  simp [proxy, hpath, match_eq hget, hm]

/-- A token that is a key is counted for its first entry, and the request is
    forwarded, if the entry has a counter. -/
theorem proxy_of_match (now : Flt) {k : Val} (hpath : pathAllowed req.path = true)
    (hget : Iterated app.cfg.data ks) (hks : ∀ k ∈ ks, (keyStr k).isSome)
    (hc : Comparable ks (bearer req)) (hfind : ks.find? (keyStr · = some (bearer req)) = some k) :
    (¬HasCounter k ∧ ∃ e, proxy app req now = (app, .raised e)) ∨
    (HasCounter k ∧ ∃ data, Counted app.cfg.data data (bearer req) now ∧
      proxy app req now = ({ app with cfg := { app.cfg with data := data }, dirty := true },
        .forward (upstreamRequest app req))) := by
  obtain ⟨hk, i, hlt, heq, hlow⟩ := List.find?_eq_some_iff_getElem.1 hfind
  have hidx : ks.findIdx? (keyStr · = some (bearer req)) = some i :=
    List.findIdx?_eq_some_iff_getElem.2 ⟨hlt, heq ▸ hk, fun j hj => by simpa using hlow j hj⟩
  have hki : (entries app.cfg.data)[i]? = some k := by
    rw [entries_of_iterated hget hks, List.getElem?_eq_getElem hlt, heq]
  have hm : app.cfg.match (bearer req) = .ok (some i) := by
    rw [match_eq hget, matchKey_of_comparable hks hc, hidx]
  by_cases hcount : HasCounter k
  · obtain ⟨v, v', hv, hv', hcr⟩ := countRequest_ok now hcount
    refine .inr ⟨hcount, _, ⟨i, k, v, v', hki, by simpa using hk, hv, hv', rfl⟩, ?_⟩
    simp [proxy, hpath, hm, List.getD_eq_getElem?_getD, hki, hcr]
  · obtain ⟨e, he⟩ := countRequest_error now hcount
    exact .inl ⟨hcount, e, by simp [proxy, hpath, hm, List.getD_eq_getElem?_getD, hki, he]⟩

/-- A request whose handler raises is not answered as it should be. -/
theorem not_admission_of_raised {e : Err} (h : proxy app req now = (app, .raised e)) :
    ¬Admission app req now := by
  intro ha
  by_cases hadm : Admitted app.cfg.data req
  · obtain ⟨_, _, hp⟩ := ha.admits hadm
    rw [h] at hp
    cases congrArg Prod.snd hp
  · obtain ⟨_, _, _, hp⟩ := ha.denies hadm
    rw [h] at hp
    cases congrArg Prod.snd hp

end Proxy

/-- With string keys, a request is admitted soundly and completely exactly when
    it is answerable. -/
theorem proxy_admission_iff (app : App) (req : Request) (now : Flt)
    (hkeys : KeyStrings app.cfg.data) :
    Admission app req now ↔ Answerable app.cfg.data req := by
  rw [Answerable]
  cases hpath : pathAllowed req.path with
  | false =>
    refine ⟨fun _ => .inl rfl, fun _ => ⟨fun h => ?_, fun _ => ?_⟩⟩
    · exact absurd (hpath.symm.trans h.1) (by simp)
    · exact ⟨_, 404, .inl rfl, proxy_of_not_allowed hpath⟩
  | true =>
    by_cases hiter : ∃ ks, Iterated app.cfg.data ks
    swap
    · obtain ⟨e, he⟩ := proxy_of_not_iterated now hpath hiter
      refine ⟨fun h => absurd h (not_admission_of_raised he), ?_⟩
      rintro (h | h)
      · cases h
      · exact absurd h.1 hiter
    obtain ⟨ks, hget⟩ := hiter
    have hks := hkeys ks hget
    have hentries := entries_of_iterated hget hks
    rw [hentries, and_iff_right ⟨ks, hget⟩]
    simp only [Bool.true_eq_false, false_or]
    by_cases hc : ks = [] ∨ Comparable ks (bearer req)
    · -- No comparison raises: the first entry with the key decides.
      cases hfind : ks.find? (keyStr · = some (bearer req)) with
      | none =>
        have hno : ¬Admitted app.cfg.data req := fun ⟨_, _, k, hk, hk'⟩ => by
          rw [hentries] at hk
          exact List.find?_eq_none.1 hfind k hk (by simpa using hk')
        refine ⟨fun _ => hc.imp_right fun hc => ⟨hc, by simp⟩, fun _ =>
          ⟨fun h => absurd h hno, fun _ => ?_⟩⟩
        exact ⟨_, 401, .inr rfl, proxy_of_no_match hpath hget hks hc hfind⟩
      | some k =>
        have hkey : keyStr k = some (bearer req) := by simpa using List.find?_some hfind
        have hmem : k ∈ ks := List.mem_of_find?_eq_some hfind
        have hne : ks ≠ [] := List.ne_nil_of_mem hmem
        have hc := hc.resolve_left hne
        have hadm : Admitted app.cfg.data req ↔ bearer req ≠ [] :=
          ⟨fun h => h.2.1, fun h => ⟨hpath, h, k, by rwa [hentries], hkey⟩⟩
        simp only [hne, hc, false_or, true_and, Option.some.injEq, forall_eq']
        rcases proxy_of_match now hpath hget hks hc hfind with
          ⟨hno, e, he⟩ | ⟨hyes, data, hcount, hp⟩
        · exact ⟨fun h => absurd h (not_admission_of_raised he), fun h => absurd h.2 hno⟩
        · refine ⟨fun h => ⟨fun hb => ?_, hyes⟩, fun h => ⟨fun _ => ⟨data, hcount, hp⟩,
            fun hno => absurd (hadm.2 h.1) hno⟩⟩
          -- The entry of the empty key admits a request without a token.
          obtain ⟨_, _, _, hp'⟩ := h.denies fun ha => hadm.1 ha hb
          rw [hp] at hp'
          cases congrArg Prod.snd hp'
    · obtain ⟨hne, hc⟩ := not_or.1 hc
      obtain ⟨e, he⟩ := proxy_of_not_comparable now hpath hget hks hne hc
      exact ⟨fun h => absurd h (not_admission_of_raised he), fun h =>
        absurd (h.resolve_left hne).1 hc⟩

/-- The application of `oneKey`, in front of a local server. -/
def oneKeyApp : App where
  cfg := oneKey
  upstream := "http://127.0.0.1:18300"
  upstreamKey := []
  dirty := false

/-- A request for the models, with the header fields given. -/
def getModels (headers : List (Str × Str)) : Request where
  method := "GET"
  path := "/v1/models"
  pathQs := "/v1/models"
  headers := headers
  body := none

/-- A request with the key of `oneKey` is admitted and counted. -/
theorem proxy_admission_oneKey :
    Admission oneKeyApp (getModels [(str "authorization", str "BEARER  sk-secret ")]) (.fin 1) :=
  (proxy_admission_iff _ _ _ (keyStrings_of_list rfl fun k hk => by
      obtain rfl := List.mem_singleton.1 hk
      rfl)).2
    (.inr ⟨⟨_, _, rfl, rfl⟩, .inr ⟨⟨by decide, fun k hk => by cases hk⟩, fun k hk => by
      obtain rfl := Option.some.inj hk
      exact ⟨by decide, .int 0, rfl, rfl⟩⟩⟩)

/-- The data of `oneKey`, its key edited to the empty string. -/
def emptyKeyData : Dict :=
  Dict.insert oneKey.data (.str "keys")
    (.list ((entries oneKey.data).map (setItem · "key" (.str []))))

/-- The application of a configuration whose only entry has the empty key. -/
def emptyKeyApp : App := { oneKeyApp with cfg := { oneKey with data := emptyKeyData } }

/-- With an empty key in the file, a request without any credential is
    forwarded; and a token that is not ASCII makes the handler raise. -/
theorem proxy_admission_fails :
    KeyStrings emptyKeyApp.cfg.data ∧ bearer (getModels []) = [] ∧
    (proxy emptyKeyApp (getModels []) (.fin 1)).2 =
      .forward (upstreamRequest emptyKeyApp (getModels [])) ∧
    ¬Admission emptyKeyApp (getModels []) (.fin 1) ∧
    KeyStrings oneKeyApp.cfg.data ∧
    (proxy oneKeyApp (getModels [(str "Authorization", str "Bearer é")]) (.fin 1)).2 =
      .raised .typeError ∧
    ¬Admission oneKeyApp (getModels [(str "Authorization", str "Bearer é")]) (.fin 1) := by
  refine ⟨keyStrings_of_list rfl fun k hk => ?_, rfl, rfl, fun h => ?_,
    keyStrings_of_list rfl fun k hk => ?_, rfl, ?_⟩
  · obtain rfl := List.mem_singleton.1 hk; rfl
  · obtain ⟨_, _, _, hp⟩ := h.denies fun ha => ha.2.1 rfl
    exact nomatch (show Reply.forward _ = _ from congrArg Prod.snd hp)
  · obtain rfl := List.mem_singleton.1 hk; rfl
  · exact not_admission_of_raised (e := .typeError) rfl

end FlashNext.Gateway
