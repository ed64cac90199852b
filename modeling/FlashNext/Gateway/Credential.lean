import FlashNext.Gateway.Target

/-!
# The client's credential

The proxy finds the bearer token under any spelling of `Authorization`, and is
meant to take it out of the request before it sends that upstream, with the
upstream's own key in its place: which valid key the client presents should not
be seen there (`Terminated`).

The header fields are collected in an ordinary dict under the names as the
client spelled them (`fieldDict`), and the proxy removes two names from it,
`Host` and `Authorization`, spelled so. `credential_ends_iff` says that these
spellings are the ones for which the credential ends at the gateway.
-/

namespace FlashNext.Gateway

open Python

/-! ## Header fields in a dict -/

/-- The dict of header fields: one item for each spelling of a name, at the place
    of its first field, with the value of its last one. -/
def fieldDict (headers : List (Str × Str)) : List (Str × Str) :=
  headers.foldl (fun hs h => setHeader hs h.1 h.2) []

theorem mem_setHeader {hs : List (Str × Str)} {name value : Str} {h : Str × Str}
    (hmem : h ∈ setHeader hs name value) : h = (name, value) ∨ h ∈ hs := by
  induction hs with
  | nil => exact .inl (List.mem_singleton.1 hmem)
  | cons g hs ih =>
    rw [setHeader] at hmem
    split_ifs at hmem
    · exact (List.mem_cons.1 hmem).imp_right (List.mem_cons_of_mem _)
    · rcases List.mem_cons.1 hmem with rfl | hmem
      · exact .inr List.mem_cons_self
      · exact (ih hmem).imp_right (List.mem_cons_of_mem _)

/-- Setting a field keeps the names, and adds its own. -/
theorem mem_names_setHeader (hs : List (Str × Str)) (name value n : Str) :
    n ∈ (setHeader hs name value).map (·.1) ↔ n = name ∨ n ∈ hs.map (·.1) := by
  induction hs with
  | nil => simp [setHeader]
  | cons h hs ih =>
    rw [setHeader]
    split_ifs with hname
    · subst hname
      simp
    · rw [List.map_cons, List.mem_cons, ih, List.map_cons, List.mem_cons]
      exact or_left_comm

/-- Names can be taken out before a field is set, or after. -/
theorem filter_setHeader (keep : Str → Bool) (hs : List (Str × Str)) (name value : Str) :
    (setHeader hs name value).filter (keep ·.1) =
      if keep name then setHeader (hs.filter (keep ·.1)) name value
      else hs.filter (keep ·.1) := by
  induction hs with
  | nil => by_cases hk : keep name <;> simp [setHeader, hk]
  | cons h hs ih =>
    by_cases hname : h.1 = name
    · subst hname
      by_cases hk : keep h.1 <;> simp [setHeader, hk]
    · by_cases hk : keep h.1
      · simp only [setHeader, if_neg hname, List.filter_cons, if_pos hk, ih]
        split_ifs <;> rfl
      · simp only [setHeader, if_neg hname, List.filter_cons, if_neg hk, ih]

@[simp] theorem fieldDict_append_singleton (headers : List (Str × Str)) (h : Str × Str) :
    fieldDict (headers ++ [h]) = setHeader (fieldDict headers) h.1 h.2 := by
  simp [fieldDict]

/-- Names can be taken out before the dict is built, or after. -/
theorem filter_fieldDict (keep : Str → Bool) (headers : List (Str × Str)) :
    (fieldDict headers).filter (keep ·.1) = fieldDict (headers.filter (keep ·.1)) := by
  induction headers using List.reverseRecOn with
  | nil => rfl
  | append_singleton headers h ih =>
    rw [fieldDict_append_singleton, filter_setHeader, ih, List.filter_append]
    by_cases hk : keep h.1 <;> simp [hk]

/-- The dict has the names of the fields. -/
theorem mem_names_fieldDict (headers : List (Str × Str)) (n : Str) :
    n ∈ (fieldDict headers).map (·.1) ↔ n ∈ headers.map (·.1) := by
  induction headers using List.reverseRecOn with
  | nil => rfl
  | append_singleton headers h ih =>
    rw [fieldDict_append_singleton, mem_names_setHeader, ih, List.map_append, List.mem_append]
    simp [or_comm]

/-! ## The fields that are sent upstream -/

/-- The names of the client's fields that are relayed, as they are spelled. -/
def relayedName (name : Str) : Bool :=
  lower name ∉ hopByHop ∧ name ≠ str "Host" ∧ name ≠ str "Authorization"

/-- The header fields of the upstream request are the relayed ones, and the
    upstream's own key. -/
theorem upstreamHeaders_eq (upstreamKey : Str) (headers : List (Str × Str)) :
    upstreamHeaders upstreamKey headers =
      if upstreamKey ≠ [] then
        setHeader (fieldDict (headers.filter (relayedName ·.1))) "Authorization"
          (str "Bearer " ++ upstreamKey)
      else fieldDict (headers.filter (relayedName ·.1)) := by
  have hrelayed : ((fieldDict (headers.filter fun h => lower h.1 ∉ hopByHop)).filter
      (·.1 ≠ str "Host")).filter (·.1 ≠ str "Authorization") =
        fieldDict (headers.filter (relayedName ·.1)) := by
    rw [filter_fieldDict fun n => n ≠ str "Host", filter_fieldDict fun n => n ≠ str "Authorization",
      List.filter_filter, List.filter_filter]
    congr 2
    funext h
    simp [relayedName, Bool.and_comm]
  rw [← hrelayed]
  rfl

/-- A name in the upstream request: that of the upstream's key, or a relayed one. -/
theorem mem_names_upstreamHeaders (upstreamKey : Str) (headers : List (Str × Str)) (n : Str) :
    n ∈ (upstreamHeaders upstreamKey headers).map (·.1) ↔
      upstreamKey ≠ [] ∧ n = str "Authorization" ∨
        relayedName n ∧ n ∈ headers.map (·.1) := by
  have hfilter : n ∈ (headers.filter (relayedName ·.1)).map (·.1) ↔
      relayedName n ∧ n ∈ headers.map (·.1) := by
    simp only [List.mem_map, List.mem_filter]
    constructor
    · rintro ⟨h, ⟨hh, hr⟩, rfl⟩
      exact ⟨hr, h, hh, rfl⟩
    · rintro ⟨hr, h, hh, rfl⟩
      exact ⟨h, ⟨hh, hr⟩, rfl⟩
  rw [upstreamHeaders_eq]
  split_ifs with hkey
  · rw [mem_names_setHeader, mem_names_fieldDict, hfilter]
    simp [hkey]
  · rw [mem_names_fieldDict, hfilter]
    simp [hkey]

/-- A field in the upstream request: the upstream's key, or one with a relayed name. -/
theorem mem_upstreamHeaders {upstreamKey : Str} {headers : List (Str × Str)} {h : Str × Str}
    (hmem : h ∈ upstreamHeaders upstreamKey headers) :
    upstreamKey ≠ [] ∧ h = (str "Authorization", str "Bearer " ++ upstreamKey) ∨
      relayedName h.1 ∧ h.1 ∈ headers.map (·.1) := by
  rw [upstreamHeaders_eq] at hmem
  have hrel : ∀ g ∈ fieldDict (headers.filter (relayedName ·.1)),
      relayedName g.1 ∧ g.1 ∈ headers.map (·.1) := by
    intro g hg
    have hn := (mem_names_fieldDict _ _).1 (List.mem_map_of_mem hg)
    obtain ⟨f, hf, hfn⟩ := List.mem_map.1 hn
    obtain ⟨hf, hr⟩ := List.mem_filter.1 hf
    exact hfn ▸ ⟨hr, List.mem_map_of_mem hf⟩
  split_ifs at hmem with hkey
  · exact (mem_setHeader hmem).imp (fun h => ⟨hkey, h⟩) (hrel h)
  · exact .inr (hrel h hmem)

/-! ## The credential -/

/-- The requests are the same but for the credentials, and the spelling of the
    name `Authorization`. -/
structure SameButCredential (req req' : Request) : Prop where
  method : req.method = req'.method
  path : req.path = req'.path
  pathQs : req.pathQs = req'.pathQs
  body : req.body = req'.body
  headers : List.Forall₂ (fun h h' => lower h.1 = lower h'.1 ∧
    (lower h.1 ≠ str "authorization" → h = h')) req.headers req'.headers

/-- The credentials of two requests do not go on to the upstream server: it is
    sent the same request for both, whose only `Authorization` field is the one
    with its own key, if it has one, and without a `Host` field of the client. -/
structure Terminated (upstreamKey : Str) (up up' : UpstreamRequest) : Prop where
  same : up = up'
  credential : ∀ h ∈ up.headers, lower h.1 = str "authorization" →
    upstreamKey ≠ [] ∧ h = (str "Authorization", str "Bearer " ++ upstreamKey)
  host : ∀ h ∈ up.headers, lower h.1 ≠ str "host"

/-- The fields with the credential and the host are spelled `Authorization` and
    `Host`. -/
def CanonicalNames (headers : List (Str × Str)) : Prop :=
  ∀ h ∈ headers, (lower h.1 = str "authorization" → h.1 = str "Authorization") ∧
    (lower h.1 = str "host" → h.1 = str "Host")

instance (headers : List (Str × Str)) : Decidable (CanonicalNames headers) :=
  inferInstanceAs (Decidable (∀ h ∈ headers, _))

/-- Without the relayed fields of other spellings, two requests that differ in
    their credentials relay the same fields. -/
theorem filter_relayed_eq {headers headers' : List (Str × Str)}
    (h : List.Forall₂ (fun h h' => lower h.1 = lower h'.1 ∧
      (lower h.1 ≠ str "authorization" → h = h')) headers headers')
    (hc : CanonicalNames headers) (hc' : CanonicalNames headers') :
    headers.filter (relayedName ·.1) = headers'.filter (relayedName ·.1) := by
  induction h with
  | nil => rfl
  | @cons g g' gs gs' hg _ ih =>
    obtain ⟨hg1, hgs⟩ := List.forall_mem_cons.1 hc
    obtain ⟨hg1', hgs'⟩ := List.forall_mem_cons.1 hc'
    by_cases hauth : lower g.1 = str "authorization"
    · -- Both are credentials, and left out.
      have hd : ¬relayedName g.1 := by simp [relayedName, hg1.1 hauth]
      have hd' : ¬relayedName g'.1 := by simp [relayedName, hg1'.1 (hg.1 ▸ hauth)]
      simp only [List.filter_cons, if_neg hd, if_neg hd', ih hgs hgs']
    · obtain rfl := hg.2 hauth
      simp only [List.filter_cons, ih hgs hgs']

/-- A field under another spelling of a name is relayed. -/
theorem relayedName_of_lower (name : Str) {n : Str} (hl : lower n = lower name)
    (hhop : lower name ∉ hopByHop) (hh : n ≠ str "Host") (ha : n ≠ str "Authorization") :
    relayedName n = true := by
  simp [relayedName, hl, hhop, hh, ha]

/-- What the upstream server is sent tells how the names were spelled. -/
theorem canonicalNames_of_upstreamHeaders {upstreamKey : Str} {headers : List (Str × Str)}
    (hcred : ∀ h ∈ upstreamHeaders upstreamKey headers, lower h.1 = str "authorization" →
      h.1 = str "Authorization")
    (hhost : ∀ h ∈ upstreamHeaders upstreamKey headers, lower h.1 ≠ str "host") :
    CanonicalNames headers := by
  -- A relayed name is found upstream.
  have hfound : ∀ h ∈ headers, relayedName h.1 = true →
      ∃ g ∈ upstreamHeaders upstreamKey headers, g.1 = h.1 := by
    intro h hh hr
    exact List.mem_map.1
      ((mem_names_upstreamHeaders _ _ _).2 (.inr ⟨hr, List.mem_map_of_mem hh⟩))
  intro h hh
  constructor
  · intro hl
    by_contra hne
    have hr := relayedName_of_lower (str "Authorization") hl (by decide)
      (fun he => by rw [he] at hl; exact absurd hl (by decide)) hne
    obtain ⟨g, hg, hgn⟩ := hfound h hh hr
    exact hne (hgn ▸ hcred g hg (by rw [hgn, hl]))
  · intro hl
    by_contra hne
    have hr := relayedName_of_lower (str "Host") hl (by decide) hne
      (fun he => by rw [he] at hl; exact absurd hl (by decide))
    obtain ⟨g, hg, hgn⟩ := hfound h hh hr
    exact hhost g hg (by rw [hgn, hl])

/-- The credentials of two forwarded requests end at the gateway exactly when
    both spell the names of the credential and of the host as the proxy does. -/
theorem credential_ends_iff (app : App) {req req' : Request} (hreq : SameButCredential req req')
    (now now' : Flt) {up up' : UpstreamRequest} (hup : (proxy app req now).2 = .forward up)
    (hup' : (proxy app req' now').2 = .forward up') :
    Terminated app.upstreamKey up up' ↔
      CanonicalNames req.headers ∧ CanonicalNames req'.headers := by
  obtain ⟨_, rfl⟩ := proxy_forward hup
  obtain ⟨_, rfl⟩ := proxy_forward hup'
  constructor
  · intro h
    have hheaders : upstreamHeaders app.upstreamKey req.headers =
        upstreamHeaders app.upstreamKey req'.headers := congrArg UpstreamRequest.headers h.same
    have hname : ∀ g ∈ upstreamHeaders app.upstreamKey req.headers,
        lower g.1 = str "authorization" → g.1 = str "Authorization" := fun g hg hl => by
      rw [(h.credential g hg hl).2]
    exact ⟨canonicalNames_of_upstreamHeaders hname h.host,
      canonicalNames_of_upstreamHeaders (hheaders ▸ hname) (hheaders ▸ h.host)⟩
  · rintro ⟨hc, hc'⟩
    -- What is sent is the key of the gateway and the relayed fields.
    refine ⟨?_, fun g hg hl => ?_, fun g hg hl => ?_⟩
    · simp only [upstreamRequest, upstreamHeaders_eq, filter_relayed_eq hreq.headers hc hc',
        hreq.method, hreq.pathQs, hreq.body]
    · rcases mem_upstreamHeaders hg with hkey | ⟨hr, hn⟩
      · exact hkey
      · -- A relayed name is not the one that is left out.
        obtain ⟨f, hf, hfn⟩ := List.mem_map.1 hn
        have := (hc f hf).1 (by rw [hfn, hl])
        simp [relayedName, ← hfn, this] at hr
    · rcases mem_upstreamHeaders hg with ⟨_, rfl⟩ | ⟨hr, hn⟩
      · have hne : lower (str "Authorization") ≠ str "host" := by decide
        exact hne hl
      · obtain ⟨f, hf, hfn⟩ := List.mem_map.1 hn
        have := (hc f hf).2 (by rw [hfn, hl])
        simp [relayedName, ← hfn, this] at hr

/-- The data of `oneKey`, with a second key. -/
def twoKeyData : Dict :=
  Dict.insert oneKey.data (.str "keys")
    (.list [newKey ⟨[], str "a1", str "secret", .fin 0⟩ "default",
      newKey ⟨[], str "b2", str "other", .fin 0⟩ "laptop"])

/-- An application with two keys, in front of a server with a key of its own. -/
def twoKeyApp : App where
  cfg := { oneKey with data := twoKeyData }
  upstream := "http://127.0.0.1:18300"
  upstreamKey := "inner"
  dirty := false

/-- A request for the models with the key `key`, in a field of the name `name`. -/
def withKey (name key : Str) : Request :=
  getModels [(str "Host", str "spark:8080"), (name, str "Bearer " ++ key),
    (str "Accept", str "*/*")]

theorem withKey_same (name key key' : Str) (hname : lower name = str "authorization") :
    SameButCredential (withKey name key) (withKey name key') :=
  ⟨rfl, rfl, rfl, rfl, .cons ⟨rfl, fun _ => rfl⟩
    (.cons ⟨rfl, fun h => absurd hname h⟩ (.cons ⟨rfl, fun _ => rfl⟩ .nil))⟩

/-- Two requests with the name `Authorization` do not show their keys. -/
theorem credential_ends_canonical :
    Terminated (str "inner")
      (upstreamRequest twoKeyApp (withKey "Authorization" "sk-secret"))
      (upstreamRequest twoKeyApp (withKey "Authorization" "sk-other")) :=
  (credential_ends_iff twoKeyApp (withKey_same "Authorization" "sk-secret" "sk-other" rfl)
    (.fin 1) (.fin 2) rfl rfl).2 ⟨by decide, by decide⟩

/-- The same, in front of a server without a key. -/
def keylessApp : App := { twoKeyApp with upstreamKey := [] }

/-- Under the name `authorization` the client's key is sent to the server. -/
theorem credential_ends_fails :
    SameButCredential (withKey "authorization" "sk-secret") (withKey "authorization" "sk-other") ∧
    (∃ up up', (proxy keylessApp (withKey "authorization" "sk-secret") (.fin 1)).2 = .forward up ∧
      (proxy keylessApp (withKey "authorization" "sk-other") (.fin 2)).2 = .forward up' ∧
      (str "authorization", str "Bearer sk-secret") ∈ up.headers ∧
      (str "authorization", str "Bearer sk-other") ∈ up'.headers ∧
      ¬Terminated [] up up') := by
  refine ⟨withKey_same _ _ _ rfl, _, _, rfl, rfl, by decide, by decide, fun h => ?_⟩
  exact (h.credential (str "authorization", str "Bearer sk-secret") (by decide) rfl).1 rfl

end FlashNext.Gateway
