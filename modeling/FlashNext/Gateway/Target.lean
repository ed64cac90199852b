import FlashNext.Delimited
import FlashNext.DotSegments
import FlashNext.Gateway.Proxy

/-!
# The target of the upstream request

The proxy tests its allow-list on the percent-decoded path of the client's
target, and sends the decoded path and query on, appended to the base URL of
the server. The client library parses that string again: it cuts it at the first
`#` and `?`, which may come from the decoding, quotes each segment again, and
removes the dot segments. So the path the server is asked for need not be one
that was tested.

`proxy_target_iff` says for which targets it is under `/v1/` or is `/metrics`:
those whose segments, when they have been quoted again, cancel out up to a
segment `v1` that no later `..` cancels, or up to a last segment `metrics`.
-/

namespace FlashNext.Gateway

open Python

/-- The URL library, as far as the gateway and its client depend on it. -/
structure Yarl where
  /-- `URL.path`, from the path as it stands in the request line. -/
  unquotePath : Str → Str
  /-- `URL.query_string`, from the query as it stands in the request line. -/
  unquoteQuery : Str → Str
  /-- What becomes of one segment of the path of a URL string when it is parsed. -/
  requote : Str → Str
  /-- Quoting again leaves `%2F` alone: no segment comes apart. -/
  requote_slash : ∀ s, 47 ∉ s → 47 ∉ requote s

/-- The request for a target: the path up to the first `?`, the query up to the
    first `#`, both decoded. -/
def Yarl.request (lib : Yarl) (method target : Str) (headers : List (Str × Str))
    (body : Option (List UInt8)) : Request :=
  let line := target.takeWhile (· ≠ 35)
  let path := lib.unquotePath (line.takeWhile (· ≠ 63))
  let query := lib.unquoteQuery ((line.dropWhile (· ≠ 63)).drop 1)
  { method := method
    path := path
    pathQs := if query = [] then path else path ++ 63 :: query
    headers := headers
    body := body }

/-- What follows the authority in a URL string. -/
def afterAuthority (url : Str) : Str :=
  ((url.dropWhile (· ≠ 58)).drop 3).dropWhile fun c => c ≠ 47 ∧ c ≠ 63 ∧ c ≠ 35

/-- The path in a URL string: what follows the authority, up to a `#` or `?`. -/
def urlPath (url : Str) : Str := ((afterAuthority url).takeWhile (· ≠ 35)).takeWhile (· ≠ 63)

/-- The segments of a path. -/
def segments (path : Str) : List Str := (path.drop 1).splitOn 47

/-- The path that the server is asked for, when the client library is given the
    URL string `url`. -/
def Yarl.askedPath (lib : Yarl) (url : Str) : Str :=
  47 :: [47].intercalate (DotSegments.normalize (str ".") (str "..") []
    ((segments (urlPath url)).map lib.requote))

/-- The routes that are public: those under `/v1/`, and `/metrics`. -/
def PublicRoute (path : Str) : Prop := str "/v1/" <+: path ∨ path = str "/metrics"

instance (path : Str) : Decidable (PublicRoute path) :=
  inferInstanceAs (Decidable (_ ∨ _))

/-- A base URL: a scheme, an authority, and the path `base`, which may be empty. -/
def IsBaseUrl (upstream base : Str) : Prop :=
  (base = [] ∨ ∃ b, base = 47 :: b) ∧ (∀ c ∈ base, c ≠ 35 ∧ c ≠ 63) ∧
    ∃ scheme authority, upstream = scheme ++ str "://" ++ authority ++ base ∧ 58 ∉ scheme ∧
      ∀ c ∈ authority, c ≠ 47 ∧ c ≠ 63 ∧ c ≠ 35

/-- The segments of the path of a base URL. -/
def baseSegments (base : Str) : List Str := if base = [] then [] else segments base

/-- The segments of the path `base`, and of the decoded path of a request up to a
    `#` or `?` in it, as they are quoted again. -/
def Yarl.requotedSegments (lib : Yarl) (base path : Str) : List Str :=
  (baseSegments base ++ segments (path.takeWhile fun c => c ≠ 35 ∧ c ≠ 63)).map lib.requote

/-- The segments lead to a public route: they cancel out, up to a segment `v1`
    that is not the last one and that no later `..` cancels, or up to a last
    segment `metrics`. -/
def LeadsToPublic (segs : List Str) : Prop :=
  (∃ c rest, segs = c ++ str "v1" :: rest ∧ DotSegments.Collapses (str ".") (str "..") c ∧
    DotSegments.Grounded (str ".") (str "..") rest ∧ rest ≠ []) ∨
  ∃ c, segs = c ++ [str "metrics"] ∧ DotSegments.Collapses (str ".") (str "..") c

/-! ## Joined segments -/

/-- A joined path begins with the segment `w` and a separator exactly when `w`
    is its first segment, and not its only one. -/
theorem prefix_intercalate_iff {sep : Nat} {w : Str} (hw : sep ∉ w) {segs : List Str}
    (hsegs : ∀ s ∈ segs, sep ∉ s) :
    w ++ [sep] <+: [sep].intercalate segs ↔ ∃ b r, segs = w :: b :: r := by
  cases segs with
  | nil => simp
  | cons s segs =>
    rw [List.forall_mem_cons] at hsegs
    cases segs with
    | nil =>
      rw [List.intercalate_singleton]
      refine ⟨fun h => absurd (h.subset (by simp : sep ∈ w ++ [sep])) hsegs.1, ?_⟩
      rintro ⟨b, r, h⟩
      simp at h
    | cons t segs =>
      rw [List.intercalate_cons_cons]
      simp only [List.append_assoc, List.cons_append, List.nil_append, List.cons.injEq]
      constructor
      · -- Split at the separator, the two have one first element.
        rintro ⟨z, h⟩
        have hsplit := congrArg (List.splitOn sep) h
        rw [List.append_assoc, List.cons_append, List.nil_append,
          List.splitOn_append_cons_self_of_not_mem hw,
          List.splitOn_append_cons_self_of_not_mem hsegs.1, List.cons.injEq] at hsplit
        exact ⟨t, segs, hsplit.1.symm, rfl, rfl⟩
      · rintro ⟨b, r, rfl, rfl, rfl⟩
        exact ⟨_, by rw [List.append_assoc]; rfl⟩

/-- A joined path is the segment `w` exactly when `w` is its only segment. -/
theorem intercalate_eq_iff {sep : Nat} {w : Str} (hw : sep ∉ w) (hne : w ≠ []) {segs : List Str}
    (hsegs : ∀ s ∈ segs, sep ∉ s) : [sep].intercalate segs = w ↔ segs = [w] := by
  refine ⟨fun h => ?_, fun h => by rw [h, List.intercalate_singleton]⟩
  cases segs with
  | nil => exact absurd h.symm hne
  | cons s segs =>
    rw [← List.splitOn_intercalate sep hsegs (by simp), h, List.splitOn_eq_singleton hw]

/-! ## The path that is asked for -/

/-- A normalised path is a public route exactly when its segments lead to one. -/
theorem publicRoute_iff {segs : List Str} (hsegs : ∀ s ∈ segs, 47 ∉ s) :
    PublicRoute (47 :: [47].intercalate (DotSegments.normalize (str ".") (str "..") [] segs)) ↔
      LeadsToPublic segs := by
  have hnorm : ∀ s ∈ DotSegments.normalize (str ".") (str "..") [] segs, 47 ∉ s := fun s hs =>
    (DotSegments.mem_normalize hs).elim (hsegs s) fun h => by simp [h]
  have hv1 : str "/v1/" <+: 47 :: [47].intercalate
      (DotSegments.normalize (str ".") (str "..") [] segs) ↔ _ :=
    (List.cons_prefix_cons.trans (and_iff_right rfl)).trans
      ((prefix_intercalate_iff (w := str "v1") (by decide) hnorm).trans
        (DotSegments.exists_normalize_eq_cons_cons_iff (by decide)))
  have hmetrics : 47 :: [47].intercalate (DotSegments.normalize (str ".") (str "..") [] segs) =
      str "/metrics" ↔ _ :=
    (@List.cons_inj_right _ 47 _ (str "metrics")).trans
      ((intercalate_eq_iff (by decide) (by decide) hnorm).trans
        (DotSegments.normalize_eq_singleton_iff (by decide)))
  rw [PublicRoute, hv1, hmetrics, LeadsToPublic]
  simp

/-- A forwarded request has an allowed path. -/
theorem proxy_forward {app : App} {req : Request} {now : Flt} {up : UpstreamRequest}
    (h : (proxy app req now).2 = .forward up) :
    pathAllowed req.path = true ∧ up = upstreamRequest app req := by
  unfold proxy at h
  split_ifs at h with hpath
  · refine ⟨hpath, ?_⟩
    split at h
    · cases h
    · cases h
    · split at h
      · cases h
      · exact (Reply.forward.inj h).symm

/-- An allowed path is absolute. -/
theorem pathAllowed_absolute {path : Str} (h : pathAllowed path = true) : ∃ p, path = 47 :: p := by
  rw [pathAllowed, List.any_eq_true] at h
  obtain ⟨pre, hpre, hpath⟩ := h
  obtain ⟨t, rfl⟩ := List.isPrefixOf_iff_prefix.1 hpath
  simp only [proxyPrefixes, List.mem_cons, List.not_mem_nil, or_false] at hpre
  rcases hpre with rfl | rfl
  · exact ⟨str "v1/" ++ t, rfl⟩
  · exact ⟨str "metrics" ++ t, rfl⟩

/-- The path of a URL string is cut at the first `#` or `?`. -/
theorem takeWhile_takeWhile_cut (s : Str) : (s.takeWhile (· ≠ 35)).takeWhile (· ≠ 63) =
    s.takeWhile fun c => c ≠ 35 ∧ c ≠ 63 := by
  induction s with
  | nil => rfl
  | cons c s ih =>
    by_cases h35 : c = 35
    · simp [h35]
    · by_cases h63 : c = 63
      · simp [h63]
      · simpa [h35, h63] using ih

/-- What follows the authority is the path of the base URL, and what is appended
    to it. -/
theorem afterAuthority_append {upstream base : Str} (hbase : IsBaseUrl upstream base) (r : Str) :
    afterAuthority (upstream ++ 47 :: r) = base ++ 47 :: r := by
  obtain ⟨hslash, -, scheme, authority, rfl, hs, ha⟩ := hbase
  have hscheme : (scheme ++ str "://" ++ authority ++ base ++ 47 :: r).dropWhile (· ≠ 58) =
      str "://" ++ authority ++ base ++ 47 :: r := by
    simp only [List.append_assoc]
    rw [List.dropWhile_append_of_pos]
    · rfl
    · intro c hc
      have hne : c ≠ 58 := fun h => hs (h ▸ hc)
      simpa using hne
  rw [afterAuthority, hscheme]
  change (authority ++ base ++ 47 :: r).dropWhile _ = _
  rw [List.append_assoc, List.dropWhile_append_of_pos]
  · rcases hslash with rfl | ⟨b, rfl⟩
    · rfl
    · rfl
  · intro c hc
    simpa using ha c hc

/-- The path in the URL that is sent upstream is that of the base URL and that of
    the client, cut at the first `#` or `?` that came out of the decoding. -/
theorem urlPath_append {upstream base : Str} (hbase : IsBaseUrl upstream base) {p : Str}
    (query : Str) :
    urlPath (upstream ++ (if query = [] then 47 :: p else 47 :: p ++ 63 :: query)) =
      base ++ (47 :: p).takeWhile fun c => c ≠ 35 ∧ c ≠ 63 := by
  have hcut : ∀ r : Str, (base ++ r).takeWhile (fun c => c ≠ 35 ∧ c ≠ 63) =
      base ++ r.takeWhile fun c => c ≠ 35 ∧ c ≠ 63 := by
    intro r
    refine List.takeWhile_append_of_pos fun c hc => ?_
    simpa using hbase.2.1 c hc
  rw [urlPath, takeWhile_takeWhile_cut]
  split_ifs with hq
  · rw [afterAuthority_append hbase, hcut]
  · -- The query is behind the first `?`.
    rw [List.cons_append, afterAuthority_append hbase, hcut, ← List.cons_append]
    congr 1
    induction 47 :: p with
    | nil => simp
    | cons c s ih => simp only [List.cons_append, List.takeWhile_cons, ih]

/-- The segments of a path behind that of a base URL. -/
theorem segments_append {base : Str} (hslash : base = [] ∨ ∃ b, base = 47 :: b) (p : Str) :
    segments (base ++ 47 :: p) = baseSegments base ++ segments (47 :: p) := by
  rcases hslash with rfl | ⟨b, rfl⟩
  · rfl
  · exact List.splitOn_append_cons_self b p

/-- A forwarded request asks the server for a public route exactly when the
    segments of the path of the base URL and of its decoded path, quoted again,
    lead to one. -/
theorem proxy_target_iff (lib : Yarl) (app : App) {base : Str}
    (hbase : IsBaseUrl app.upstream base) (method target : Str) (headers : List (Str × Str))
    (body : Option (List UInt8)) (now : Flt) (up : UpstreamRequest)
    (hup : (proxy app (lib.request method target headers body) now).2 = .forward up) :
    PublicRoute (lib.askedPath up.url) ↔
      LeadsToPublic (lib.requotedSegments base (lib.request method target headers body).path) := by
  obtain ⟨hpath, rfl⟩ := proxy_forward hup
  obtain ⟨p, hp⟩ := pathAllowed_absolute hpath
  -- The test was made on the path before it is cut and resolved.
  have hurl : urlPath (upstreamRequest app (lib.request method target headers body)).url =
      base ++ (lib.request method target headers body).path.takeWhile fun c => c ≠ 35 ∧ c ≠ 63 := by
    have hqs : (lib.request method target headers body).pathQs = _ := rfl
    rw [upstreamRequest, hqs]
    change urlPath (app.upstream ++ if _ = [] then (lib.request method target headers body).path
      else (lib.request method target headers body).path ++ _) = _
    rw [hp]
    exact urlPath_append hbase _
  have hsegs : segments (base ++ (lib.request method target headers body).path.takeWhile
      fun c => c ≠ 35 ∧ c ≠ 63) = baseSegments base ++ segments
        ((lib.request method target headers body).path.takeWhile fun c => c ≠ 35 ∧ c ≠ 63) := by
    rw [hp, List.takeWhile_cons_of_pos (by decide)]
    exact segments_append hbase.1 _
  rw [Yarl.askedPath, hurl, Yarl.requotedSegments, ← hsegs]
  refine publicRoute_iff fun s hs => ?_
  obtain ⟨t, ht, rfl⟩ := List.mem_map.1 hs
  exact lib.requote_slash t (Delimited.not_mem_of_mem_splitOn 47 _ t ht)

/-- The URL library on targets without percent-encoded octets, and without
    characters that have to be quoted. -/
def plainYarl : Yarl where
  unquotePath s := s
  unquoteQuery s := s
  requote s := s
  requote_slash _ h := h

/-- The header fields of a request with the key of `oneKey`. -/
def oneKeyAuth : List (Str × Str) := [(str "Authorization", str "Bearer sk-secret")]

theorem oneKeyApp_isBaseUrl : IsBaseUrl oneKeyApp.upstream [] :=
  ⟨.inl rfl, nofun, str "http", str "127.0.0.1:18300", rfl, by decide, by decide⟩

/-- A request for `/v1/models` asks the server for it. -/
theorem proxy_target_models :
    PublicRoute (plainYarl.askedPath (str "http://127.0.0.1:18300/v1/models")) :=
  (proxy_target_iff plainYarl oneKeyApp oneKeyApp_isBaseUrl (str "GET") (str "/v1/models")
    oneKeyAuth none (.fin 1) (upstreamRequest oneKeyApp
      (plainYarl.request (str "GET") (str "/v1/models") oneKeyAuth none)) rfl).2
    (.inl ⟨[], [str "models"], rfl, rfl, DotSegments.grounded_of_not_mem (by decide), by decide⟩)

/-- A request for `/v1/../tokenize` passes the allow-list and asks the server
    for `/tokenize`. -/
theorem proxy_target_fails :
    ∃ up, (proxy oneKeyApp (plainYarl.request (str "POST") (str "/v1/../tokenize") oneKeyAuth none)
        (.fin 1)).2 = .forward up ∧
      plainYarl.askedPath up.url = str "/tokenize" ∧
      ¬PublicRoute (plainYarl.askedPath up.url) :=
  ⟨_, rfl, by decide, by decide⟩

end FlashNext.Gateway
