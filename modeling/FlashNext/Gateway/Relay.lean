import FlashNext.PercentDecoding
import FlashNext.Gateway.Credential

/-!
# The relay

What `proxy` passes on: of the request its target and its header fields, of the
response its status, header fields and body. It is meant to be verbatim
(`Faithful`): the server is asked for segments and pairs that stand for the same
octets, and both sides get every end-to-end field of the other, with its
repetitions, and the entity in the coding that it is said to have.

The target is decoded and parsed again, where some characters are dropped, the
fields go through a dict, and the client library takes the content coding off a
body but not off its fields.
`relay_faithful_iff` says which exchanges survive this (`Relayable`).
-/

namespace FlashNext.Gateway

open Python Delimited PercentDecoding

/-! ## The two parties -/

/-- A character that is not dropped when a URL string is parsed: no tab, line feed,
    carriage return or lone surrogate. -/
def keptChar (c : Nat) : Bool := c ≠ 9 ∧ c ≠ 10 ∧ c ≠ 13 ∧ ¬(0xD800 ≤ c ∧ c ≤ 0xDFFF)

/-- None of the characters is dropped. -/
def NoneDropped (s : Str) : Prop := ∀ c ∈ s, keptChar c = true

instance (s : Str) : Decidable (NoneDropped s) := List.decidableBAll _ s

/-- The URL library, where it decodes and quotes percent-encoded octets: what it has
    decoded stands for no more when it is decoded again, and quoting changes nothing
    but drops characters. -/
structure PercentYarl extends Yarl where
  /-- What becomes of the query of a URL string when it is parsed. -/
  requoteQuery : Str → Str
  unquotePath_slash : Distributes 47 unquotePath
  unquotePath_nil : unquotePath [] = []
  unquotePath_octets : ∀ s, (octets (unquotePath s)).length ≤ (octets s).length
  requote_keep : ∀ s, NoneDropped s → octets (requote s) = octets s
  requote_drop : ∀ s, ¬NoneDropped s → (octets (requote s)).length < (octets s).length
  unquoteQuery_decoding : Decoding 38 61 formOctets unquoteQuery
  requoteQuery_quoting : Quoting 38 61 formOctets NoneDropped requoteQuery

/-- The segments of a path, decoded. -/
def pathSegments (path : Str) : List (List Nat) := (segments path).map octets

/-- The name/value pairs of a query, decoded. -/
def queryPairs (query : Str) : List (List Nat × List Nat) :=
  (pairs 38 61 query).map (Prod.map formOctets formOctets)

/-- The path in a request line. -/
def targetPath (target : Str) : Str := (target.takeWhile (· ≠ 35)).takeWhile (· ≠ 63)

/-- The query in a request line. -/
def targetQuery (target : Str) : Str := ((target.takeWhile (· ≠ 35)).dropWhile (· ≠ 63)).drop 1

/-- The query in a URL string. -/
def urlQuery (url : Str) : Str := targetQuery (afterAuthority url)

/-- The query that the server is asked with, when the client library is given the
    URL string `url`. -/
def PercentYarl.askedQuery (lib : PercentYarl) (url : Str) : Str := lib.requoteQuery (urlQuery url)

/-- A response: that of the upstream server, or the one the client receives. -/
structure Response where
  status : Nat
  headers : List (Str × Str)
  body : List UInt8

/-- The content codings, and those among them that the client library takes off
    the body of a response. -/
structure Codings where
  decode : Str → List UInt8 → Option (List UInt8)
  automatic : Str → Bool

/-- The entity in a response, by its `Content-Encoding`. -/
def Codings.entity (codings : Codings) (resp : Response) : Option (List UInt8) :=
  match getHeader resp.headers "Content-Encoding" with
  | some coding => codings.decode coding resp.body
  | none => some resp.body

/-- The content that the client library hands over. -/
def Codings.content (codings : Codings) (resp : Response) : Option (List UInt8) :=
  match getHeader resp.headers "Content-Encoding" with
  | some coding => if codings.automatic coding then codings.decode coding resp.body
      else some resp.body
  | none => some resp.body

/-- The second half of `proxy`: the response to the client, with the chunks of the
    content in the order they come. -/
def relay (up : Response) (chunks : List (List UInt8)) : Response where
  status := up.status
  headers := fieldDict (up.headers.filter fun h => lower h.1 ∉ hopByHop)
  body := chunks.foldl (· ++ ·) []

/-! ## Fidelity -/

/-- The end-to-end fields of a response. -/
def endToEnd (name : Str) : Bool := lower name ∉ hopByHop

/-- The end-to-end fields of a request, without the credential and the host, which
    the gateway sets. -/
def requestField (name : Str) : Bool :=
  endToEnd name ∧ lower name ≠ str "authorization" ∧ lower name ≠ str "host"

/-- The server at the base path `base` is asked for the segments and pairs of the
    client's target, with its end-to-end fields. -/
structure FaithfulRequest (lib : PercentYarl) (base target : Str) (headers : List (Str × Str))
    (up : UpstreamRequest) : Prop where
  path : pathSegments (lib.askedPath up.url) =
    (baseSegments base).map octets ++ pathSegments (targetPath target)
  query : queryPairs (lib.askedQuery up.url) = queryPairs (targetQuery target)
  fields : up.headers.filter (requestField ·.1) = headers.filter (requestField ·.1)

/-- The client receives the status, the end-to-end fields and the entity. -/
structure FaithfulResponse (codings : Codings) (up out : Response) : Prop where
  status : out.status = up.status
  fields : out.headers = up.headers.filter (endToEnd ·.1)
  entity : codings.entity out = codings.entity up

/-- The names of the fields are all different. -/
def DistinctNames (headers : List (Str × Str)) : Prop := (headers.map (·.1)).Nodup

instance (headers : List (Str × Str)) : Decidable (DistinctNames headers) :=
  inferInstanceAs (Decidable (List.Nodup _))

/-- A segment that survives: as the gateway decodes it, it has no delimiter and no
    character that is dropped, and stands for the same when it is decoded again. -/
def StableSegment (lib : PercentYarl) (s : Str) : Prop :=
  (47 ∉ lib.unquotePath s ∧ 35 ∉ lib.unquotePath s ∧ 63 ∉ lib.unquotePath s) ∧
    NoneDropped (lib.unquotePath s) ∧ octets (lib.unquotePath s) = octets s

instance (lib : PercentYarl) (s : Str) : Decidable (StableSegment lib s) :=
  inferInstanceAs (Decidable ((_ ∧ _ ∧ _) ∧ _ ∧ _))

/-- The requests that survive the relay: their segments and the components of their
    queries do, no character of the base path is dropped, no segment is a dot segment
    when it is quoted, and no end-to-end field is repeated in one spelling. -/
structure RelayableRequest (lib : PercentYarl) (base target : Str)
    (headers : List (Str × Str)) : Prop where
  segments : ∀ s ∈ segments (targetPath target), StableSegment lib s
  kept : ∀ s ∈ baseSegments base, NoneDropped s
  noDots : ∀ s ∈ baseSegments base ++ (Gateway.segments (targetPath target)).map lib.unquotePath,
    lib.requote s ≠ str "." ∧ lib.requote s ≠ str ".."
  pairs : ∀ p ∈ pairs 38 61 (targetQuery target),
    Stable 38 61 35 formOctets lib.unquoteQuery NoneDropped p
  names : DistinctNames (headers.filter (requestField ·.1))

/-- The responses that survive it: no end-to-end field is repeated in one spelling,
    and a coding that the client library takes off can be taken off again, with no
    effect. -/
structure RelayableResponse (codings : Codings) (up : Response) : Prop where
  names : DistinctNames (up.headers.filter (endToEnd ·.1))
  coding : ∀ coding, getHeader up.headers "Content-Encoding" = some coding →
    codings.automatic coding = true → ∀ entity, codings.decode coding up.body = some entity →
      codings.decode coding entity = some entity

/-! ## Header fields -/

theorem setHeader_of_not_mem {hs : List (Str × Str)} {name : Str} (value : Str)
    (h : name ∉ hs.map (·.1)) : setHeader hs name value = hs ++ [(name, value)] := by
  induction hs with
  | nil => rfl
  | cons g hs ih =>
    obtain ⟨hg, hhs⟩ := not_or.1 (mt List.mem_cons.2 (List.map_cons ▸ h))
    rw [setHeader, if_neg (Ne.symm hg), ih hhs, List.cons_append]

theorem nodup_setHeader {hs : List (Str × Str)} (name value : Str) (h : DistinctNames hs) :
    DistinctNames (setHeader hs name value) := by
  induction hs with
  | nil => exact List.nodup_cons.2 ⟨List.not_mem_nil, List.nodup_nil⟩
  | cons g hs ih =>
    obtain ⟨hg, hhs⟩ := List.nodup_cons.1 h
    rw [setHeader]
    split_ifs with hname
    · exact List.nodup_cons.2 ⟨hname ▸ hg, hhs⟩
    · refine List.nodup_cons.2 ⟨fun hmem => ?_, ih hhs⟩
      rcases (mem_names_setHeader hs name value g.1).1 hmem with he | hmem
      · exact hname he
      · exact hg hmem

theorem distinctNames_fieldDict (headers : List (Str × Str)) :
    DistinctNames (fieldDict headers) := by
  induction headers using List.reverseRecOn with
  | nil => exact List.nodup_nil
  | append_singleton headers h ih =>
    rw [fieldDict_append_singleton]
    exact nodup_setHeader _ _ ih

/-- A dict keeps the fields exactly when their names are different. -/
theorem fieldDict_eq_iff (headers : List (Str × Str)) :
    fieldDict headers = headers ↔ DistinctNames headers := by
  refine ⟨fun h => h ▸ distinctNames_fieldDict headers, fun h => ?_⟩
  induction headers using List.reverseRecOn with
  | nil => rfl
  | append_singleton headers g ih =>
    rw [DistinctNames, List.map_append, List.map_singleton, List.nodup_append] at h
    rw [fieldDict_append_singleton, ih h.1, setHeader_of_not_mem]
    exact fun hmem => h.2.2 _ hmem _ (List.mem_singleton_self _) rfl

/-- The end-to-end fields that the server is sent. -/
theorem filter_upstreamHeaders (upstreamKey : Str) (headers : List (Str × Str)) :
    (upstreamHeaders upstreamKey headers).filter (requestField ·.1) =
      fieldDict (headers.filter (requestField ·.1)) := by
  have hname : requestField (str "Authorization") = false := by decide
  have hkeep : (headers.filter (relayedName ·.1)).filter (requestField ·.1) =
      headers.filter (requestField ·.1) := by
    rw [List.filter_filter]
    refine List.filter_congr fun h _ => ?_
    by_cases hr : requestField h.1
    · -- A field under neither name in any spelling is not taken out.
      have hparts := hr
      simp only [requestField, endToEnd, decide_eq_true_eq] at hparts
      have hrelayed : relayedName h.1 = true := by
        simp only [relayedName, decide_eq_true_eq]
        refine ⟨hparts.1, fun he => hparts.2.2 ?_, fun he => hparts.2.1 ?_⟩
        · rw [he]; decide
        · rw [he]; decide
      rw [hr, hrelayed]
      rfl
    · simp [hr]
  rw [upstreamHeaders_eq]
  split_ifs
  · rw [filter_setHeader, hname, if_neg (by simp), filter_fieldDict, hkeep]
  · rw [filter_fieldDict, hkeep]

/-! ## The target -/

/-- The part of a decoded path that is parsed as one. -/
def cutPath (path : Str) : Str := path.takeWhile fun c => c ≠ 35 ∧ c ≠ 63

theorem cutPath_eq_self {path : Str} : cutPath path = path ↔ 35 ∉ path ∧ 63 ∉ path := by
  rw [cutPath, List.takeWhile_eq_self_iff]
  constructor
  · intro h
    exact ⟨fun hm => by simpa using h _ hm, fun hm => by simpa using h _ hm⟩
  · rintro ⟨h35, h63⟩ c hc
    have hne : c ≠ 35 ∧ c ≠ 63 := ⟨fun he => h35 (he ▸ hc), fun he => h63 (he ▸ hc)⟩
    simpa using hne

/-- What is cut off stands for something. -/
theorem length_cutPath (path : Str) :
    cutPath path = path ∨ (octets (cutPath path)).length < (octets path).length := by
  have hpath : cutPath path ++ path.dropWhile (fun c => c ≠ 35 ∧ c ≠ 63) = path :=
    List.takeWhile_append_dropWhile
  cases hrest : path.dropWhile (fun c => c ≠ 35 ∧ c ≠ 63) with
  | nil =>
    rw [hrest, List.append_nil] at hpath
    exact .inl hpath
  | cons c rest =>
    have hc : c = 35 ∨ c = 63 := by
      have := List.head_dropWhile_not (fun c => decide (c ≠ 35 ∧ c ≠ 63)) (l := path)
        (by rw [hrest]; exact List.cons_ne_nil _ _)
      simp only [hrest, List.head_cons, decide_eq_false_iff_not] at this
      tauto
    have hmem : c ∈ [35, 38, 47, 61, 63] := by rcases hc with rfl | rfl <;> decide
    rw [hrest] at hpath
    have hlength := (octets_distributes hmem).length (cutPath path) rest
    rw [hpath] at hlength
    exact .inr (by omega)

/-- The removal of dot segments shortens the decoded path. -/
theorem span_normalize_lt {ss : List Str} (h : ∃ s ∈ ss, s = str "." ∨ s = str "..") :
    span ((DotSegments.normalize (str ".") (str "..") [] ss).map octets) <
      span (ss.map octets) := by
  have hspan : ∀ ts : List Str, span (ts.map octets) =
      (ts.map fun s => (octets s).length + 1).sum := fun ts => by
    rw [span, List.map_map]
    rfl
  rw [hspan, hspan]
  exact DotSegments.sum_normalize_lt (fun _ => Nat.succ_pos _) (by decide) (by decide) h

namespace PercentYarl

variable (lib : PercentYarl)

theorem unquotePath_cons_slash (t : Str) : lib.unquotePath (47 :: t) = 47 :: lib.unquotePath t := by
  have h := lib.unquotePath_slash [] t
  rwa [lib.unquotePath_nil] at h

theorem length_requote_le (s : Str) : (octets (lib.requote s)).length ≤ (octets s).length := by
  by_cases h : NoneDropped s
  · rw [lib.requote_keep s h]
  · exact (lib.requote_drop s h).le

/-- Quoting the segments again shortens what they stand for, unless all of them are kept. -/
theorem span_requote (ss : List Str) :
    span ((ss.map lib.requote).map octets) ≤ span (ss.map octets) ∧
      (span (ss.map octets) ≤ span ((ss.map lib.requote).map octets) →
        ∀ s ∈ ss, NoneDropped s) := by
  have hle : ∀ s ∈ ss, (octets (lib.requote s)).length + 1 ≤ (octets s).length + 1 :=
    fun s _ => Nat.succ_le_succ (lib.length_requote_le s)
  have hspan : ∀ f : Str → List Nat, span (ss.map f) = (ss.map fun s => (f s).length + 1).sum := by
    intro f
    rw [span, List.map_map]
    rfl
  rw [List.map_map, hspan, hspan]
  refine ⟨List.sum_le_sum hle, fun hsum s hs => ?_⟩
  by_contra hnot
  have := le_of_sum_le hle hsum s hs
  have := lib.requote_drop s hnot
  simp only [Function.comp_apply] at *
  omega

/-- What the segments stand for that the server is asked for is that of the client's, behind
    those of the base, exactly when nothing in the decoded path is taken for a delimiter,
    dropped or decoded twice, and no segment is removed. -/
theorem map_normalize_eq_iff (bs : List Str) (t : Str) :
    (DotSegments.normalize (str ".") (str "..") [] ((bs ++
        (cutPath (lib.unquotePath t)).splitOn 47).map lib.requote)).map octets =
        bs.map octets ++ (t.splitOn 47).map octets ↔
      (∀ s ∈ t.splitOn 47, StableSegment lib s) ∧ (∀ s ∈ bs, NoneDropped s) ∧
      ∀ s ∈ bs ++ (t.splitOn 47).map lib.unquotePath,
        lib.requote s ≠ str "." ∧ lib.requote s ≠ str ".." := by
  have hslash : Distributes 47 octets := octets_distributes (by decide)
  have hkeep : ∀ {ss : List Str}, (∀ s ∈ ss, NoneDropped s) →
      (ss.map lib.requote).map octets = ss.map octets := by
    intro ss hss
    rw [List.map_map]
    exact List.map_congr_left fun s hs => lib.requote_keep s (hss s hs)
  constructor
  · intro h
    -- Cutting, decoding, dropping and removing dot segments all shorten: none takes place.
    have hdecoded := lib.unquotePath_octets t
    have hcut := length_cutPath (lib.unquotePath t)
    have hspan := span_map_splitOn hslash t
    have hspan' := span_map_splitOn hslash (cutPath (lib.unquotePath t))
    obtain ⟨hle, hkept⟩ := lib.span_requote (bs ++ (cutPath (lib.unquotePath t)).splitOn 47)
    rw [List.map_append (f := octets), span_append, hspan'] at hle hkept
    have hnames : ∀ s ∈ (bs ++ (cutPath (lib.unquotePath t)).splitOn 47).map lib.requote,
        s ≠ str "." ∧ s ≠ str ".." := by
      by_contra hdot
      push Not at hdot
      obtain ⟨s, hs, hdot⟩ := hdot
      have hlt := span_normalize_lt ⟨s, hs, or_iff_not_imp_left.2 hdot⟩
      rw [h, span_append, hspan] at hlt
      rcases hcut with hcut | hcut
      · rw [hcut] at hlt hle
        omega
      · omega
    rw [DotSegments.normalize_of_names _ hnames] at h
    have hself : cutPath (lib.unquotePath t) = lib.unquotePath t := by
      refine hcut.resolve_right fun hlt => ?_
      rw [h, span_append, hspan] at hle
      omega
    rw [hself] at h hkept hnames
    have hall := hkept (by rw [h, span_append, hspan]; omega)
    rw [hkeep hall, List.map_append, List.append_cancel_left_eq] at h
    have hfree := (length_splitOn_map lib.unquotePath_slash t).2
      (by simpa using congrArg List.length h)
    rw [splitOn_map lib.unquotePath_slash hfree] at h hall hnames
    rw [List.map_map, List.map_inj_left] at h
    rw [List.forall_mem_append] at hall
    obtain ⟨h35, h63⟩ := cutPath_eq_self.1 hself
    -- A delimiter in a decoded segment is one in the decoded path.
    have hmem : ∀ s ∈ t.splitOn 47, ∀ c ∈ lib.unquotePath s, c ∈ lib.unquotePath t := by
      intro s hs c hc
      have hpart : lib.unquotePath s ∈ (lib.unquotePath t).splitOn 47 := by
        rw [splitOn_map lib.unquotePath_slash hfree]
        exact List.mem_map_of_mem hs
      exact mem_of_mem_splitOn hpart hc
    refine ⟨fun s hs => ⟨⟨hfree _ (List.mem_map_of_mem hs), fun hc => h35 (hmem s hs _ hc),
      fun hc => h63 (hmem s hs _ hc)⟩, hall.2 _ (List.mem_map_of_mem hs), h s hs⟩, hall.1,
      fun s hs => hnames _ (List.mem_map_of_mem hs)⟩
  · rintro ⟨hsegs, hbase, hdots⟩
    have hfree : ∀ s ∈ (t.splitOn 47).map lib.unquotePath, 47 ∉ s :=
      List.forall_mem_map.2 fun s hs => (hsegs s hs).1.1
    have hself : cutPath (lib.unquotePath t) = lib.unquotePath t := cutPath_eq_self.2
      ⟨not_mem_map lib.unquotePath_slash (by decide)
        (List.forall_mem_map.2 fun s hs => (hsegs s hs).1.2.1),
        not_mem_map lib.unquotePath_slash (by decide)
          (List.forall_mem_map.2 fun s hs => (hsegs s hs).1.2.2)⟩
    rw [hself, splitOn_map lib.unquotePath_slash hfree, DotSegments.normalize_of_names, hkeep,
      List.map_append, List.append_cancel_left_eq, List.map_map, List.map_inj_left]
    · exact fun s hs => (hsegs s hs).2.2
    · exact List.forall_mem_append.2
        ⟨hbase, List.forall_mem_map.2 fun s hs => (hsegs s hs).2.1⟩
    · exact List.forall_mem_map.2 hdots

variable {upstream base : Str}

/-- The segments that the server is asked for. -/
theorem pathSegments_askedPath (hbase : IsBaseUrl upstream base) (t query : Str) :
    pathSegments (lib.askedPath (upstream ++
        if query = [] then 47 :: lib.unquotePath t else 47 :: lib.unquotePath t ++ 63 :: query)) =
      (DotSegments.normalize (str ".") (str "..") [] ((baseSegments base ++
        (cutPath (lib.unquotePath t)).splitOn 47).map lib.requote)).map octets := by
  have hsegs : segments (urlPath (upstream ++ if query = [] then 47 :: lib.unquotePath t
      else 47 :: lib.unquotePath t ++ 63 :: query)) =
        baseSegments base ++ (cutPath (lib.unquotePath t)).splitOn 47 := by
    rw [urlPath_append hbase, List.takeWhile_cons_of_pos (by decide)]
    exact segments_append hbase.1 _
  rw [pathSegments, Yarl.askedPath, hsegs]
  refine congrArg (List.map octets) (List.splitOn_intercalate 47 (fun s hs => ?_)
    (DotSegments.normalize_ne_nil _ (by simp [List.splitOn_ne_nil])))
  rcases DotSegments.mem_normalize hs with hs | rfl
  · obtain ⟨r, hr, rfl⟩ := List.mem_map.1 hs
    refine lib.requote_slash r ?_
    rcases List.mem_append.1 hr with hr | hr
    · rw [baseSegments] at hr
      split_ifs at hr
      · cases hr
      · exact not_mem_of_mem_splitOn 47 _ r hr
    · exact not_mem_of_mem_splitOn 47 _ r hr
  · exact List.not_mem_nil

/-- The query that comes behind a decoded path without delimiters. -/
theorem urlQuery_append (hbase : IsBaseUrl upstream base) {path : Str}
    (hpath : 35 ∉ path ∧ 63 ∉ path) (query : Str) :
    urlQuery (upstream ++ if query = [] then 47 :: path else 47 :: path ++ 63 :: query) =
      query.takeWhile (· ≠ 35) := by
  -- Neither delimiter occurs before the query.
  have hfront : ∀ c ∈ base ++ 47 :: path, c ≠ 35 ∧ c ≠ 63 := by
    intro c hc
    rcases List.mem_append.1 hc with hc | hc
    · exact hbase.2.1 c hc
    · rcases List.mem_cons.1 hc with rfl | hc
      · decide
      · exact ⟨fun he => hpath.1 (he ▸ hc), fun he => hpath.2 (he ▸ hc)⟩
  have h35 : ∀ r, (base ++ 47 :: path ++ r).takeWhile (· ≠ 35) =
      base ++ 47 :: path ++ r.takeWhile (· ≠ 35) := fun r =>
    List.takeWhile_append_of_pos fun c hc => by simpa using (hfront c hc).1
  have h63 : ∀ r, (base ++ 47 :: path ++ r).dropWhile (· ≠ 63) = r.dropWhile (· ≠ 63) := fun r =>
    List.dropWhile_append_of_pos fun c hc => by simpa using (hfront c hc).2
  rw [urlQuery, targetQuery]
  split_ifs with hq
  · have := h35 []
    rw [List.append_nil, List.takeWhile_nil, List.append_nil] at this
    rw [afterAuthority_append hbase, this, hq]
    have := h63 []
    rw [List.append_nil, List.dropWhile_nil] at this
    rw [this]
    rfl
  · rw [List.cons_append, afterAuthority_append hbase, ← List.cons_append, ← List.append_assoc,
      h35, h63]
    rfl

/-- The library decodes queries in part, and quotes them again. -/
theorem queryPairs_iff (q : Str) :
    queryPairs (lib.requoteQuery ((lib.unquoteQuery q).takeWhile (· ≠ 35))) = queryPairs q ↔
      ∀ p ∈ pairs 38 61 q, Stable 38 61 35 formOctets lib.unquoteQuery NoneDropped p :=
  have hmeaning : Meaning 38 61 35 formOctets :=
    ⟨formOctets_distributes (by decide), formOctets_distributes (by decide),
      formOctets_distributes (by decide), fun _ => formOctets_eq_nil_iff⟩
  pairs_map_iff hmeaning lib.unquoteQuery_decoding lib.requoteQuery_quoting (by decide) (by decide)
    (by decide) q

/-- The server is asked for the target of the client exactly when nothing in it,
    decoded, is taken for a delimiter, dropped, removed, or decoded again. -/
theorem target_iff (hbase : IsBaseUrl upstream base) (t q : Str) :
    (pathSegments (lib.askedPath (upstream ++ if lib.unquoteQuery q = [] then
        47 :: lib.unquotePath t else 47 :: lib.unquotePath t ++ 63 :: lib.unquoteQuery q)) =
        (baseSegments base).map octets ++ (t.splitOn 47).map octets ∧
      queryPairs (lib.askedQuery (upstream ++ if lib.unquoteQuery q = [] then
        47 :: lib.unquotePath t else 47 :: lib.unquotePath t ++ 63 :: lib.unquoteQuery q)) =
        queryPairs q) ↔
      ((∀ s ∈ t.splitOn 47, StableSegment lib s) ∧ (∀ s ∈ baseSegments base, NoneDropped s) ∧
      ∀ s ∈ baseSegments base ++ (t.splitOn 47).map lib.unquotePath,
        lib.requote s ≠ str "." ∧ lib.requote s ≠ str "..") ∧
      ∀ p ∈ pairs 38 61 q, Stable 38 61 35 formOctets lib.unquoteQuery NoneDropped p := by
  rw [lib.pathSegments_askedPath hbase, lib.map_normalize_eq_iff]
  refine and_congr_right fun hpath => ?_
  have hfree : 35 ∉ lib.unquotePath t ∧ 63 ∉ lib.unquotePath t :=
    ⟨not_mem_map lib.unquotePath_slash (by decide)
      (List.forall_mem_map.2 fun s hs => (hpath.1 s hs).1.2.1),
      not_mem_map lib.unquotePath_slash (by decide)
        (List.forall_mem_map.2 fun s hs => (hpath.1 s hs).1.2.2)⟩
  rw [askedQuery, urlQuery_append hbase hfree, lib.queryPairs_iff]

end PercentYarl

/-! ## The exchange -/

/-- The field of a name among those that are kept. -/
theorem getHeader_filter (headers : List (Str × Str)) {keep : Str → Bool} {name : Str}
    (h : ∀ n, lower n = lower name → keep n = true) :
    getHeader (headers.filter (keep ·.1)) name = getHeader headers name := by
  rw [getHeader, List.find?_filter, getHeader]
  congr 2
  funext g
  by_cases hg : lower g.1 = lower name
  · simp [hg, h g.1 hg]
  · simp [hg]

theorem foldl_append_eq_flatten {α : Type*} (acc : List α) (chunks : List (List α)) :
    chunks.foldl (· ++ ·) acc = acc ++ chunks.flatten := by
  induction chunks generalizing acc with
  | nil => simp
  | cons c chunks ih => rw [List.foldl_cons, ih, List.flatten_cons, List.append_assoc]

/-- The response is relayed as it is exactly when no end-to-end field is repeated,
    and taking its coding off again has no effect. -/
theorem relay_response_iff (codings : Codings) {resp : Response} {chunks : List (List UInt8)}
    (hread : codings.content resp = some chunks.flatten) :
    FaithfulResponse codings resp (relay resp chunks) ↔ RelayableResponse codings resp := by
  have hbody : (relay resp chunks).body = chunks.flatten := foldl_append_eq_flatten [] chunks
  have hfields : (relay resp chunks).headers = fieldDict (resp.headers.filter (endToEnd ·.1)) := rfl
  -- The client is told the coding of the upstream server.
  have hcoding : ∀ headers, headers = resp.headers.filter (endToEnd ·.1) →
      getHeader headers "Content-Encoding" = getHeader resp.headers "Content-Encoding" := by
    rintro _ rfl
    refine getHeader_filter _ fun n hn => ?_
    rw [endToEnd, hn]
    decide
  constructor
  · intro h
    refine ⟨(fieldDict_eq_iff _).1 (hfields ▸ h.fields), fun coding hc hauto entity he => ?_⟩
    have hentity := h.entity
    rw [Codings.entity, Codings.entity, hcoding _ h.fields, hc, hbody] at hentity
    rw [Codings.content, hc] at hread
    simp only [hauto, if_true, he, Option.some.injEq] at hread
    simp only [he, ← hread] at hentity
    exact hentity
  · intro h
    have hout := hfields.trans ((fieldDict_eq_iff _).2 h.names)
    refine ⟨rfl, hout, ?_⟩
    rw [Codings.entity, Codings.entity, hcoding _ hout, hbody]
    rw [Codings.content] at hread
    cases hc : getHeader resp.headers "Content-Encoding" with
    | none => simpa [hc] using hread.symm
    | some coding =>
      simp only [hc] at hread ⊢
      split_ifs at hread with hauto
      · rw [h.coding coding hc hauto _ hread, hread]
      · rw [Option.some.inj hread]

/-- An exchange is relayed as it is exactly when its request and its response
    survive the relay. -/
theorem relay_faithful_iff (lib : PercentYarl) (codings : Codings) (app : App) {base : Str}
    (hbase : IsBaseUrl app.upstream base) (method target : Str) (headers : List (Str × Str))
    (body : Option (List UInt8)) (now : Flt) (up : UpstreamRequest)
    (hup : (proxy app (lib.request method (47 :: target) headers body) now).2 = .forward up)
    (resp : Response) (chunks : List (List UInt8))
    (hread : codings.content resp = some chunks.flatten) :
    (FaithfulRequest lib base (47 :: target) headers up ∧
        FaithfulResponse codings resp (relay resp chunks)) ↔
      RelayableRequest lib base (47 :: target) headers ∧ RelayableResponse codings resp := by
  obtain ⟨_, rfl⟩ := proxy_forward hup
  refine and_congr ?_ (relay_response_iff codings hread)
  have hpath : (lib.request method (47 :: target) headers body).path =
      47 :: lib.unquotePath (targetPath target) := lib.unquotePath_cons_slash _
  have hurl : (upstreamRequest app (lib.request method (47 :: target) headers body)).url =
      app.upstream ++ if lib.unquoteQuery (targetQuery target) = [] then
        47 :: lib.unquotePath (targetPath target)
      else 47 :: lib.unquotePath (targetPath target) ++
        63 :: lib.unquoteQuery (targetQuery target) := by
    rw [← hpath]
    rfl
  -- The target and the fields are relayed independently of each other.
  have htarget := lib.target_iff hbase (targetPath target) (targetQuery target)
  rw [← hurl] at htarget
  have hfields := (fieldDict_eq_iff (headers.filter (requestField ·.1)))
  rw [← filter_upstreamHeaders app.upstreamKey] at hfields
  constructor
  · rintro ⟨hp, hq, hf⟩
    obtain ⟨⟨h1, h2, h3⟩, h4⟩ := htarget.1 ⟨hp, hq⟩
    exact ⟨h1, h2, h3, h4, hfields.1 hf⟩
  · rintro ⟨h1, h2, h3, h4, h5⟩
    obtain ⟨hp, hq⟩ := htarget.2 ⟨⟨h1, h2, h3⟩, h4⟩
    exact ⟨hp, hq, hfields.2 h5⟩

/-- The octets `%2F` decoded. -/
def decodeSlash : Str → Str
  | 37 :: 50 :: 70 :: s => 47 :: decodeSlash s
  | c :: s => c :: decodeSlash s
  | [] => []

theorem decodeSlash_distributes : Distributes 47 decodeSlash := by
  intro a b
  fun_induction decodeSlash a with
  | case1 s ih => rw [List.cons_append, List.cons_append, List.cons_append, decodeSlash, ih]; rfl
  | case2 c s hne ih =>
    rw [List.cons_append, decodeSlash, ih]
    · rfl
    · -- A slash does not complete the octet.
      rintro s' rfl hs'
      rcases s with _ | ⟨d, _ | ⟨e, s⟩⟩
      · cases hs'
      · cases hs'
      · rw [List.cons_append, List.cons_append, List.cons.injEq, List.cons.injEq] at hs'
        exact hne s rfl (by rw [hs'.1, hs'.2.1])
  | case3 => rfl

theorem decodeSlash_cons_of_ne {c : Nat} (h : c ≠ 37) (s : Str) :
    decodeSlash (c :: s) = c :: decodeSlash s := by
  rw [decodeSlash]
  rintro s' rfl
  exact absurd rfl h

theorem length_octets_decodeSlash (s : Str) :
    (octets (decodeSlash s)).length ≤ (octets s).length := by
  have hdigit : ∀ {h x : Nat}, hexValue h = some x → h ≠ 37 := by
    rintro _ x hx rfl
    cases hx
  induction s using octets_induction with
  | nil => exact le_rfl
  | hex h l x y s hx hy ih =>
    rw [octets_hex hx hy]
    by_cases hslash : h = 50 ∧ l = 70
    · obtain ⟨rfl, rfl⟩ := hslash
      have hplain : octets (decodeSlash (37 :: 50 :: 70 :: s)) = 47 :: octets (decodeSlash s) := by
        rw [decodeSlash]
        exact octets_cons_of_ne (by decide) _
      rw [hplain]
      exact Nat.succ_le_succ ih
    · have hother : decodeSlash (37 :: h :: l :: s) = 37 :: h :: l :: decodeSlash s := by
        rw [decodeSlash, decodeSlash_cons_of_ne (hdigit hx), decodeSlash_cons_of_ne (hdigit hy)]
        rintro s' - heq
        simp only [List.cons.injEq] at heq
        exact hslash ⟨heq.1, heq.2.1⟩
      rw [hother, octets_hex hx hy]
      exact Nat.succ_le_succ ih
  | percent s hpair ih =>
    have hother : decodeSlash (37 :: s) = 37 :: decodeSlash s := by
      rw [decodeSlash]
      rintro s' - rfl
      exact hpair ⟨rfl, rfl⟩
    have hle := length_octets_append_le [37] (decodeSlash s)
    rw [hother, octets_percent hpair, List.length_cons]
    exact hle.trans (by simpa [octets, utf8, Nat.add_comm] using ih)
  | cons c s hc ih =>
    rw [decodeSlash_cons_of_ne hc, octets_cons_of_ne hc, octets_cons_of_ne hc, List.length_append,
      List.length_append]
    exact Nat.add_le_add_left ih _

/-- What is dropped is no part of an encoded octet. -/
theorem hexValue_of_dropped {c : Nat} (h : keptChar c = false) : c ≠ 37 ∧ hexValue c = none := by
  simp only [keptChar, decide_eq_false_iff_not] at h
  refine ⟨by omega, ?_⟩
  rw [hexValue, if_neg (by omega), if_neg (by omega), if_neg (by omega)]

theorem filter_of_kept {s : Str} (h : NoneDropped s) : s.filter keptChar = s :=
  List.filter_eq_self.2 h

theorem length_octets_filter_lt {s : Str} (h : ¬NoneDropped s) :
    (octets (s.filter keptChar)).length < (octets s).length := by
  have hdropped : ∃ c ∈ s, keptChar c = false := by simpa [NoneDropped] using h
  exact (length_octets_filter (fun _ => hexValue_of_dropped) [] s).2 hdropped

theorem formOctets_filter (s : Str) : formOctets (s.filter keptChar) =
    octets ((s.map fun c => if c = 43 then 32 else c).filter keptChar) := by
  have hplus : (keptChar ∘ fun c : Nat => if c = 43 then 32 else c) = keptChar := by
    funext c
    by_cases h : c = 43
    · subst h
      decide
    · simp [h]
  rw [formOctets, List.filter_map, hplus]

/-- Characters that are dropped from a query. -/
theorem quoting_filter : Quoting 38 61 formOctets NoneDropped (List.filter keptChar) where
  atAmp a b := by rw [List.filter_append, List.filter_cons_of_pos (by decide)]
  atEq a b := by rw [List.filter_append, List.filter_cons_of_pos (by decide)]
  not_mem_amp _ h := fun hmem => h (List.mem_of_mem_filter hmem)
  not_mem_eq _ h := fun hmem => h (List.mem_of_mem_filter hmem)
  keep s h := by rw [filter_of_kept h]
  drop s h := by
    rw [formOctets_filter]
    refine length_octets_filter_lt fun hkept => h fun c hc => ?_
    have := hkept _ (List.mem_map_of_mem hc)
    split_ifs at this with hplus
    · rw [hplus]
      decide
    · exact this

/-- The URL library on targets whose only percent-encoded octets are those of
    slashes in the path. -/
def slashYarl : PercentYarl where
  unquotePath := decodeSlash
  unquoteQuery s := s
  requote := List.filter keptChar
  requote_slash _ h := fun hmem => h (List.mem_of_mem_filter hmem)
  requoteQuery := List.filter keptChar
  unquotePath_slash := decodeSlash_distributes
  unquotePath_nil := rfl
  unquotePath_octets := length_octets_decodeSlash
  requote_keep s h := by rw [filter_of_kept h]
  requote_drop _ := length_octets_filter_lt
  unquoteQuery_decoding := ⟨fun _ _ => rfl, fun _ _ => rfl, fun _ => Iff.rfl, fun _ => le_rfl⟩
  requoteQuery_quoting := quoting_filter

/-- The text `{}`. -/
def emptyObject : List UInt8 := [123, 125]

/-- The text `{}` in the coding `gzip`. -/
def gzipped : List UInt8 :=
  [31, 139, 8, 0, 0, 0, 0, 0, 2, 3, 171, 174, 5, 0, 67, 191, 166, 163, 2, 0, 0, 0]

/-- The codings, on `{}`, which is no text in the coding `gzip`. -/
def gzipCodings : Codings where
  decode coding body :=
    if coding = str "gzip" ∧ body = gzipped then some emptyObject else none
  automatic coding := coding ∈ [str "gzip", str "deflate", str "br", str "zstd"]

/-- A response with the text `{}`. -/
def emptyObjectResponse (headers : List (Str × Str)) : Response where
  status := 200
  headers := (str "Content-Type", str "application/json") :: headers
  body := emptyObject

/-- A request for the models and its response are relayed as they are. -/
theorem relay_faithful_models :
    FaithfulRequest slashYarl [] (str "/v1/models?limit=2") oneKeyAuth
        (upstreamRequest oneKeyApp
          (slashYarl.request (str "GET") (str "/v1/models?limit=2") oneKeyAuth none)) ∧
      FaithfulResponse gzipCodings (emptyObjectResponse [])
        (relay (emptyObjectResponse []) [[123], [125]]) :=
  (relay_faithful_iff slashYarl gzipCodings oneKeyApp oneKeyApp_isBaseUrl (str "GET")
    (str "v1/models?limit=2") oneKeyAuth none (.fin 1) _ rfl (emptyObjectResponse [])
    [[123], [125]] rfl).2
    ⟨⟨by decide, by decide, by decide, by decide, by decide⟩, ⟨by decide, fun _ h => by cases h⟩⟩

/-- An encoded slash, a repeated field of the request, two cookies and a body in
    the coding `gzip` are not relayed as they are. -/
theorem relay_faithful_fails :
    (∃ up, (proxy oneKeyApp (slashYarl.request (str "GET") (str "/v1/models/a%2Fb")
        oneKeyAuth none) (.fin 1)).2 = .forward up ∧
      ¬FaithfulRequest slashYarl [] (str "/v1/models/a%2Fb") oneKeyAuth up) ∧
    (∃ up, (proxy oneKeyApp (slashYarl.request (str "GET") (str "/v1/models")
        (oneKeyAuth ++ [(str "Via", str "a"), (str "Via", str "b")]) none) (.fin 1)).2 =
          .forward up ∧
      ¬FaithfulRequest slashYarl [] (str "/v1/models")
        (oneKeyAuth ++ [(str "Via", str "a"), (str "Via", str "b")]) up) ∧
    ¬FaithfulResponse gzipCodings
      (emptyObjectResponse [(str "Set-Cookie", str "a=1"), (str "Set-Cookie", str "b=2")])
      (relay (emptyObjectResponse
        [(str "Set-Cookie", str "a=1"), (str "Set-Cookie", str "b=2")]) [emptyObject]) ∧
    ∃ resp, gzipCodings.content resp = some emptyObject ∧
      gzipCodings.entity resp = some emptyObject ∧
      ¬FaithfulResponse gzipCodings resp (relay resp [emptyObject]) := by
  refine ⟨⟨_, rfl, fun h => ?_⟩, ⟨_, rfl, fun h => ?_⟩, fun h => ?_,
    ⟨{ emptyObjectResponse [(str "Content-Encoding", str "gzip")] with body := gzipped },
      by decide, by decide, fun h => ?_⟩⟩
  · exact absurd h.path (by decide)
  · exact absurd h.fields (by decide)
  · exact absurd h.fields (by decide)
  · exact absurd h.entity (by decide)

end FlashNext.Gateway
