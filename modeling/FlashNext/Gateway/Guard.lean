import FlashNext.Gateway.Revoke

/-!
# The admin guard

The middleware of `scripts/gateway.py` in front of the handlers (`admin_guard`, `admin_ok`), and
the routes of `build`. A request to the dashboard or below `/admin/` is let in if it presents
the admin token; what it does then takes place when its body is there, and the token may have
changed in between.

* `reachable_server`: the runs behind the guard are runs of the gateway;
* `adminGuard_eq`: who presents the token is let in;
* `outside_keeps_keys`: clients that do not present the admin token get to none of the handlers
  behind the guard, and can neither change the token nor bring the gateway to accept another
  key, in whatever order their requests, the watcher and an editor that keeps the two run.
-/

namespace FlashNext.Gateway

open Python

/-- What a client sends, with what the framework parses of it. -/
structure HttpRequest where
  request : Request
  /-- `request.query.get("token")`. -/
  query : Option Str
  /-- `request.cookies.get("admin_token")`. -/
  cookie : Option Str
  /-- What `await request.json()` gives. -/
  json : Except Err Val

/-- The handlers of the routes. -/
inductive Handler
  | dashboard
  | healthz
  | apiState
  | admin (req : AdminRequest)
  | proxy (req : Request)

/-- The operation that `api_key_op` finds in `{op}`. -/
def opOf (op : Str) : Op :=
  if op = str "revoke" then .revoke
  else if op = str "rotate" then .rotate
  else if op = str "label" then .label
  else .other op

/-- A part of a path, for `{kid}` or `{op}`. -/
def isPart (part : Str) : Bool := part ≠ [] && part.all fun c => c ≠ 123 && c ≠ 125

/-- The path below `/admin/keys/`, for the route of `api_key_op`. -/
def keyOpOf (path : Str) : Option AdminRequest :=
  match path.splitOn 47 with
  | [root, admin, keys, kid, op] =>
    if root = [] ∧ admin = str "admin" ∧ keys = str "keys" ∧ isPart kid ∧ isPart op then
      some (.keyOp kid (opOf op))
    else none
  | _ => none

namespace HttpRequest

variable (req : HttpRequest)

/-- The routes of `build`. Where no other one has the method and the path, there is `proxy`. -/
def handler : Handler :=
  let get := req.request.method = str "GET" ∨ req.request.method = str "HEAD"
  let post := req.request.method = str "POST"
  if get ∧ req.request.path = str "/" then .dashboard
  else if get ∧ req.request.path = str "/healthz" then .healthz
  else if get ∧ req.request.path = str "/admin/state" then .apiState
  else if post ∧ req.request.path = str "/admin/config" then .admin (.config req.json)
  else if post ∧ req.request.path = str "/admin/keys" then
    .admin (.create (req.request.body.map fun _ => req.json))
  else
    match keyOpOf req.request.path with
    | some op => if post then .admin op else .proxy req.request
    | none => .proxy req.request

/-- `tok`: the first of the header, the query and the cookie that is not empty. -/
def tok : Str :=
  let given (s : Option Str) : Option Str := s.filter fun s => s ≠ []
  (((given (getHeader req.request.headers "X-Admin-Token")).or (given req.query)).or
    (given req.cookie)).getD []

/-- The guard stands before the request. -/
def guarded : Bool := req.request.path = str "/" || (str "/admin/").isPrefixOf req.request.path

end HttpRequest

/-- `admin_ok`. -/
def adminOk (cfg : Config) (req : HttpRequest) : Except Err Bool :=
  if req.tok = [] then .ok false
  else do compareDigest (← (Val.dict cfg.data).getItem "admin_token") req.tok

/-- `admin_guard`, up to the handler; `none` for the answer that a token is required. -/
def adminGuard (cfg : Config) (req : HttpRequest) : Except Err (Option Handler) :=
  if req.guarded then do
    if ← adminOk cfg req then return some req.handler else return none
  else .ok (some req.handler)

/-- The step of the gateway that a handler is. -/
def Handler.label (fresh : Fresh) (now : Flt) (c : SaveCalls) : Handler → Option Label
  | .admin req => some (.admin req fresh c)
  | .proxy req => some (.proxy req now)
  | _ => none

/-- The gateway behind its guard, and the requests that are let in. -/
structure GuardState where
  server : State
  inside : List Handler

/-- The steps behind the guard. -/
inductive GuardLabel
  | arrive (req : HttpRequest)
  /-- The handler of the request at this position goes on. -/
  | serve (i : Nat) (fresh : Fresh) (now : Flt) (c : SaveCalls)
  /-- A step of the gateway that is no request. -/
  | other (a : Label)

/-- The step is a request that comes in. -/
def Label.isRequest : Label → Bool
  | .proxy _ _ | .admin _ _ _ => true
  | _ => false

/-- One step, `none` where the label is not enabled. -/
def GuardState.step (s : GuardState) : GuardLabel → Option GuardState
  | .arrive req => s.server.proc.map fun p =>
    match adminGuard p.app.cfg req with
    | .ok (some handler) => { s with inside := s.inside ++ [handler] }
    | _ => s
  | .serve i fresh now c => s.inside[i]?.bind fun handler =>
    match handler.label fresh now c with
    | some a => (s.server.step a).map fun t => ⟨t.1, s.inside.eraseIdx i⟩
    | none => some { s with inside := s.inside.eraseIdx i }
  | .other a =>
    if a.isRequest then none
    -- The requests end with the process.
    else (s.server.step a).map fun t => ⟨t.1, if t.1.proc.isSome then s.inside else []⟩

/-- The gateway behind its guard. -/
def guardedServer : System GuardState GuardLabel :=
  .ofStep (fun s => s.server.Initial ∧ s.inside = []) GuardState.step

/-- Behind the guard, the gateway does nothing that it does not do without. -/
theorem reachable_server {s : GuardState} (hs : guardedServer.Reachable s) :
    server.Reachable s.server := by
  refine hs.invariant (P := fun s => server.Reachable s.server) (fun s hinit => ?_)
    fun s a s' hs hstep => ?_
  · have hinitial : server.init s.server := hinit.1
    exact .init hinitial
  have hserver : ∀ {a t}, s.server.step a = some t → server.Reachable t.1 := fun ht =>
    hs.step (server_step ht)
  cases a with
  | arrive req =>
    obtain ⟨p, -, rfl⟩ := Option.map_eq_some_iff.1 hstep
    split <;> exact hs
  | serve i fresh now c =>
    obtain ⟨handler, -, h⟩ := Option.bind_eq_some_iff.1 hstep
    split at h
    · obtain ⟨t, ht, rfl⟩ := Option.map_eq_some_iff.1 h
      exact hserver ht
    · obtain rfl := Option.some.inj h
      exact hs
  | other a =>
    change (if a.isRequest then none else _) = some s' at hstep
    split_ifs at hstep
    obtain ⟨t, ht, rfl⟩ := Option.map_eq_some_iff.1 hstep
    exact hserver ht

/-! ## The guard -/

/-- The handlers that answer anyone. -/
def Handler.IsOpen : Handler → Prop
  | .healthz | .proxy _ => True
  | _ => False

/-- The route of `api_key_op` is below `/admin/`. -/
theorem prefix_of_keyOpOf {path : Str} {op : AdminRequest} (h : keyOpOf path = some op) :
    str "/admin/" <+: path := by
  unfold keyOpOf at h
  split at h
  · rename_i root admin keys kid op hparts
    split_ifs at h with hpath
    obtain ⟨rfl, rfl, rfl, -, -⟩ := hpath
    have hjoin : [47].intercalate (path.splitOn 47) = path := List.intercalate_splitOn 47
    rw [hparts] at hjoin
    refine ⟨str "keys/" ++ kid ++ 47 :: op, Eq.trans ?_ hjoin⟩
    simp only [List.intercalate, List.intersperse, List.flatten_cons, List.flatten_nil,
      List.append_nil, List.append_assoc]
    rfl
  · cases h

/-- The guard stands before every handler but those that answer anyone. -/
theorem isOpen_of_not_guarded {req : HttpRequest} (h : req.guarded = false) :
    req.handler.IsOpen := by
  simp only [HttpRequest.guarded, Bool.or_eq_false_iff, decide_eq_false_iff_not] at h
  have hadmin : ∀ rest, req.request.path ≠ str "/admin/" ++ rest := fun rest heq => by
    have hprefix := List.isPrefixOf_iff_prefix.2 (heq ▸ List.prefix_append (str "/admin/") rest)
    rw [h.2] at hprefix
    cases hprefix
  simp only [HttpRequest.handler]
  split_ifs with hroot hhealthz hstate hconfig hcreate hpost
  · exact absurd hroot.2 h.1
  · trivial
  · exact absurd hstate.2 (hadmin (str "state"))
  · exact absurd hconfig.2 (hadmin (str "config"))
  · exact absurd hcreate.2 (hadmin (str "keys"))
  · cases hop : keyOpOf req.request.path with
    | none => trivial
    | some op =>
      obtain ⟨rest, hrest⟩ := prefix_of_keyOpOf hop
      exact absurd hrest.symm (hadmin rest)
  · split <;> trivial

/-- The guard lets in those that present the token, where the comparison does not raise. -/
theorem adminGuard_eq {cfg : Config} {token : Str} {req : HttpRequest} (hne : token ≠ [])
    (htoken : Dict.get cfg.data "admin_token" = some (.str token)) (hascii : isAscii token = true)
    (htok : isAscii req.tok = true) : adminGuard cfg req =
      .ok (if req.guarded = true ∧ req.tok ≠ token then none else some req.handler) := by
  have hitem : (Val.dict cfg.data).getItem "admin_token" = .ok (.str token) := by
    simp [Val.getItem, htoken]
  have hok : adminOk cfg req = .ok (decide (req.tok = token)) := by
    rw [adminOk]
    split_ifs with hempty
    · simp [hempty, hne.symm]
    · simp [hitem, compareDigest, hascii, htok, bind, Except.bind, eq_comm]
  rw [adminGuard, hok]
  by_cases hguarded : req.guarded = true <;> by_cases heq : req.tok = token <;>
    simp [hguarded, heq, bind, Except.bind, pure, Except.pure]

/-- A request that is let in past the guard presents the token. -/
theorem tok_of_adminOk {cfg : Config} {token : Str} {req : HttpRequest}
    (htoken : Dict.get cfg.data "admin_token" = some (.str token))
    (hok : adminOk cfg req = .ok true) : req.tok = token := by
  rw [adminOk] at hok
  split_ifs at hok with hempty
  · cases hok
  obtain ⟨v, hv, hok⟩ := bind_eq_ok.1 hok
  have hv' : (Val.dict cfg.data).getItem "admin_token" = .ok (.str token) := by
    simp [Val.getItem, htoken]
  obtain rfl := Except.ok.inj (hv.symm.trans hv')
  simp only [compareDigest] at hok
  split_ifs at hok
  have heq := of_decide_eq_true (Except.ok.inj hok)
  exact heq.symm

/-- A request that does not present the token only gets to the handlers that answer anyone. -/
theorem isOpen_of_adminGuard {cfg : Config} {token : Str} {req : HttpRequest} {handler : Handler}
    (htoken : Dict.get cfg.data "admin_token" = some (.str token)) (htok : req.tok ≠ token)
    (h : adminGuard cfg req = .ok (some handler)) : handler.IsOpen := by
  rw [adminGuard] at h
  split_ifs at h with hguarded
  · obtain ⟨ok, hok, h⟩ := bind_eq_ok.1 h
    cases ok with
    | false => cases h
    | true => exact absurd (tok_of_adminOk htoken hok) htok
  · obtain rfl := Option.some.inj (Except.ok.inj h)
    exact isOpen_of_not_guarded (Bool.eq_false_iff.2 hguarded)

/-! ## Outsiders -/

/-- The admin token is `token`, and there are key strings, all of them in `keys`. -/
def Secrets (token : Str) (keys : List Str) (data : Dict) : Prop :=
  KeysHave (fun ks => ks ≠ [] ∧ ks ⊆ keys) data ∧
    Dict.get data "admin_token" = some (.str token)

/-- So are those that a document brings in. -/
def BringsSecrets (token : Str) (keys : List Str) (v : Val) : Prop :=
  BringsKeys (fun ks => ks ≠ [] ∧ ks ⊆ keys) v ∧
    Dict.get (laidOver v) "admin_token" = some (.str token)

/-- A step of a process that runs, which is no admin request. -/
def Label.isOutside : Label → Prop
  | .start _ | .admin _ _ _ => False
  | _ => True

variable {token : Str} {keys : List Str}

/-- With a token and a key, nothing is drawn. -/
theorem Secrets.normalize {data : Dict} (htoken : token ≠ []) (h : Secrets token keys data)
    (fresh : Fresh) : Secrets token keys (normalize fresh data) := by
  have hkeys : falsy data "keys" = false := by
    by_contra hfalsy
    have hnil := entries_of_falsy (Bool.eq_true_of_not_eq_false hfalsy)
    exact h.1.2.1 (by rw [hnil]; rfl)
  have hadmin : falsy data "admin_token" = false := by
    simp [falsy, h.2, Val.truthy, htoken]
  refine ⟨⟨normalize_distinct h.1.1 fresh, ?_⟩, ?_⟩
  · rw [entries_normalize, hkeys]
    exact h.1.2
  · simp only [Gateway.normalize, hadmin, Bool.false_eq_true, if_false, hkeys]
    split_ifs
    · exact h.2
    · exact (Dict.get_insert_of_ne _ _ (by simp)).trans h.2

/-- Other keys with the same key strings. -/
theorem Secrets.setKeys {data : Dict} (h : Secrets token keys data) {ks : List Val}
    (hks : keyStrs ks = keyStrs (entries data)) : Secrets token keys (setKeys data ks) := by
  refine ⟨⟨h.1.1.insert _ _, ?_⟩, (Dict.get_insert_of_ne _ _ (by simp)).trans h.2⟩
  rw [entries_setKeys, hks]
  exact h.1.2

/-- The steps that are no admin request keep the token and the key strings. -/
theorem kept_secrets (htoken : token ≠ []) :
    Kept (Secrets token keys) (BringsSecrets token keys) fun _ a => a.isOutside where
  dumps {data} h := by
    refine ⟨?_, Dict.get_update_of_some h.1.1 h.2⟩
    rw [BringsKeys, entries_laidOver h.1.1]
    exact h.1.2
  change {a data data'} hc hG h := by
    cases hc with
    | count hcount =>
      have hks := keyStrs_counted hcount
      obtain ⟨i, k, v, v', -, -, -, -, rfl⟩ := hcount
      refine h.setKeys ?_
      rwa [show Dict.insert data (.str "keys") _ = setKeys data _ from rfl, entries_setKeys] at hks
    | label i label => exact h.setKeys (keyStrs_modify (fun k => keyStr_setItem (by simp) k _) _ _)
    | stale => exact h
    | _ => exact hG.elim
  adopt {c data v m new e} _ _ hv _ had := by
    have h : Secrets token keys new := by
      refine ⟨⟨?_, by rw [keyStrs_adopt had]; exact hv.1⟩, ?_⟩ <;>
        rcases adopt_cases had with ⟨rfl, -⟩ | ⟨ks, -, rfl, -⟩
      · exact laidOver_distinct v
      · exact (laidOver_distinct v).insert _ _
      · exact hv.2
      · exact (Dict.get_insert_of_ne _ _ (by simp)).trans hv.2
    split_ifs
    · exact h
    · exact h.normalize htoken _
  start hG := hG.elim

/-- A step in which no client presents the token: what an editor brings in has the token and
    keys of `keys`, and the process is not started anew. -/
def Outside (token : Str) (keys : List Str) (_ : GuardState) : GuardLabel → Prop
  | .arrive req => req.tok ≠ token
  | .serve _ _ _ _ => True
  | .other a => Bring (BringsSecrets token keys) a.edits ∧ a.isOutside

/-- The gateway has the token and keys of `keys`, and only handlers that answer anyone have
    been let in. -/
structure GuardState.Shut (s : GuardState) (token : Str) (keys : List Str) : Prop where
  server : s.server.Sound (Secrets token keys) (BringsSecrets token keys)
  inside : ∀ handler ∈ s.inside, handler.IsOpen

/-- A step of outsiders leaves them outside. -/
theorem GuardState.Shut.step (htoken : token ≠ []) {s s' : GuardState} {a : GuardLabel}
    (hs : s.Shut token keys) (ha : Outside token keys s a) (h : s.step a = some s') :
    s'.Shut token keys := by
  have hkept : Kept (Secrets token keys) (BringsSecrets token keys) fun _ a => a.isOutside :=
    kept_secrets htoken
  cases a with
  | arrive req =>
    obtain ⟨p, hp, rfl⟩ := Option.map_eq_some_iff.1 h
    split
    · rename_i handler hguard
      refine ⟨hs.server, fun handler' hmem => ?_⟩
      rcases List.mem_append.1 hmem with hmem | hmem
      · exact hs.inside handler' hmem
      · obtain rfl := List.mem_singleton.1 hmem
        exact isOpen_of_adminGuard (hs.server.mem p hp).2 ha hguard
    · exact hs
  | serve i fresh now c =>
    obtain ⟨handler, hi, h⟩ := Option.bind_eq_some_iff.1 h
    have hrest : ∀ handler ∈ s.inside.eraseIdx i, handler.IsOpen := fun handler hmem =>
      hs.inside handler ((List.eraseIdx_sublist _ _).subset hmem)
    have hhandler := hs.inside handler (List.mem_of_getElem? hi)
    cases handler with
    | proxy req =>
      obtain ⟨t, ht, rfl⟩ := Option.map_eq_some_iff.1 h
      exact ⟨hkept.step (a := .proxy req now) hs.server ⟨bring_nil, trivial⟩ ht, hrest⟩
    | healthz =>
      obtain rfl := Option.some.inj h
      exact ⟨hs.server, hrest⟩
    | _ => exact hhandler.elim
  | other a =>
    simp only [GuardState.step] at h
    split_ifs at h
    obtain ⟨t, ht, rfl⟩ := Option.map_eq_some_iff.1 h
    refine ⟨hkept.step hs.server ha ht, ?_⟩
    dsimp only
    split_ifs
    · exact hs.inside
    · exact fun handler hmem => by cases hmem

/-- In every run in which no client presents the admin token, and an editor keeps it and brings
    in no other keys, the token stays, no one is let in but to the handlers that answer anyone,
    and what is forwarded upstream has a bearer token that is one of the keys. -/
theorem outside_keeps_keys (htoken : token ≠ []) {s s' : GuardState} (hs : s.Shut token keys)
    (h : (guardedServer.restrict (Outside token keys)).Leads s s') :
    (∀ p ∈ s'.server.proc, Dict.get p.app.cfg.data "admin_token" = some (.str token) ∧
      ∀ req now up, (proxy p.app req now).2 = .forward up → bearer req ∈ keys) ∧
    ∀ handler ∈ s'.inside, handler = .healthz ∨ ∃ req, handler = .proxy req := by
  have hs' : s'.Shut token keys := h.invariant (P := fun s => s.Shut token keys) hs
    fun s a s' hs hstep => hs.step htoken hstep.1 hstep.2
  refine ⟨fun p hp => ⟨(hs'.server.mem p hp).2, fun req now up hforward => ?_⟩,
    fun handler hmem => ?_⟩
  · rcases proxy_cases p.app req now with ⟨r, hr, hno⟩ | ⟨data, ⟨i, k, -, -, hk, hkey, -⟩, -⟩
    · rw [hr] at hforward
      exact absurd hforward (hno up)
    · exact (hs'.server.mem p hp).1.2.2 (List.mem_filterMap.2 ⟨k, List.mem_of_getElem? hk, hkey⟩)
  · have hopen := hs'.inside handler hmem
    cases handler with
    | healthz => exact .inl rfl
    | proxy req => exact .inr ⟨req, rfl⟩
    | _ => exact hopen.elim

/-- The gateway behind its guard, started without a file. -/
def GuardState.started : GuardState where
  server := ⟨(start (State.down none).disk startUp).1, (start (State.down none).disk startUp).2⟩
  inside := []

/-- A request for a new key, with a guessed token. -/
def guess : HttpRequest where
  request := ⟨str "POST", str "/admin/keys", str "/admin/keys",
    [(str "X-Admin-Token", str "guess")], none⟩
  query := none
  cookie := none
  json := .ok (.dict [])

/-- A request to the model, with the key of the gateway. -/
def keyedRequest : HttpRequest where
  request := getModels [(str "Authorization", str "Bearer sk-secret")]
  query := none
  cookie := none
  json := .error .valueError

/-- A request for the state, with a guessed token. -/
def guessState : HttpRequest :=
  { guess with request := ⟨str "GET", str "/admin/state", str "/admin/state",
      [(str "X-Admin-Token", str "guess")], none⟩ }

/-- The three requests come in, and the last one is served. -/
def guessAndServe : List GuardLabel :=
  [.arrive guess, .arrive guessState, .arrive keyedRequest,
    .serve 0 startUp.fresh (.fin 5) (.undisturbed 3)]

/-- The guessed token lets no one in; the request with the key is served. -/
theorem outside_keeps_keys_guess : ∃ s,
    guessAndServe.foldlM GuardState.step .started = some s ∧ s.inside.length = 0 ∧
    ∀ p ∈ s.server.proc, ∀ req now up, (proxy p.app req now).2 = .forward up →
      bearer req ∈ [str "sk-secret"] := by
  obtain ⟨s, hs, hinside⟩ : ∃ s, guessAndServe.foldlM GuardState.step .started = some s ∧
      s.inside.length = 0 :=
    ⟨_, rfl, rfl⟩
  have hshut : GuardState.started.Shut (str "admin") [str "sk-secret"] := by
    refine ⟨⟨fun v hv => ?_, fun p hp => ?_⟩, fun _ h => by cases h⟩
    · obtain rfl := Text.doc.inj (Option.some.inj hv)
      exact ⟨show _ ≠ _ ∧ _ by decide, rfl⟩
    · obtain rfl := Option.some.inj hp
      have hblank : blank.Distinct := by simp [Dict.Distinct, blank]
      have hdata : (withUrl (normalize startUp.fresh blank) startUp.url).Distinct :=
        (normalize_distinct hblank _).insert _ _
      exact ⟨⟨hdata, show _ ≠ _ ∧ _ by decide⟩, rfl⟩
  have hobeys : System.Obeys GuardState.step (Outside (str "admin") [str "sk-secret"]) .started
      guessAndServe :=
    ⟨show _ ≠ _ by decide, fun _ _ => ⟨show _ ≠ _ by decide, fun _ _ =>
      ⟨show _ ≠ _ by decide, fun _ _ => ⟨trivial, fun _ _ => trivial⟩⟩⟩⟩
  have hlead : (guardedServer.restrict
      (Outside (str "admin") [str "sk-secret"])).Leads .started s :=
    System.Leads.replay hobeys hs
  exact ⟨s, hs, hinside, fun p hp => ((outside_keeps_keys (by decide) hshut hlead).1 p hp).2⟩

end FlashNext.Gateway
