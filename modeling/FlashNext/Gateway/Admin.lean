import FlashNext.Gateway.Proxy

/-!
# The admin operations

The handlers of `scripts/gateway.py` that change the configuration, behind the
admin token: `api_config`, `api_keys` and `api_key_op`; and `api_state`, which
shows it. A handler runs without
interruption from one `await` to the next; what it does up to a save, or up to
the next `await`, is its `Outcome`.

`api_key_op` looks the key up before it awaits the body of a `label` request,
and goes on with the list and the position it has found (`labelKey`).
-/

namespace FlashNext.Gateway

open Python

/-- What a handler does: it answers with nothing changed; it awaits the body,
    at a position in the list of keys; or it changes the data and saves it. -/
inductive Outcome
  | reply (r : Reply)
  | await (idx : Nat)
  | save (data : Dict) (answer : Reply)

/-- The last segment of the path of a key operation. -/
inductive Op
  | revoke
  | rotate
  | label
  | other (op : Str)

/-- An admin request, with what its body gives: a document, or the exception of
    reading or parsing it. -/
inductive AdminRequest
  | config (body : Except Err Val)
  /-- The body, if `request.body_exists`. -/
  | create (body : Option (Except Err Val))
  | keyOp (kid : Str) (op : Op)

/-- `data["keys"] = keys`; the list is one object, changed in place. -/
def setKeys (data : Dict) (keys : List Val) : Dict := Dict.insert data (.str "keys") (.list keys)

/-- `v.strip()`, a method of strings. -/
def Val.strip : Val → Except Err Str
  | .str s => .ok (Python.strip s)
  | _ => .error .attributeError

/-- `s.rstrip("/")`. -/
def rstripSlash (s : Str) : Str := (s.reverse.dropWhile (· = 47)).reverse

/-- `body.get("label", "").strip() or "key"`. -/
def labelOf (body : Val) : Except Err Str := do
  let s ← Val.strip (← body.getD "label" (.str []))
  return if s = [] then str "key" else s

/-- An exception is answered by the server, which goes on. -/
def Outcome.ofExcept : Except Err Outcome → Outcome
  | .ok o => o
  | .error e => .reply (.raised e)

/-- `{"ok": True, name: v}`. -/
def okWith (name : Str) (v : Val) : Reply := .ok (.dict [(.str "ok", .bool true), (.str name, v)])

/-- `api_config`. -/
def apiConfig (cfg : Config) (body : Except Err Val) : Outcome :=
  .ofExcept do
    let body ← body
    let data ←
      if ← body.contains "public_url" then do
        let url ← Val.strip (← body.getItem "public_url")
        pure (Dict.insert cfg.data (.str "public_url") (.str (rstripSlash url)))
      else pure cfg.data
    return .save data <|
      match (Val.dict data).getItem "public_url" with
      | .ok url => okWith "public_url" url
      | .error e => .raised e

/-- `api_keys`. -/
def apiKeys (cfg : Config) (body : Option (Except Err Val)) (fresh : Fresh) : Outcome :=
  .ofExcept do
    let body ← body.getD (.ok (.dict []))
    match ← (Val.dict cfg.data).getItem "keys" with
    | .list ks =>
      let ks := ks ++ [newKey fresh (← labelOf body)]
      return .save (setKeys cfg.data ks) (okWith "keys" (.list ks))
    | _ => throw .attributeError

/-- `next((i for i, k in enumerate(keys) if k["id"] == kid), None)`. -/
def findKey (kid : Str) : List Val → Except Err (Option Nat)
  | [] => .ok none
  | k :: ks => do
    if (← k.getItem "id").eq (.str kid) then return some 0
    else return (← findKey kid ks).map (· + 1)

/-- `k.update(key=…, requests=0, last_used=None, created=…)`. -/
def rotateKey (fresh : Fresh) (k : Val) : Val :=
  setItem (setItem (setItem (setItem k "key" (.str (str "sk-" ++ fresh.token)))
    "requests" (.int 0)) "last_used" .none) "created" (.float fresh.created)

/-- `api_key_op`, up to its save or to its `await`. An entry with an `id` is a
    dict, and only a list has such entries. -/
def apiKeyOp (cfg : Config) (kid : Str) (op : Op) (fresh : Fresh) : Outcome :=
  .ofExcept do
    let keys ← (← (Val.dict cfg.data).getItem "keys").iter
    match ← findKey kid keys with
    | none => return .reply (.deny "no such key" 404)
    | some idx =>
      match op with
      | .revoke =>
        if keys.length = 1 then return .reply (.deny "cannot revoke the last key" 409)
        else
          let keys := keys.eraseIdx idx
          return .save (setKeys cfg.data keys) (okWith "keys" (.list keys))
      | .rotate =>
        let keys := keys.modify idx (rotateKey fresh)
        return .save (setKeys cfg.data keys) (okWith "keys" (.list keys))
      | .label => return .await idx
      | .other _ => return .reply (.deny "unknown op" 400)

/-- `keys[idx]["label"] = (await request.json()).get("label", "").strip() or "key"`,
    when the body is there. -/
def labelKey (keys : List Val) (idx : Nat) (body : Except Err Val) : Except Err (List Val) := do
  let label ← labelOf (← body)
  match keys[idx]? with
  | none => throw .indexError
  | some (.dict d) => return keys.set idx (.dict (Dict.insert d (.str "label") (.str label)))
  | some _ => throw .typeError

/-- `api_state`, with what `upstream_status` gives. -/
def apiState (app : App) (server : Val) : Except Err Val := do
  let url ← (Val.dict app.cfg.data).getItem "public_url"
  let keys ← (Val.dict app.cfg.data).getItem "keys"
  return .dict [(.str "public_url", url), (.str "upstream", .str app.upstream),
    (.str "keys", keys), (.str "server", server)]

/-- What an admin request does when it comes in (a `label` request, up to its
    `await`). -/
def Config.admin (cfg : Config) (fresh : Fresh) : AdminRequest → Outcome
  | .config body => apiConfig cfg body
  | .create body => apiKeys cfg body fresh
  | .keyOp kid op => apiKeyOp cfg kid op fresh

end FlashNext.Gateway
