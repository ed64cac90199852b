import FlashNext.Python.Ops

/-!
# The gateway's configuration

`Config` of `scripts/gateway.py`: the keys with their counters, the admin token
and the advertised URL, kept in memory as the dict that `gateway.json` holds,
with the identity of the file as the gateway last saw it. The data is any dict
of Python values: the file is edited by hand, and what an edit brings in is
only checked where it is used.

What the operating system answers (the identity and the text of the file,
whether a write succeeds) and what is drawn at random are arguments, so that
every function here is pure. Between two of these answers the file may change;
`FlashNext.Gateway.Server` supplies them from a file that does.

`self.data` is bound to a new dict by a reload. `Config.gen` counts these
bindings: a handler that holds the list of keys across an `await` holds that of
the generation it started in.
-/

namespace FlashNext.Gateway

open Python

/-- The identity of the file (`_stat`): an editor replaces it, hence the inode. -/
structure Stamp where
  mtimeNs : Int
  size : Nat
  ino : Nat
  deriving DecidableEq

/-- The text of the file, as `json.loads` takes it. -/
inductive Text
  /-- The text of a document. A key that is not a string, which only a list of
      pairs brings into the data, is kept as it is: `json.dumps` spells it out,
      and the gateway looks none of them up. -/
  | doc (v : Val)
  /-- Bytes that are not UTF-8, or not a document: a `ValueError`. -/
  | junk (bytes : List UInt8)
  /-- A document nested too deeply: a `RecursionError`. -/
  | deep (bytes : List UInt8)

/-- `json.loads`. -/
def Text.loads : Text → Except Err Val
  | .doc v => .ok v
  | .junk _ => .error .valueError
  | .deep _ => .error .recursionError

/-- `json.dumps(self.data, indent=2)`. -/
def dumps (data : Dict) : Text := .doc (.dict data)

/-- What a call draws from `secrets` and `time`. -/
structure Fresh where
  adminToken : Str
  id : Str
  token : Str
  created : Flt

/-- `new_key(label)`. -/
def newKey (fresh : Fresh) (label : Str) : Val :=
  .dict [(.str "id", .str fresh.id), (.str "label", .str label),
    (.str "key", .str (str "sk-" ++ fresh.token)), (.str "created", .float fresh.created),
    (.str "last_used", .none), (.str "requests", .int 0)]

/-- The state of a `Config` object. -/
structure Config where
  /-- The configuration, as the dict that is saved. -/
  data : Dict
  /-- The identity of the file after the last save. -/
  stamp : Option Stamp
  /-- The identity of a bad file already complained about. -/
  warned : Option Stamp
  /-- How many dicts `self.data` was bound to before this one. -/
  gen : Nat

/-- The data before anything is read. -/
def blank : Dict :=
  [(.str "public_url", .str []), (.str "keys", .list []), (.str "admin_token", .str [])]

/-- `_read`: the document in the file, or `none` if the file is absent or does
    not parse (the document `null` is read as `None` too). -/
def read : Option Text → Except Err (Option Val)
  | none => .ok none
  | some t =>
    match t.loads with
    | .ok .none => .ok none
    | .ok v => .ok (some v)
    | .error .valueError => .ok none
    | .error e => .error e

/-- `not self.data.get(k)`. -/
def falsy (data : Dict) (k : Str) : Bool := !((Dict.get data k).getD .none).truthy

/-- `_normalize`: an admin token, at least one key, and a URL. -/
def normalize (fresh : Fresh) (data : Dict) : Dict :=
  let data := if falsy data "admin_token" then
      Dict.insert data (.str "admin_token") (.str fresh.adminToken) else data
  let data := if falsy data "keys" then
      Dict.insert data (.str "keys") (.list [newKey fresh "default"]) else data
  if (Dict.get data "public_url").isSome then data
  else Dict.insert data (.str "public_url") (.str [])

/-- `save`: the text put in place of the file, or the exception that kept it
    from being written. `saved` is the identity of the file read after that. -/
def Config.save (cfg : Config) (saved : Except Err (Option Stamp)) :
    Config × Except Err Text :=
  match saved with
  | .ok st => ({ cfg with stamp := st }, .ok (dumps cfg.data))
  | .error e => (cfg, .error e)

/-! ## Reload -/

/-- One entry of the comprehension `mine`: `k["id"]: k`, if `"id" in k`. -/
def mineEntry (acc : Dict) (k : Val) : Except Err Dict := do
  if ← k.contains "id" then
    return Dict.insert acc (← (← k.getItem "id").toKey) k
  else return acc

/-- `mine`: the entries in memory by their ids, the last one of each id. -/
def mine (data : Dict) : Except Err Dict := do
  let keys ← (Val.dict data).getItem "keys"
  (← keys.iter).foldlM mineEntry []

/-- `k[name] = v`, for an entry `k`. -/
def setItem (k : Val) (name : Str) (v : Val) : Val :=
  match k with
  | .dict d => .dict (Dict.insert d (.str name) v)
  | k => k

/-- The counters of an entry read from disk: ours, if we counted more. -/
def mergeEntry (mine : Dict) (k : Val) : Except Err Val := do
  let id ← (← k.getD "id" .none).toKey
  match Dict.find mine id with
  | none => return k
  | some prev =>
    if prev.truthy then
      if ← (← prev.getD "requests" (.int 0)).gt (← k.getD "requests" (.int 0)) then
        let requests ← prev.getItem "requests"
        let lastUsed ← prev.getItem "last_used"
        return setItem (setItem k "requests" requests) "last_used" lastUsed
      else return k
    else return k

/-- The loop over the entries read from disk: those before a bad one are merged. -/
def mergeKeys (mine : Dict) : List Val → List Val × Option Err
  | [] => ([], none)
  | k :: ks =>
    match mergeEntry mine k with
    | .error e => (k :: ks, some e)
    | .ok k' => let (ks', e) := mergeKeys mine ks; (k' :: ks', e)

/-- The data after the document is laid over the blank one and its entries are
    merged, or what there is of it when an exception is raised. -/
def adopt (mine : Dict) (disk : Val) : Dict × Option Err :=
  match Dict.update blank disk with
  | (data, some e) => (data, some e)
  | (data, none) =>
    match (Val.dict data).getItem "keys" with
    | .error e => (data, some e)
    | .ok keys =>
      match keys.iter with
      | .error e => (data, some e)
      | .ok ks =>
        let (ks', e) := mergeKeys mine ks
        -- The entries are updated in place, in the list they were read from.
        (match keys with
          | .list _ => Dict.insert data (.str "keys") (.list ks')
          | _ => data, e)

/-- What a reload draws from outside. -/
structure ReloadCalls where
  /-- `_stat`. -/
  stat : Option Stamp
  /-- The text that `_read` finds, if any. -/
  text : Option Text
  fresh : Fresh
  /-- The save: the identity of the file afterwards, or an exception. -/
  saved : Except Err (Option Stamp)

/-- What a reload does: the state after it, the text it wrote, and its result. -/
structure Reload where
  cfg : Config
  wrote : Option Text
  result : Except Err Bool

/-- `reload_if_changed`. -/
def Config.reloadIfChanged (cfg : Config) (calls : ReloadCalls) : Reload :=
  match calls.stat with
  | none => ⟨cfg, none, .ok false⟩
  | some st =>
    if cfg.stamp = some st then ⟨cfg, none, .ok false⟩
    else
      match read calls.text with
      | .error e => ⟨cfg, none, .error e⟩
      | .ok none => ⟨{ cfg with warned := some st }, none, .ok false⟩
      | .ok (some disk) =>
        match mine cfg.data with
        | .error e => ⟨cfg, none, .error e⟩
        | .ok mine =>
          match adopt mine disk with
          | (data, some e) => ⟨{ cfg with data := data, gen := cfg.gen + 1 }, none, .error e⟩
          | (data, none) =>
            let cfg := { cfg with data := normalize calls.fresh data, gen := cfg.gen + 1 }
            match cfg.save calls.saved with
            | (cfg, .ok text) => ⟨cfg, some text, .ok true⟩
            | (cfg, .error e) => ⟨cfg, none, .error e⟩

/-! ## Start-up -/

/-- `Config(path)`, up to its save: the data read, if it can be. -/
def initData (fresh : Fresh) (text : Option Text) : Except Err Dict := do
  match ← read text with
  | none => return normalize fresh blank
  | some disk =>
    if disk.truthy then
      match Dict.update blank disk with
      | (data, none) => return normalize fresh data
      | (_, some e) => throw e
    else return normalize fresh blank

/-- A configuration with one key, saved under the stamp `(1, 1, 1)`. -/
def oneKey : Config where
  data := [(.str "public_url", .str []),
    (.str "keys", .list [newKey ⟨[], str "a1", str "secret", .fin 0⟩ "default"]),
    (.str "admin_token", .str "admin")]
  stamp := some ⟨1, 1, 1⟩
  warned := none
  gen := 0

end FlashNext.Gateway
