import FlashNext.System
import FlashNext.Gateway.Admin

/-!
# The gateway as a transition system

The gateway process and the file `gateway.json`, under everything that can
happen to them: external edits, start-up, proxied and admin requests, the ticks
of the watcher with their reload and their periodic flush, and a clean shutdown.
The process runs on one thread, so a step is what it does between two `await`s;
but an editor is another process, and can replace the file between any two file
operations of a step. These edits are in the label of the step (`SaveCalls`,
`TickCalls`), with what the operating system answers.

The file (`Disk`) carries two ghosts, which the code does not have: whether the
gateway has read and adopted what the file holds, or has written it (`adopted`);
and what it has overwritten without (`lost`). A document counts as adopted when
a reload returns `True`, or when the start-up lays it over the blank
configuration.
-/

namespace FlashNext.Gateway

open Python

/-! ## The file -/

/-- The file: its text and its identity. A file that cannot be read is one that
    does not parse. -/
structure File where
  text : Text
  stamp : Stamp

/-- The file, and what the gateway knows of it. -/
structure Disk where
  file : Option File
  /-- The gateway has written what the file holds, or has read and adopted it. -/
  adopted : Bool
  /-- What the gateway has overwritten without having adopted it. -/
  lost : List Text

namespace Disk

/-- `_stat`. -/
def stat (d : Disk) : Option Stamp := d.file.map (·.stamp)

/-- The text that a read finds. -/
def text (d : Disk) : Option Text := d.file.map (·.text)

/-- Another process puts a file in place, or removes it. -/
def edit (d : Disk) (f : Option File) : Disk := { d with file := f, adopted := false }

/-- Edits, one after the other. -/
def edits (d : Disk) (fs : List (Option File)) : Disk := fs.foldl edit d

/-- The gateway has read and adopted what the file holds. -/
def adopt (d : Disk) : Disk := { d with adopted := true }

/-- `os.replace`, by the gateway. -/
def replace (d : Disk) (text : Text) (stamp : Stamp) : Disk where
  file := some ⟨text, stamp⟩
  adopted := true
  lost := if d.adopted then d.lost else d.lost ++ d.text.toList

end Disk

/-- What a save draws from outside. -/
structure SaveCalls where
  /-- The edits before the file is replaced. -/
  before : List (Option File)
  /-- The exception that keeps the file from being replaced, if any. -/
  failed : Option Err
  /-- The identity of the file put in place. -/
  stamp : Stamp
  /-- The edits between the replacement and the `stat` that follows it. -/
  after : List (Option File)

/-- What the save returns: the `stat` after it. -/
def SaveCalls.saved (c : SaveCalls) : Except Err (Option Stamp) :=
  match c.failed with
  | some e => .error e
  | none =>
    match c.after.getLast? with
    | some f => .ok (f.map (·.stamp))
    | none => .ok (some c.stamp)

/-- What the save does to the file. -/
def Disk.save (d : Disk) (text : Text) (c : SaveCalls) : Disk :=
  match c.failed with
  | some _ => d.edits c.before
  | none => ((d.edits c.before).replace text c.stamp).edits c.after

/-! ## The process -/

/-- A `label` request that awaits its body. -/
structure Pending where
  kid : Str
  /-- The position found in the list of keys. -/
  idx : Nat
  /-- Which list it is: that of `Config.gen` at the time. -/
  gen : Nat

/-- The gateway process. -/
structure Proc where
  app : App
  /-- The ticks of the watcher. -/
  tick : Nat
  /-- The watcher is running: a flush that raises ends it. -/
  watching : Bool
  pending : List Pending
  /-- The lists of keys of earlier generations, which only pending requests hold. -/
  stale : Nat → List Val

/-- The state of the system. -/
structure State where
  disk : Disk
  /-- The process, if it is running. -/
  proc : Option Proc

/-- What a reload of the watcher draws from outside. -/
structure WatchCalls where
  /-- The edits between the `stat` and the read. -/
  gap : List (Option File)
  fresh : Fresh
  save : SaveCalls

/-- What a tick of the watcher draws from outside. -/
structure TickCalls where
  reload : WatchCalls
  flush : SaveCalls

/-- What a start-up draws from outside. -/
structure StartCalls where
  upstream : Str
  upstreamKey : Str
  fresh : Fresh
  save : SaveCalls
  /-- The URL to advertise, if the configuration has none. -/
  url : Str
  /-- The save of that URL. -/
  saveUrl : SaveCalls

/-- The steps of the system. -/
inductive Label
  | edit (f : Option File)
  | start (c : StartCalls)
  | proxy (req : Request) (now : Flt)
  | admin (req : AdminRequest) (fresh : Fresh) (c : SaveCalls)
  /-- The body of the pending request at this position is there. -/
  | finish (i : Nat) (body : Except Err Val) (c : SaveCalls)
  | tick (c : TickCalls)
  | stop (c : SaveCalls)

/-- A save of the configuration `cfg`, and the answer given if it succeeds. -/
def commit (d : Disk) (cfg : Config) (answer : Reply) (c : SaveCalls) : Disk × Config × Reply :=
  let saved := cfg.save c.saved
  (d.save (dumps cfg.data) c, saved.1,
    match saved.2 with
    | .ok _ => answer
    | .error e => .raised e)

/-- The start-up has read the file: it has adopted a document that it has laid
    over the blank configuration. -/
def Disk.layOver (d : Disk) : Disk :=
  match d.text with
  | some (.doc v) => if (Dict.update blank v).2 = none then d.adopt else d
  | _ => d

/-- A process that starts to serve. -/
def Proc.fresh (cfg : Config) (c : StartCalls) : Proc where
  app := { cfg := cfg, upstream := c.upstream, upstreamKey := c.upstreamKey, dirty := false }
  tick := 0
  watching := true
  pending := []
  stale _ := []

/-- `Config(path)` and `main`, up to `web.run_app`; the process ends when an
    exception is raised. -/
def start (d : Disk) (c : StartCalls) : Disk × Option Proc :=
  match initData c.fresh d.text with
  | .error _ => (d, none)
  | .ok data =>
    let cfg : Config := { data := data, stamp := none, warned := none, gen := 0 }
    -- `self.save()` at the end of `__init__`, whatever was read.
    let d := d.layOver.save (dumps cfg.data) c.save
    match cfg.save c.save.saved with
    | (_, .error _) => (d, none)
    | (cfg, .ok _) =>
      if falsy cfg.data "public_url" then
        let cfg := { cfg with data := Dict.insert cfg.data (.str "public_url") (.str c.url) }
        let d := d.save (dumps cfg.data) c.saveUrl
        match cfg.save c.saveUrl.saved with
        | (_, .error _) => (d, none)
        | (cfg, .ok _) => (d, some (.fresh cfg c))
      else (d, some (.fresh cfg c))

/-- `reload_if_changed`, on the file. -/
def watch (d : Disk) (cfg : Config) (c : WatchCalls) : Disk × Reload :=
  let r := cfg.reloadIfChanged ⟨d.stat, (d.edits c.gap).text, c.fresh, c.save.saved⟩
  match r.wrote with
  | some text => ((d.edits c.gap).adopt.save text c.save, r)
  | none => (d.edits c.gap, r)

/-- The watcher after the reload of a tick. The list of keys that the reload
    replaces lives on in the requests that hold it. -/
def Proc.reloaded (p : Proc) (r : Reload) : Proc :=
  { p with
    app := { p.app with
      cfg := r.cfg
      dirty := if r.result = .ok true then false else p.app.dirty }
    tick := p.tick + 1
    stale := if r.cfg.gen = p.app.cfg.gen then p.stale
      else Function.update p.stale p.app.cfg.gen (entries p.app.cfg.data) }

/-- The periodic flush. -/
def Proc.flush (p : Proc) (d : Disk) (c : SaveCalls) : Disk × Proc :=
  if p.tick % 10 = 0 ∧ p.app.dirty then
    match p.app.cfg.save c.saved with
    | (cfg, .ok text) =>
      (d.save text c, { p with app := { p.app with cfg := cfg, dirty := false } })
    -- Unlike that of the reload, this exception is not caught.
    | (_, .error _) => (d.save (dumps p.app.cfg.data) c, { p with watching := false })
  else (d, p)

/-- One round of the watcher's loop. -/
def Proc.round (p : Proc) (d : Disk) (c : TickCalls) : Disk × Proc :=
  let w := watch d p.app.cfg c.reload
  (p.reloaded w.2).flush w.1 c.flush

/-- The rest of a `label` request, on the list of keys that it holds. -/
def Proc.finish (p : Proc) (d : Disk) (h : Pending) (body : Except Err Val) (c : SaveCalls) :
    Disk × Proc × Reply :=
  if h.gen = p.app.cfg.gen then
    match labelKey (entries p.app.cfg.data) h.idx body with
    | .error e => (d, p, .raised e)
    | .ok keys =>
      let cfg := { p.app.cfg with data := setKeys p.app.cfg.data keys }
      let (d, cfg, r) := commit d cfg (okWith "keys" (.list keys)) c
      (d, { p with app := { p.app with cfg := cfg } }, r)
  else
    match labelKey (p.stale h.gen) h.idx body with
    | .error e => (d, p, .raised e)
    | .ok keys =>
      -- What is saved is the current configuration, without the label.
      let (d, cfg, r) := commit d p.app.cfg (okWith "keys" (.list keys)) c
      (d, { p with
        app := { p.app with cfg := cfg }
        stale := Function.update p.stale h.gen keys }, r)

/-- What an admin request does. -/
def Proc.admin (p : Proc) (d : Disk) (req : AdminRequest) (fresh : Fresh) (c : SaveCalls) :
    Disk × Proc × Option Reply :=
  match p.app.cfg.admin fresh req, req with
  | .reply r, _ => (d, p, some r)
  | .await idx, .keyOp kid _ =>
    (d, { p with pending := p.pending ++ [⟨kid, idx, p.app.cfg.gen⟩] }, none)
  -- Only a key operation awaits.
  | .await _, _ => (d, p, none)
  | .save data answer, _ =>
    let (d, cfg, r) := commit d { p.app.cfg with data := data } answer c
    (d, { p with app := { p.app with cfg := cfg } }, some r)

/-- One step, with the answer it gives to a client, if it does; `none` where the
    label is not enabled. -/
def State.step (s : State) : Label → Option (State × Option Reply)
  | .edit f => some (⟨s.disk.edit f, s.proc⟩, none)
  | .start c =>
    match s.proc with
    | some _ => none
    | none => let (d, p) := start s.disk c; some (⟨d, p⟩, none)
  | .proxy req now => s.proc.map fun p =>
    let (app, r) := proxy p.app req now
    (⟨s.disk, some { p with app := app }⟩, some r)
  | .admin req fresh c => s.proc.map fun p =>
    let (d, p, r) := p.admin s.disk req fresh c
    (⟨d, some p⟩, r)
  | .finish i body c => s.proc.bind fun p => p.pending[i]?.map fun h =>
    let (d, p, r) := p.finish s.disk h body c
    (⟨d, some { p with pending := p.pending.eraseIdx i }⟩, some r)
  | .tick c => s.proc.bind fun p =>
    if p.watching then
      let (d, p) := p.round s.disk c
      some (⟨d, some p⟩, none)
    else none
  | .stop c => s.proc.map fun p =>
    -- The watcher flushes when it is cancelled, if it is still running.
    if p.watching ∧ p.app.dirty then (⟨s.disk.save (dumps p.app.cfg.data) c, none⟩, none)
    else (⟨s.disk, none⟩, none)

/-- What a step does. -/
inductive State.Steps : State → Label → State → Option Reply → Prop
  | edit {d : Disk} {p : Option Proc} (f : Option File) :
      Steps ⟨d, p⟩ (.edit f) ⟨d.edit f, p⟩ none
  | start {d : Disk} (c : StartCalls) :
      Steps ⟨d, none⟩ (.start c) ⟨(start d c).1, (start d c).2⟩ none
  | proxy {d : Disk} {p : Proc} (req : Request) (now : Flt) :
      Steps ⟨d, some p⟩ (.proxy req now) ⟨d, some { p with app := (proxy p.app req now).1 }⟩
        (some (proxy p.app req now).2)
  | admin {d : Disk} {p : Proc} (req : AdminRequest) (fresh : Fresh) (c : SaveCalls) :
      Steps ⟨d, some p⟩ (.admin req fresh c)
        ⟨(p.admin d req fresh c).1, some (p.admin d req fresh c).2.1⟩ (p.admin d req fresh c).2.2
  | finish {d : Disk} {p : Proc} {i : Nat} {w : Pending} (body : Except Err Val) (c : SaveCalls) :
      p.pending[i]? = some w → Steps ⟨d, some p⟩ (.finish i body c)
        ⟨(p.finish d w body c).1, some { (p.finish d w body c).2.1 with
          pending := (p.finish d w body c).2.1.pending.eraseIdx i }⟩
        (some (p.finish d w body c).2.2)
  | tick {d : Disk} {p : Proc} (c : TickCalls) : p.watching = true →
      Steps ⟨d, some p⟩ (.tick c) ⟨(p.round d c).1, some (p.round d c).2⟩ none
  | flush {d : Disk} {p : Proc} (c : SaveCalls) : p.watching = true ∧ p.app.dirty = true →
      Steps ⟨d, some p⟩ (.stop c) ⟨d.save (dumps p.app.cfg.data) c, none⟩ none
  | stop {d : Disk} {p : Proc} (c : SaveCalls) : ¬(p.watching = true ∧ p.app.dirty = true) →
      Steps ⟨d, some p⟩ (.stop c) ⟨d, none⟩ none

/-- A step that is enabled is one of these. -/
theorem State.steps_of_step {s s' : State} {a : Label} {r : Option Reply}
    (h : s.step a = some (s', r)) : s.Steps a s' r := by
  obtain ⟨d, _ | p⟩ := s
  · -- Without a process, there are edits and the start.
    cases a with
    | edit f =>
      obtain ⟨rfl, rfl⟩ := by simpa [State.step] using h
      exact .edit f
    | start c =>
      obtain ⟨rfl, rfl⟩ := by simpa [State.step] using h
      exact .start c
    | _ => simp [State.step] at h
  · cases a with
    | edit f =>
      obtain ⟨rfl, rfl⟩ := by simpa [State.step] using h
      exact .edit f
    | start c => simp [State.step] at h
    | proxy req now =>
      obtain ⟨rfl, rfl⟩ := by simpa [State.step] using h
      exact .proxy req now
    | admin req fresh c =>
      obtain ⟨rfl, rfl⟩ := by simpa [State.step] using h
      exact .admin req fresh c
    | finish i body c =>
      obtain ⟨w, hw, rfl, rfl⟩ := by simpa [State.step] using h
      exact .finish body c hw
    | tick c =>
      obtain ⟨hw, rfl, rfl⟩ := by simpa [State.step] using h
      exact .tick c hw
    | stop c =>
      by_cases hflush : p.watching = true ∧ p.app.dirty = true
      · obtain ⟨rfl, rfl⟩ := by simpa [State.step, hflush] using h
        exact .flush c hflush
      · obtain ⟨rfl, rfl⟩ := by simpa [State.step, hflush] using h
        exact .stop c hflush

/-- Initially the process is not running; there may be a file. -/
def State.Initial (s : State) : Prop := s.proc = none ∧ s.disk.lost = [] ∧ s.disk.adopted = false

/-- The gateway. -/
def server : System State Label :=
  .ofStep State.Initial fun s a => (s.step a).map (·.1)

theorem server_step {s s' : State} {a : Label} {r : Option Reply} (h : s.step a = some (s', r)) :
    server.step s a s' := by
  change (s.step a).map (·.1) = some s'
  rw [h]
  rfl

/-- A run that is replayed reaches a reachable state. -/
theorem server_replay {s s' : State} (hs : s.Initial) {l : List Label}
    (h : l.foldlM (fun s a => (s.step a).map (·.1)) s = some s') : server.Reachable s' :=
  System.Reachable.foldlM hs h

/-- The state after the steps with the given labels. -/
def State.run (s : State) (l : List Label) : Option State :=
  l.foldlM (fun s a => (s.step a).map (·.1)) s

/-- The labels, replayed from a state, meet the condition at every step. -/
abbrev State.Obeys (G : State → Label → Prop) : State → List Label → Prop :=
  System.Obeys (fun s a => (s.step a).map (·.1)) G

/-- A run that is replayed, and whose steps meet the condition. -/
theorem State.leads_of_run {G : State → Label → Prop} {s s' : State} {l : List Label}
    (hl : s.Obeys G l) (h : s.run l = some s') : (server.restrict G).Leads s s' :=
  System.Leads.replay hl h

/-! ## Samples -/

/-- A save that is not disturbed, and puts a file with the identity `(n, n, n)` in
    place. -/
def SaveCalls.undisturbed (n : Nat) : SaveCalls where
  before := []
  failed := none
  stamp := ⟨n, n, n⟩
  after := []

/-- A start-up. -/
def startUp : StartCalls where
  upstream := "http://127.0.0.1:18300"
  upstreamKey := []
  fresh := ⟨str "admin", str "a1", str "secret", .fin 0⟩
  save := .undisturbed 1
  url := "http://192.168.1.2:8080/v1"
  saveUrl := .undisturbed 2

/-- A state without a process, and with the file `f`. -/
def State.down (f : Option File) : State := ⟨⟨f, false, []⟩, none⟩

end FlashNext.Gateway
