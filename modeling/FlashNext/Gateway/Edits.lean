import FlashNext.Gateway.Reload
import FlashNext.Gateway.Server

/-!
# External edits

The gateway may overwrite an edit of the file that it has not adopted: it saves
without looking at the file first, it takes the identity of the file after it
has replaced it, and the periodic flush follows a reload that may have failed.

`edits_kept` says in which runs it does not: those that meet `Unhurried`,
where no save comes between an edit and its reload. The invariant behind it is
that a file with the identity that the gateway has recorded is one that it has
adopted (`Known`).
-/

namespace FlashNext.Gateway

open Python

/-! ## The condition -/

/-- The edit can be told from what the gateway has recorded. -/
def Noticeable (cfg : Config) (f : Option File) : Prop := ∀ x ∈ f, cfg.stamp ≠ some x.stamp

/-- There is no edit, or the last one removes the file. -/
def Quiet (fs : List (Option File)) : Prop := ∀ f ∈ fs.getLast?, f = none

/-- No edit comes between the save and the file operations around it. -/
def SaveCalls.Calm (c : SaveCalls) : Prop := Quiet c.before ∧ Quiet c.after

/-- There is no file, or it has the identity that the gateway has recorded. -/
def Current (d : Disk) (cfg : Config) : Prop := d.file = none ∨ d.stat = cfg.stamp

/-- A file that a start-up does not overwrite before it has adopted it: it holds
    a document that can be laid over the blank configuration, or one that makes
    the start-up fail. -/
def StartsOver : Option Text → Prop
  | some (.doc v) => Dict.Updatable v ∨ v.truthy = true
  | some (.junk _) => False
  | _ => True

/-- What the reload of a tick is given. -/
def WatchCalls.reloadCalls (c : WatchCalls) (d : Disk) : ReloadCalls :=
  ⟨d.stat, (d.edits c.gap).text, c.fresh, c.save.saved⟩

/-- A flush after the reload finds the file as it should be: there is none, or
    it has not changed, or the reload adopts it. -/
def FlushSafe (d : Disk) (cfg : Config) (c : WatchCalls) : Prop :=
  (d.edits c.gap).file = none ∨ (c.gap = [] ∧ d.stat = cfg.stamp) ∨
    ¬Untouched cfg (c.reloadCalls d) ∧ c.save.failed = none ∧
      ∃ disk, (d.edits c.gap).text = some (.doc disk) ∧ Mergeable cfg.data disk

/-- The list of keys that a pending request holds. -/
def Proc.heldKeys (p : Proc) (h : Pending) : List Val :=
  if h.gen = p.app.cfg.gen then entries p.app.cfg.data else p.stale h.gen

/-- The condition on the steps of a run: an edit can be noticed; the process
    starts over no file, or over one that it can adopt; a request or a shutdown
    that saves finds the file unchanged; a tick that flushes finds it unchanged
    or adopts it; and no edit comes between the file operations of a save. -/
def Unhurried (s : State) : Label → Prop
  | .edit f => ∀ p ∈ s.proc, Noticeable p.app.cfg f
  | .start c => StartsOver s.disk.text ∧ c.save.Calm ∧ c.saveUrl.Calm
  | .proxy _ _ => True
  | .admin req fresh c => ∀ p ∈ s.proc, ∀ data answer,
      p.app.cfg.admin fresh req = .save data answer → Current s.disk p.app.cfg ∧ c.Calm
  | .finish i body c => ∀ p ∈ s.proc, ∀ h ∈ p.pending[i]?, ∀ keys,
      labelKey (p.heldKeys h) h.idx body = .ok keys → Current s.disk p.app.cfg ∧ c.Calm
  | .tick c => ∀ p ∈ s.proc,
      (∀ f ∈ c.reload.gap, Noticeable p.app.cfg f) ∧ c.reload.save.Calm ∧
        ((p.tick + 1) % 10 = 0 → p.app.dirty = true →
          FlushSafe s.disk p.app.cfg c.reload ∧ c.flush.Calm)
  | .stop c => ∀ p ∈ s.proc, p.watching = true → p.app.dirty = true →
      Current s.disk p.app.cfg ∧ c.Calm

/-! ## The invariant -/

/-- Nothing is lost, and a save would lose nothing: there is no file, or the
    gateway has adopted it. -/
def Disk.Kept (d : Disk) : Prop := d.lost = [] ∧ (d.file = none ∨ d.adopted = true)

/-- Nothing is lost, and the file is one that the gateway has adopted if it has
    the identity recorded. -/
def Disk.Known (d : Disk) (cfg : Config) : Prop :=
  d.lost = [] ∧ (d.stat = cfg.stamp → d.file = none ∨ d.adopted = true)

/-- Nothing is lost, and a running process knows the file. -/
def State.Known (s : State) : Prop := s.disk.lost = [] ∧ ∀ p ∈ s.proc, s.disk.Known p.app.cfg

section Disk

variable {d : Disk} {cfg : Config} {c : SaveCalls} {fs : List (Option File)}

theorem Disk.Kept.known (h : d.Kept) (cfg : Config) : d.Known cfg := ⟨h.1, fun _ => h.2⟩

/-- A running process that knows the file. -/
theorem Disk.Known.running {p : Proc} (h : d.Known p.app.cfg) : State.Known ⟨d, some p⟩ := by
  refine ⟨h.1, fun q hq => ?_⟩
  obtain rfl := Option.some.inj hq
  exact h

/-- Without a process, it is enough that nothing is lost. -/
theorem State.Known.down (h : d.lost = []) : State.Known ⟨d, none⟩ := ⟨h, nofun⟩

/-- A current file that is known is kept. -/
theorem Disk.Known.kept (h : d.Known cfg) (hc : Current d cfg) : d.Kept :=
  ⟨h.1, hc.elim .inl h.2⟩

@[simp] theorem Disk.edits_lost : (d.edits fs).lost = d.lost := by
  induction fs generalizing d with
  | nil => rfl
  | cons f fs ih => exact ih

theorem Disk.edits_concat (f : Option File) : d.edits (fs ++ [f]) = (d.edits fs).edit f := by
  simp [Disk.edits]

/-- After edits, the file is that of the last one. -/
theorem Disk.edits_file {f : Option File} (h : fs.getLast? = some f) : (d.edits fs).file = f := by
  obtain ⟨fs, rfl⟩ := List.getLast?_eq_some_iff.1 h
  rw [Disk.edits_concat]
  rfl

theorem Disk.Kept.edits (h : d.Kept) (hq : Quiet fs) : (d.edits fs).Kept := by
  refine ⟨by rw [Disk.edits_lost, h.1], ?_⟩
  cases hl : fs.getLast? with
  | none =>
    rw [List.getLast?_eq_none_iff.1 hl]
    exact h.2
  | some f => exact .inl ((Disk.edits_file hl).trans (hq f hl))

/-- A file that is known stays known after edits that can be noticed. -/
theorem Disk.Known.edits (h : d.Known cfg) (hn : ∀ f ∈ fs, Noticeable cfg f) :
    (d.edits fs).Known cfg := by
  refine ⟨by rw [Disk.edits_lost, h.1], fun hst => ?_⟩
  cases hl : fs.getLast? with
  | none =>
    rw [List.getLast?_eq_none_iff.1 hl] at hst ⊢
    exact h.2 hst
  | some f =>
    have hf := Disk.edits_file (d := d) hl
    cases f with
    | none => exact .inl hf
    | some x =>
      -- The last edit has another identity than the recorded one.
      rw [Disk.stat, hf] at hst
      exact absurd hst.symm (hn _ (List.mem_of_getLast? hl) x rfl)

/-- Replacing a file that is kept loses nothing. -/
theorem Disk.Kept.replace (h : d.Kept) (text : Text) (stamp : Stamp) :
    (d.replace text stamp).Kept := by
  refine ⟨?_, .inr rfl⟩
  rcases h.2 with hf | ha
  · simp [Disk.replace, Disk.text, h.1, hf]
  · simp [Disk.replace, h.1, ha]

/-- A save between whose file operations no edit comes keeps the file. -/
theorem Disk.Kept.save (h : d.Kept) (hc : c.Calm) (text : Text) : (d.save text c).Kept := by
  unfold Disk.save
  split
  · exact h.edits hc.1
  · exact ((h.edits hc.1).replace _ _).edits hc.2

end Disk

/-! ## The steps -/

/-- A start-up that reads a file which it can adopt adopts it. -/
theorem layOver_kept {d : Disk} (hl : d.lost = []) {fresh : Fresh} {data : Dict}
    (ho : StartsOver d.text) (hi : initData fresh d.text = .ok data) : d.layOver.Kept := by
  cases hf : d.file with
  | none => simpa [Disk.layOver, Disk.text, hf] using ⟨hl, .inl hf⟩
  | some f =>
    have ht : d.text = some f.text := by simp [Disk.text, hf]
    rw [ht] at hi ho
    cases hft : f.text with
    | junk b => rw [hft] at ho; exact ho.elim
    | deep b => rw [hft] at hi; cases hi
    | doc v =>
      rw [hft] at hi ho ht
      by_cases hu : (Dict.update blank v).2 = none
      · simpa [Disk.layOver, ht, hu] using ⟨hl, .inr rfl⟩
      · -- Such a document is not an empty one, and the start-up fails on it.
        have hv : v.truthy = true := ho.resolve_left fun h => hu ((Dict.update_ok_iff _ _).2 h)
        obtain ⟨e, he⟩ := Option.ne_none_iff_exists'.1 hu
        have : initData fresh (some (.doc v)) = .error e := by
          cases v with
          | none => cases hv
          | _ =>
            simp only [initData, read, Text.loads, hv, bind, Except.bind, if_true]
            rw [← Prod.mk.eta (p := Dict.update blank _), he]
            rfl
        rw [this] at hi
        cases hi

/-- A start-up over a file that it can adopt, or over none, loses nothing. -/
theorem start_known {d : Disk} (hl : d.lost = []) {c : StartCalls} (ho : StartsOver d.text)
    (hc : c.save.Calm) (hc' : c.saveUrl.Calm) :
    State.Known ⟨(start d c).1, (start d c).2⟩ := by
  have of_kept : ∀ {d : Disk} (p : Option Proc), d.Kept → State.Known ⟨d, p⟩ :=
    fun p h => ⟨h.1, fun p _ => h.known _⟩
  cases hi : initData c.fresh d.text with
  | error e =>
    rw [start, hi]
    exact ⟨hl, fun p hp => by cases hp⟩
  | ok data =>
    have hone := fun text => (layOver_kept hl ho hi).save hc text
    have htwo := fun text text' => (hone text).save hc' text'
    simp only [start, hi]
    split
    · exact of_kept _ (hone _)
    · split_ifs
      · split
        · exact of_kept _ (htwo _ _)
        · exact of_kept _ (htwo _ _)
      · exact of_kept _ (hone _)

/-- A reload either writes nothing, and leaves the recorded identity as it is, or
    returns `True`. -/
theorem reload_wrote (cfg : Config) (calls : ReloadCalls) :
    ((cfg.reloadIfChanged calls).wrote = none ∧
      (cfg.reloadIfChanged calls).cfg.stamp = cfg.stamp ∧
      (cfg.reloadIfChanged calls).result ≠ .ok true) ∨
    ((∃ text, (cfg.reloadIfChanged calls).wrote = some text) ∧
      (cfg.reloadIfChanged calls).result = .ok true) := by
  rcases reload_cases cfg calls with ⟨_, _, _, hst, hw, hr⟩ |
    ⟨_, _, _, _, _, _, ⟨_, _, _, _, h⟩ | ⟨_, _, _, ⟨_, _, h⟩ | ⟨_, _, h⟩⟩⟩
  · exact .inl ⟨hw, hst, hr⟩
  · exact .inl (by simp [h])
  · exact .inr (by simp [h])
  · exact .inl (by simp [h])

/-- A reload that is given a mergeable document, and whose save succeeds, returns
    `True`. -/
theorem reload_of_mergeable {cfg : Config} {calls : ReloadCalls} (hu : ¬Untouched cfg calls)
    {disk : Val} (ht : calls.text = some (.doc disk)) (hm : Mergeable cfg.data disk)
    {st : Option Stamp} (hs : calls.saved = .ok st) :
    (cfg.reloadIfChanged calls).result = .ok true := by
  rcases reload_cases cfg calls with ⟨h, _⟩ |
    ⟨_, _, _, ht', _, _, ⟨_, _, _, hm', _⟩ | ⟨_, _, _, ⟨_, _, h⟩ | ⟨_, hs', _⟩⟩⟩
  · exact absurd h hu
  · obtain rfl := Text.doc.inj (Option.some.inj (ht.symm.trans ht'))
    exact absurd hm hm'
  · rw [h]
  · rw [hs] at hs'; cases hs'

/-- The file after the reload of a tick: it is kept if the reload returns `True`,
    and known in any case. -/
theorem watch_known {d : Disk} {cfg : Config} (h : d.Known cfg) {c : WatchCalls}
    (hn : ∀ f ∈ c.gap, Noticeable cfg f) (hc : c.save.Calm) :
    ((watch d cfg c).2.result = .ok true → (watch d cfg c).1.Kept) ∧
      (watch d cfg c).1.Known (watch d cfg c).2.cfg ∧
      ((watch d cfg c).2.result ≠ .ok true → (watch d cfg c).1 = d.edits c.gap) := by
  rcases reload_wrote cfg (c.reloadCalls d) with ⟨hw, hst, hr⟩ | ⟨⟨text, hw⟩, hr⟩
  · -- The file is what the edits have made of it.
    rw [WatchCalls.reloadCalls] at hw hst hr
    simp only [watch, hw]
    refine ⟨fun h => absurd h hr, ?_, fun _ => trivial⟩
    rw [Disk.Known, hst]
    exact h.edits hn
  · -- The reload has adopted the file before it saves over it.
    rw [WatchCalls.reloadCalls] at hw hr
    simp only [watch, hw]
    have hadopt : (d.edits c.gap).adopt.Kept := ⟨Disk.edits_lost.trans h.1, .inr rfl⟩
    have hk := hadopt.save hc text
    exact ⟨fun _ => hk, hk.known _, fun h => absurd hr h⟩

/-- A flush that finds a kept file keeps it. -/
theorem flush_known {d : Disk} {p : Proc} (h : d.Known p.app.cfg) {c : SaveCalls}
    (hf : p.tick % 10 = 0 → p.app.dirty = true → d.Kept ∧ c.Calm) :
    (p.flush d c).1.Known (p.flush d c).2.app.cfg := by
  unfold Proc.flush
  split_ifs with hdue
  · obtain ⟨hk, hc⟩ := hf hdue.1 hdue.2
    split
    · exact (hk.save hc _).known _
    · exact (hk.save hc _).known _
  · exact h

/-- A round of the watcher that meets the condition leaves a file that is known. -/
theorem round_known {d : Disk} {p : Proc} (h : d.Known p.app.cfg) {c : TickCalls}
    (hn : ∀ f ∈ c.reload.gap, Noticeable p.app.cfg f) (hc : c.reload.save.Calm)
    (hf : (p.tick + 1) % 10 = 0 → p.app.dirty = true →
      FlushSafe d p.app.cfg c.reload ∧ c.flush.Calm) :
    (p.round d c).1.Known (p.round d c).2.app.cfg := by
  obtain ⟨-, hknown, hedits⟩ := watch_known h hn hc
  refine flush_known hknown fun hdue hdirty => ?_
  -- A flush that is due follows a reload that did not return `True`.
  have hr : (watch d p.app.cfg c.reload).2.result ≠ .ok true := fun hr => by
    simp [Proc.reloaded, hr] at hdirty
  obtain ⟨hs, hcalm⟩ := hf hdue (by simpa [Proc.reloaded, hr] using hdirty)
  refine ⟨?_, hcalm⟩
  rw [hedits hr]
  rcases hs with hnone | ⟨hgap, hst⟩ | ⟨hu, hfail, disk, ht, hm⟩
  · exact ⟨Disk.edits_lost.trans h.1, .inl hnone⟩
  · rw [hgap]
    exact h.kept (.inr hst)
  · -- Such a reload would have returned `True`.
    obtain ⟨st, hs⟩ : ∃ st, c.reload.save.saved = .ok st := by
      rw [SaveCalls.saved, hfail]
      cases c.reload.save.after.getLast? <;> exact ⟨_, rfl⟩
    have htrue := reload_of_mergeable hu ht hm hs
    refine absurd ?_ hr
    rcases reload_wrote p.app.cfg (c.reload.reloadCalls d) with ⟨_, _, hne⟩ | ⟨⟨text, hw⟩, _⟩
    · exact absurd htrue hne
    · rw [WatchCalls.reloadCalls] at hw htrue
      simpa [watch, hw] using htrue

/-- The rest of a `label` request. -/
theorem finish_known {d : Disk} {p : Proc} {h : Pending} (hk : d.Known p.app.cfg)
    {body : Except Err Val} {c : SaveCalls}
    (hc : ∀ keys, labelKey (p.heldKeys h) h.idx body = .ok keys → Current d p.app.cfg ∧ c.Calm) :
    (p.finish d h body c).1.Known (p.finish d h body c).2.1.app.cfg := by
  rw [Proc.heldKeys] at hc
  unfold Proc.finish
  split_ifs with hgen
  · rw [if_pos hgen] at hc
    split
    · exact hk
    · obtain ⟨hcur, hcalm⟩ := hc _ ‹_›
      exact ((hk.kept hcur).save hcalm _).known _
  · rw [if_neg hgen] at hc
    split
    · exact hk
    · obtain ⟨hcur, hcalm⟩ := hc _ ‹_›
      exact ((hk.kept hcur).save hcalm _).known _

/-- An admin request. -/
theorem admin_known {d : Disk} {p : Proc} (hk : d.Known p.app.cfg) {req : AdminRequest}
    {fresh : Fresh} {c : SaveCalls}
    (hc : ∀ data answer, p.app.cfg.admin fresh req = .save data answer →
      Current d p.app.cfg ∧ c.Calm) :
    (p.admin d req fresh c).1.Known (p.admin d req fresh c).2.1.app.cfg := by
  unfold Proc.admin
  split
  · exact hk
  · exact hk
  · exact hk
  · obtain ⟨hcur, hcalm⟩ := hc _ _ ‹_›
    exact ((hk.kept hcur).save hcalm _).known _

/-- The proxy leaves the recorded identity as it is. -/
theorem proxy_stamp (app : App) (req : Request) (now : Flt) :
    (proxy app req now).1.cfg.stamp = app.cfg.stamp := by
  unfold proxy
  split_ifs
  · split
    · rfl
    · rfl
    · split <;> rfl
  · rfl

/-- A step that meets the condition preserves the invariant. -/
theorem step_known {s s' : State} {a : Label} {r : Option Reply} (h : s.Known) (hc : Unhurried s a)
    (hs : s.step a = some (s', r)) : s'.Known := by
  cases State.steps_of_step hs with
  | @edit d p f =>
    refine ⟨h.1, fun p hp => (h.2 p hp).edits (show ∀ g ∈ [f], Noticeable p.app.cfg g from ?_)⟩
    simpa using hc p hp
  | start c => exact start_known h.1 hc.1 hc.2.1 hc.2.2
  | @proxy d p req now =>
    refine Disk.Known.running ?_
    rw [Disk.Known, proxy_stamp]
    exact h.2 p rfl
  | @admin d p req fresh c => exact (admin_known (h.2 p rfl) (hc p rfl)).running
  | @finish d p i w body c hw =>
    exact Disk.Known.running (finish_known (h.2 p rfl) (hc p rfl w hw))
  | @tick d p c =>
    obtain ⟨hn, hcalm, hf⟩ := hc p rfl
    exact (round_known (h.2 p rfl) hn hcalm hf).running
  | @flush d p c hflush =>
    obtain ⟨hcur, hcalm⟩ := hc p rfl hflush.1 hflush.2
    exact .down (((h.2 p rfl).kept hcur).save hcalm _).1
  | stop => exact .down h.1

/-- In a run whose steps meet the condition, no edit is lost: the gateway never
    overwrites what it has not adopted. -/
theorem edits_kept {s : State} (hs : (server.restrict Unhurried).Reachable s) :
    s.disk.lost = [] := by
  have hk : s.Known := hs.invariant
    (fun s h => ⟨h.2.1, fun p hp => by rw [h.1] at hp; cases hp⟩)
    fun s a s' h ⟨hc, hstep⟩ => by
      obtain ⟨⟨t, r⟩, ht, rfl⟩ := Option.map_eq_some_iff.1 hstep
      exact step_known h hc ht
  exact hk.1

/-! ## Runs -/

theorem SaveCalls.Calm.undisturbed (n : Nat) : (SaveCalls.undisturbed n).Calm := by
  simp [Calm, SaveCalls.undisturbed, Quiet]

/-- An edit that puts another key in place. -/
def otherKey : File where
  text := .doc (.dict [(.str "keys",
    .list [.dict [(.str "id", .str "b1"), (.str "key", .str "sk-other")]])])
  stamp := ⟨3, 3, 3⟩

/-- A tick of the watcher. -/
def tickOnce : TickCalls where
  reload := { gap := [], fresh := ⟨str "t1", str "c1", str "t2", .fin 0⟩, save := .undisturbed 4 }
  flush := .undisturbed 5

/-- An edit that is followed by a tick is adopted. -/
theorem edits_kept_tick :
    ∃ s, [Label.start startUp, .edit (some otherKey), .tick tickOnce].foldlM
        (fun s a => (s.step a).map (·.1)) (State.down none) = some s ∧ s.disk.lost = [] := by
  refine ⟨_, rfl, edits_kept (.step (a := .tick tickOnce) (.step (a := .edit (some otherKey))
    (.step (a := .start startUp) (.init (s := State.down none) ⟨rfl, rfl, rfl⟩)
      ⟨⟨trivial, .undisturbed 1, .undisturbed 2⟩, rfl⟩) ⟨?_, rfl⟩) ⟨?_, rfl⟩)⟩
  · rintro p ⟨⟩ x ⟨⟩
    decide
  · rintro p ⟨⟩
    exact ⟨by simp [tickOnce], .undisturbed 4, fun hdue => absurd hdue (by decide)⟩

/-- An edit is lost when a key is created before the next tick; and a file that
    does not parse is lost when the gateway starts over it. -/
theorem edits_lost :
    (∃ s, server.Reachable s ∧ s.disk.lost = [otherKey.text]) ∧
    ∃ s, server.Reachable s ∧ s.disk.lost = [.junk [123]] :=
  ⟨⟨_, server_replay (s := State.down none) ⟨rfl, rfl, rfl⟩ (l := [.start startUp,
      .edit (some otherKey),
      .admin (.create none) ⟨str "t1", str "c1", str "t2", .fin 0⟩ (.undisturbed 4)]) rfl, rfl⟩,
  ⟨_, server_replay (s := State.down (some ⟨.junk [123], ⟨0, 0, 0⟩⟩)) ⟨rfl, rfl, rfl⟩
    (l := [.start startUp]) rfl, rfl⟩⟩

end FlashNext.Gateway
