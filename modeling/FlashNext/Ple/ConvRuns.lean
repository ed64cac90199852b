import FlashNext.Ple.ConvDispatch
import FlashNext.Entries
import FlashNext.System

/-!
# Runs of the short convolution

The states of the requests live in a pool across the batches. Between two batches the
engine admits and releases requests, takes tokens back that it had only drafted, moves the
state of a request to another slot or gives another request a copy of it, and uses the
other slots as it likes.

A request has its inputs as a stream for each channel; before its first token, it is
quiet (`ConvEntry`). In every run whose batches feed the requests from their streams
(`Fed`), and whatever the batches are made of, every token adds the output of the filter
of the stream of its request (`served_of_occurs`): neither the other requests nor the
kind of the launch, the chunks or the slots can be told from it.
-/

namespace FlashNext.Ple

/-- What the engine holds of a request. -/
structure ConvEntry (V : Type*) where
  slot : Int
  /-- The inputs, in each channel. -/
  stream : Nat → Int → V
  /-- The position of the next token. -/
  pos : Nat
  /-- Where in the state the window of that position is. -/
  off : Nat
  /-- Whether the request has had a chunk. -/
  started : Bool

/-- The memory, and the requests with a state. -/
structure ConvRun (V : Type*) where
  memory : ConvCell → V
  entries : Nat → Option (ConvEntry V)

/-- What happens. -/
inductive ConvLabel (V : Type*)
  | join (id : Nat) (slot : Int) (stream : Nat → Int → V)
  /-- The tokens from the next position on are others: drafts are rejected. -/
  | edit (id : Nat) (stream : Nat → Int → V)
  /-- The window of a request goes to a slot, for this or for another request. -/
  | copy (id id' : Nat) (slot : Int) (off : Nat)
  | release (id : Nat)
  /-- The slots of no request are written, and the outputs. -/
  | write
  /-- A batch, the launch and the place in it of each request, and how many tokens of
      each are kept. -/
  | batch (metadata : ConvMetadata) (b : ConvBatch V) (place : Nat → Option (ConvArgs V × Nat))
      (kept : Nat → Nat)

variable {V W A : Type*}

/-- The entry behind a chunk of which `k` tokens are kept. Drafts leave the window of the
    position behind the last of these at an offset. -/
def ConvEntry.next (e : ConvEntry V) (a : ConvArgs V) (k : Nat) : ConvEntry V :=
  { e with pos := e.pos + k, off := if a.mode = .spec then k - 1 else 0, started := true }

namespace ConvRun

variable (s : ConvRun V)

/-- The slot is that of no request. -/
def Free (slot : Int) : Prop := ∀ id e, s.entries id = some e → e.slot ≠ slot

/-- The entries behind a batch. -/
def advance (place : Nat → Option (ConvArgs V × Nat)) (kept : Nat → Nat) (id : Nat) :
    Option (ConvEntry V) :=
  (s.entries id).map fun e =>
    match place id with
    | some (a, _) => e.next a (kept id)
    | none => e

end ConvRun

namespace ConvLayer

/-- A request of a launch is fed: with its slot, with its inputs from the next position
    on, and with what is known of its state. -/
structure Fed (layer : ConvLayer V W A) (e : ConvEntry V) (a : ConvArgs V) (r k : Nat) : Prop where
  req : r < a.numReqs
  slot : a.sid r = e.slot
  inputs : ∀ c < layer.channels, ∀ j < a.qlen r,
    a.inputs (a.row (a.qStart r + j)) c = e.stream c (e.pos + j)
  initial : a.hasInit r = e.started
  off : a.slotOff r = e.off
  kept_pos : 0 < k
  kept_le : k ≤ a.qlen r
  /-- Only drafts are taken back, and there is room for their windows. -/
  drafts : if a.mode = .spec then a.qlen r ≤ a.specQueryLen else k = a.qlen r

variable (self : ConvLayer V W A)

/-- The steps. -/
def convStep (s : ConvRun V) : ConvLabel V → ConvRun V → Prop
  | .join id slot stream, s' =>
    slot ≠ self.nullStateId ∧ s.Free slot ∧ (∀ c, ∀ q < 0, stream c q = self.zero) ∧
      s' = { s with entries := Function.update s.entries id (some ⟨slot, stream, 0, 0, false⟩) }
  | .edit id stream, s' =>
    ∃ e, s.entries id = some e ∧ (∀ c, ∀ q < (e.pos : Int), stream c q = e.stream c q) ∧
      s' = { s with entries := Function.update s.entries id (some { e with stream := stream }) }
  | .copy id id' slot off, s' =>
    ∃ e, s.entries id = some e ∧ slot ≠ self.nullStateId ∧ s.Free slot ∧
      (∀ w < self.stateLen, ∀ c < self.channels,
        s'.memory (.state slot (off + w) c) = s.memory (.state e.slot (e.off + w) c)) ∧
      (∀ slot', slot' ≠ slot → ∀ w c,
        s'.memory (.state slot' w c) = s.memory (.state slot' w c)) ∧
      s'.entries = Function.update s.entries id' (some { e with slot := slot, off := off })
  | .release id, s' => s' = { s with entries := Function.update s.entries id none }
  | .write, s' =>
    s'.entries = s.entries ∧ ∀ id e, s.entries id = some e → ∀ w c,
      s'.memory (.state e.slot w c) = s.memory (.state e.slot w c)
  | .batch metadata b place kept, s' =>
    SoundBatch self (metadata.launches b) ∧
      self.dispatch metadata b s.memory = .ok s'.memory ∧
      s'.entries = s.advance place kept ∧
      (∀ id e, s.entries id = some e → ∀ a r, place id = some (a, r) →
        a ∈ metadata.launches b ∧ Fed self e a r (kept id)) ∧
      ∀ id e, s.entries id = some e → place id = none →
        ∀ a ∈ metadata.launches b, ∀ r < a.numReqs, a.sid r ≠ e.slot

/-- The runs: at the start, there are no requests. -/
def convSystem : System (ConvRun V) (ConvLabel V) where
  init s := ∀ id, s.entries id = none
  step := self.convStep

/-! ## The invariant -/

/-- The state of a request holds the window of its next position. -/
structure Keeps (layer : ConvLayer V W A) (m : ConvCell → V) (e : ConvEntry V) : Prop where
  slot : e.slot ≠ layer.nullStateId
  quiet : ∀ c, ∀ q < 0, e.stream c q = layer.zero
  fresh : e.started = false → e.pos = 0
  window : e.started = true → ∀ c < layer.channels,
    Holds layer.stateLen (fun w => m (.state e.slot w c)) e.off (e.stream c) e.pos

/-- The requests have states of their own, and these are kept. -/
def Invariant (layer : ConvLayer V W A) (s : ConvRun V) : Prop :=
  Kept ConvEntry.slot (layer.Keeps s.memory) s.entries

variable {self} {s s' : ConvRun V} {m m' : ConvCell → V} {e : ConvEntry V} {a : ConvArgs V}
  {r k : Nat}

/-- Only its own slot matters to a request. -/
theorem Keeps.congr (h : self.Keeps m e)
    (hm : ∀ w c, m' (.state e.slot w c) = m (.state e.slot w c)) : self.Keeps m' e :=
  { h with window := fun hs c hc => (h.window hs c hc).move fun _ _ => hm _ _ }

/-- A program reads the window of a request from its state or, before its first chunk,
    zeros. -/
theorem Keeps.holds (h : self.Keeps m e) (hfed : Fed self e a r k) {c : Nat}
    (hc : c < self.channels) :
    Holds self.stateLen (self.window a m r c) (a.slotOff r) (e.stream c) e.pos := by
  have hok : self.stateOk a r = true := decide_eq_true (hfed.slot ▸ h.slot)
  have hread : self.readState a r = e.started := by
    rw [readState, hok, Bool.true_and, ← hfed.initial, ConvArgs.hasInit]
    split_ifs <;> rfl
  intro i hi
  rw [hfed.off, ConvLayer.window, hread, hfed.slot]
  cases hs : e.started with
  | true => exact h.window hs c hc i hi
  | false =>
    have hpos := h.fresh hs
    rw [if_neg (by decide), h.quiet c _ (by omega)]

/-- A request that is served has the window behind its chunk. -/
theorem Keeps.next (h : self.Keeps m e) (hfed : Fed self e a r k) (hserves : self.Serves a m m' r) :
    self.Keeps m' (e.next a k) where
  slot := h.slot
  quiet := h.quiet
  fresh hs := by cases hs
  window _ c hc := by
    have hok : self.stateOk a r = true := decide_eq_true (hfed.slot ▸ h.slot)
    have hk := hfed.kept_pos
    have hle := hfed.kept_le
    have hdrafts := hfed.drafts
    have hwin := (hserves c hc _ _ (h.holds hfed hc) (hfed.inputs c hc)).2 hok (by omega)
      (e.next a k).off
    have hpos : a.shift r + (e.next a k).off = k := by
      simp only [ConvArgs.shift, ConvEntry.next]
      split_ifs at hdrafts ⊢ <;> omega
    have hroom : (e.next a k).off + self.stateLen ≤ self.writeWidth a := by
      simp only [writeWidth, stateWidth, ConvArgs.kernelSpecQueryLen, ConvEntry.next]
      split_ifs at hdrafts ⊢ <;> omega
    have hwin := hwin hroom (by omega)
    rw [hpos, hfed.slot] at hwin
    exact_mod_cast hwin

/-- A batch leaves the state of a request that is not in it. -/
theorem Keeps.idle {metadata : ConvMetadata} {b : ConvBatch V} (h : self.Keeps m e)
    (hbatch : SoundBatch self (metadata.launches b)) (hok : self.dispatch metadata b m = .ok m')
    (hidle : ∀ a ∈ metadata.launches b, ∀ r < a.numReqs, a.sid r ≠ e.slot) : self.Keeps m' e := by
  refine h.congr fun w c => (hbatch.dispatch_spec hok).2 _ fun a ha => ?_
  rintro (⟨t, -, c', heq⟩ | ⟨r, hr, -, w', c', heq⟩)
  · cases heq
  · exact hidle a ha r hr (ConvCell.state.inj heq).1.symm

/-! ## Runs -/

/-- A batch serves a request that it feeds, as it was before the batch. -/
theorem Invariant.serves {metadata : ConvMetadata} {b : ConvBatch V}
    {place : Nat → Option (ConvArgs V × Nat)} {kept : Nat → Nat}
    (hstep : self.convStep s (.batch metadata b place kept) s') {id : Nat}
    (he : s.entries id = some e) (hplace : place id = some (a, r)) :
    Fed self e a r (kept id) ∧ self.Serves a s.memory s'.memory r := by
  obtain ⟨hbatch, hok, -, hfed, -⟩ := hstep
  obtain ⟨ha, hfed⟩ := hfed id e he a r hplace
  exact ⟨hfed, (hbatch.dispatch_spec hok).1 a ha r hfed.req⟩

/-- Every step keeps the states of the requests. -/
theorem Invariant.step (h : self.Invariant s) {l : ConvLabel V} (hstep : self.convStep s l s') :
    self.Invariant s' := by
  cases l with
  | join id slot stream =>
    obtain ⟨hnull, hfree, hquiet, rfl⟩ := hstep
    refine Kept.update h ⟨hnull, hquiet, fun _ => rfl, fun hs => (by cases hs)⟩ ?_
    exact fun id' e' _ he' => hfree id' e' he'
  | edit id stream =>
    obtain ⟨e, he, hsame, rfl⟩ := hstep
    have hkeeps := h.keeps id e he
    refine Kept.update h ⟨hkeeps.slot, fun c q hq => ?_, hkeeps.fresh, fun hs c hc => ?_⟩ ?_
    · exact (hsame c q (by omega)).trans (hkeeps.quiet c q hq)
    · exact (hkeeps.window hs c hc).congr fun q hq => (hsame c q hq).symm
    · exact fun id' e' hne he' hslot => hne (h.apart id' id e' e he' he hslot)
  | copy id id' slot off =>
    obtain ⟨e, he, hnull, hfree, hcopy, hframe, hentries⟩ := hstep
    have hkeeps := h.keeps id e he
    obtain ⟨memory, entries⟩ := s'
    obtain rfl := hentries
    have hothers : Kept ConvEntry.slot (self.Keeps memory) s.entries :=
      h.imp fun id' e' he' hkeeps => hkeeps.congr (hframe _ (hfree id' e' he'))
    refine hothers.update ⟨hnull, hkeeps.quiet, hkeeps.fresh, fun hs c hc => ?_⟩ ?_
    · exact (hkeeps.window hs c hc).move fun i hi => hcopy i hi c hc
    · exact fun id' e' _ he' => hfree id' e' he'
  | release id =>
    obtain rfl := hstep
    exact Kept.erase h id
  | write =>
    obtain ⟨hentries, hframe⟩ := hstep
    rw [Invariant, hentries]
    exact Kept.imp h fun id e he hkeeps => hkeeps.congr (hframe id e he)
  | batch metadata b place kept =>
    have hbatch := hstep
    obtain ⟨hbatch, hok, hentries, -, hidle⟩ := hbatch
    rw [Invariant, hentries]
    refine Kept.map h (fun id e => ?_) fun id e he hkeeps => ?_
    · cases place id <;> rfl
    · cases hplace : place id with
      | none => exact hkeeps.idle hbatch hok (hidle id e he hplace)
      | some x =>
        obtain ⟨hfed, hserved⟩ := Invariant.serves hstep he (a := x.1) (r := x.2) hplace
        exact hkeeps.next hfed hserved

/-- In every reachable state, the states of the requests are kept. -/
theorem invariant_of_reachable (hs : self.convSystem.Reachable s) : self.Invariant s := by
  exact hs.invariant (fun s hinit => .of_none hinit) fun s l s' h hstep => h.step hstep

/-- Whatever has happened before, every token of a request that a batch feeds adds the
    output of the filter of the stream of its request. -/
theorem served_of_occurs {metadata : ConvMetadata} {b : ConvBatch V}
    {place : Nat → Option (ConvArgs V × Nat)} {kept : Nat → Nat}
    (h : self.convSystem.Occurs s (.batch metadata b place kept) s') {q : Nat}
    (he : s.entries q = some e) (hplace : place q = some (a, r)) {c j : Nat}
    (hc : c < self.channels) (hj : j < a.qlen r) :
    s'.memory (.residual (a.row (a.qStart r + j)) c) =
      self.add (s.memory (.residual (a.row (a.qStart r + j)) c))
        (self.output ((self.filter c).apply (e.stream c) (e.pos + j))) := by
  obtain ⟨hreach, hstep⟩ := h
  have hkeeps := (invariant_of_reachable hreach).keeps q e he
  obtain ⟨hfed, hserves⟩ := Invariant.serves hstep he hplace
  have hok : self.stateOk a r = true := decide_eq_true (hfed.slot ▸ hkeeps.slot)
  exact (hserves c hc _ _ (hkeeps.holds hfed hc) (hfed.inputs c hc)).1 (.inr hok) j hj

end ConvLayer

/-- A layer with one channel that adds two inputs. -/
def pairSum : ConvLayer Nat Nat Nat where
  channels := 1
  kernelSize := 2
  dilation := 1
  convWeights _ _ := 1
  zero := 0
  start := 0
  mac acc weight tap := acc + weight * tap
  output acc := acc
  add x y := x + y
  nullStateId := 0

/-- Two tokens of a request: of a prompt, or drafts. -/
def twoTokens (drafts : Bool) : ConvMetadata where
  numActualTokens := 2
  numPrefills := if drafts then 0 else 1
  numDecodes := 0
  numDecodeTokens := 0
  numPrefillTokens := if drafts then 0 else 2
  numSpecDecodes := if drafts then 1 else 0
  hasSpec := drafts
  specTokenIndx := none
  nonSpecTokenIndx := none
  specStateIndices := some [1]
  specQueryStartLoc := some [0, 2]
  numAcceptedTokens := some [1]
  specQueryLen := 2
  stateIndices := some [1]
  hasInitialStatesD := none
  hasInitialStatesP := some [false]
  nonSpecQueryStartLoc := some [0, 2]

/-- The inputs `1`, `2`, `3` and so on, from the position `p` on. -/
def counting (p : Nat) : ConvBatch Nat := ⟨fun row _ => p + row + 1, 1, 2⟩

/-- The launch of the two tokens. -/
def twoTokensArgs (drafts : Bool) (p : Nat) : ConvArgs Nat :=
  if drafts then (twoTokens drafts).specArgs (counting p)
  else (twoTokens drafts).prefillArgs (counting p)

theorem row_twoTokens (drafts : Bool) (p t : Nat) : (twoTokensArgs drafts p).row t = t := by
  cases drafts <;> exact Nat.zero_add t

theorem soundBatch_twoTokens (drafts : Bool) (p : Nat) :
    ConvLayer.SoundBatch pairSum ((twoTokens drafts).launches (counting p)) := by
  have hlaunches : (twoTokens drafts).launches (counting p) = [twoTokensArgs drafts p] := by
    cases drafts <;> rfl
  rw [hlaunches]
  refine ⟨fun a ha => ?_, List.pairwise_singleton _ _⟩
  obtain rfl := List.mem_singleton.1 ha
  have hreqs : (twoTokensArgs drafts p).numReqs = 1 := by cases drafts <;> rfl
  have hstarts : (twoTokensArgs drafts p).starts = [0, 2] := by cases drafts <;> rfl
  refine ⟨fun t _ t' _ h => ?_, fun r hr r' hr' _ _ => ?_, fun _ => ?_, fun _ => ?_, fun _ => ?_⟩
  · rwa [row_twoTokens, row_twoTokens] at h
  · omega
  · rw [hstarts]
    exact ⟨by decide, rfl, by decide⟩
  · rw [hstarts, hreqs]
    rfl
  · rw [hstarts, hreqs]
    cases drafts <;> exact le_rfl

/-- The step of a batch with the two tokens of the request `0`. -/
theorem step_twoTokens {drafts : Bool} {e : ConvEntry Nat} {m m' : ConvCell → Nat}
    (hslot : e.slot = 1) (hoff : e.off = 0) (hstarted : e.started = drafts)
    (hstream : ∀ c j, e.stream c (e.pos + (j : Nat)) = e.pos + j + 1) {k : Nat} (hk : 0 < k)
    (hkept : if drafts then k ≤ 2 else k = 2)
    (hok : pairSum.dispatch (twoTokens drafts) (counting e.pos) m = .ok m') :
    pairSum.convSystem.step ⟨m, Function.update (fun _ => none) 0 (some e)⟩
      (.batch (twoTokens drafts) (counting e.pos)
        (fun _ => some (twoTokensArgs drafts e.pos, 0)) fun _ => k)
      ⟨m', Function.update (fun _ => none) 0 (some (e.next (twoTokensArgs drafts e.pos) k))⟩ := by
  refine ⟨soundBatch_twoTokens drafts e.pos, hok, ?_, fun id e' he' a r hplace => ?_,
    fun _ _ _ hplace => (by cases hplace)⟩
  · funext id
    by_cases hid : id = 0
    · subst hid
      rfl
    · simp [ConvRun.advance, hid]
  · let noEntry : Nat → Option (ConvEntry Nat) := fun _ => none
    have he₀ : Function.update noEntry 0 (some e) id = some e' := he'
    rcases Kept.update_eq_some he₀ with ⟨rfl, rfl⟩ | ⟨-, he'⟩
    · obtain ⟨rfl, rfl⟩ := Prod.mk.inj (Option.some.inj hplace)
      refine ⟨by cases drafts <;> exact List.mem_singleton_self _, ?_⟩
      have hq : (twoTokensArgs drafts e'.pos).qlen 0 = 2 := by cases drafts <;> rfl
      refine ⟨?_, ?_, fun c _ j hj => ?_, ?_, ?_, hk, ?_, ?_⟩
      · cases drafts <;> exact Nat.one_pos
      · cases drafts <;> exact hslot.symm
      · have hstart : (twoTokensArgs drafts e'.pos).qStart 0 = 0 := by cases drafts <;> rfl
        rw [hstream, row_twoTokens, hstart, Nat.zero_add]
        cases drafts <;> rfl
      · cases drafts <;> exact hstarted.symm
      · cases drafts <;> exact hoff.symm
      · rw [hq]
        cases drafts
        · exact le_of_eq hkept
        · exact hkept
      · rw [hq]
        cases drafts
        · exact hkept
        · exact le_rfl
    · cases he'

/-- A request with the inputs `1`, `2`, `3` and so on has a prompt of two tokens, and then
    two drafts. -/
theorem served_of_occurs_drafts :
    ∃ m₁ m₂, pairSum.dispatch (twoTokens false) (counting 0) (fun _ => 0) = .ok m₁ ∧
      pairSum.dispatch (twoTokens true) (counting 2) m₁ = .ok m₂ ∧
      m₂ (.residual 1 0) = m₁ (.residual 1 0) + (3 + 4) := by
  obtain ⟨m₁, hm₁⟩ : ∃ m₁, pairSum.dispatch (twoTokens false) (counting 0) (fun _ => 0) = .ok m₁ :=
    ⟨_, rfl⟩
  obtain ⟨m₂, hm₂⟩ : ∃ m₂, pairSum.dispatch (twoTokens true) (counting 2) m₁ = .ok m₂ := ⟨_, rfl⟩
  refine ⟨m₁, m₂, hm₁, hm₂, ?_⟩
  let e : ConvEntry Nat := ⟨1, fun _ q => (q + 1).toNat, 0, 0, false⟩
  have hstart : pairSum.convSystem.Reachable ⟨fun _ => 0, fun _ => none⟩ := .init fun _ => rfl
  have hjoin : pairSum.convSystem.step ⟨fun _ => 0, fun _ => none⟩ (.join 0 1 e.stream)
      ⟨fun _ => 0, Function.update (fun _ => none) 0 (some e)⟩ :=
    ⟨by decide, fun _ _ h => (by cases h), fun _ q hq => Int.toNat_of_nonpos (by omega), rfl⟩
  have hprompt := @step_twoTokens false e _ _ rfl rfl rfl (fun _ _ => rfl) 2 (by decide) rfl hm₁
  have hdrafts := @step_twoTokens true (e.next (twoTokensArgs false 0) 2) _ _ rfl rfl rfl
    (fun _ _ => rfl) 1 (by decide) (by decide) hm₂
  have hoccurs : pairSum.convSystem.Occurs _ _ _ := ⟨(hstart.step hjoin).step hprompt, hdrafts⟩
  have hpos : 1 < (twoTokensArgs true 2).qlen 0 := by decide
  exact ConvLayer.served_of_occurs hoccurs (q := 0) (j := 1) rfl rfl Nat.one_pos hpos

end FlashNext.Ple
