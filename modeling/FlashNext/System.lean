import Mathlib.Logic.Relation

/-!
# Transition systems

A transition system on the states `S`, with steps labelled in `A`: whatever a
step draws from outside (a request, what another process does to a file, the
result of a system call) is in its label. A *condition* on the steps, a
predicate of the state before the step and of its label, restricts a system to
the runs all of whose steps meet it (`System.restrict`).

`Reachable.invariant` is the rule every run property is proved by: what holds
initially and is preserved by every step from a reachable state holds of every
reachable state. `Leads.invariant` is the same rule for the runs from a given
state, and `Ends.of_measure` the one for runs that end.
-/

namespace FlashNext

/-- A transition system: its initial states and its labelled steps. -/
structure System (S A : Type*) where
  /-- The initial states. -/
  init : S → Prop
  /-- The steps, from a state to the next. -/
  step : S → A → S → Prop

namespace System

variable {S A : Type*} (sys : System S A)

/-- The states reached by the runs of the system. -/
inductive Reachable : S → Prop
  | init {s : S} : sys.init s → Reachable s
  | step {s s' : S} {a : A} : Reachable s → sys.step s a s' → Reachable s'

/-- The step occurs in a run: from a reachable state. -/
def Occurs (s : S) (a : A) (s' : S) : Prop := sys.Reachable s ∧ sys.step s a s'

/-- The system whose runs are those of `sys` all of whose steps meet the
    condition `G`. -/
def restrict (G : S → A → Prop) : System S A where
  init := sys.init
  step s a s' := G s a ∧ sys.step s a s'

variable {sys}

/-- The invariant rule: what holds initially and is preserved by the steps
    holds of every reachable state. -/
theorem Reachable.invariant {P : S → Prop} {s : S} (hs : sys.Reachable s)
    (init : ∀ s, sys.init s → P s)
    (step : ∀ s a s', P s → sys.step s a s' → P s') : P s := by
  induction hs with
  | init h => exact init _ h
  | step _ h ih => exact step _ _ _ ih h

/-- The simulation rule: if the steps from related states lead to related states, then a
    reachable state is related to a reachable one. -/
theorem Reachable.simulates {T B : Type*} {sys' : System T B} {R : S → T → Prop} {s : S}
    (hs : sys.Reachable s) (init : ∀ s, sys.init s → ∃ t, sys'.init t ∧ R s t)
    (step : ∀ s a s' t, sys'.Reachable t → R s t → sys.step s a s' →
      ∃ b t', sys'.step t b t' ∧ R s' t') : ∃ t, sys'.Reachable t ∧ R s t := by
  refine hs.invariant (P := fun s => ∃ t, sys'.Reachable t ∧ R s t) (fun s hinit => ?_)
    fun s a s' ⟨t, ht, hR⟩ hstep => ?_
  · obtain ⟨t, ht, hR⟩ := init s hinit
    exact ⟨t, .init ht, hR⟩
  · obtain ⟨b, t', hstep', hR'⟩ := step s a s' t ht hR hstep
    exact ⟨t', ht.step hstep', hR'⟩

/-- The state `s'` is reached by a run from the state `s`. -/
def Leads (sys : System S A) : S → S → Prop :=
  Relation.ReflTransGen fun s s' => ∃ a, sys.step s a s'

/-- The rule for runs from a state: what holds there and is preserved by the
    steps holds of every state that they reach. -/
theorem Leads.invariant {P : S → Prop} {s s' : S} (h : sys.Leads s s') (hs : P s)
    (step : ∀ s a s', P s → sys.step s a s' → P s') : P s' := by
  induction h with
  | refl => exact hs
  | tail _ hstep ih =>
    obtain ⟨a, ha⟩ := hstep
    exact step _ a _ ih ha

/-- A run under a condition is a run. -/
theorem Reachable.of_restrict {G : S → A → Prop} {s : S}
    (hs : (sys.restrict G).Reachable s) : sys.Reachable s := by
  induction hs with
  | init h => exact .init h
  | step _ h ih => exact .step ih h.2

/-- A run under a condition is one under each that it implies. -/
theorem Reachable.mono {G G' : S → A → Prop} {s : S} (hs : (sys.restrict G).Reachable s)
    (h : ∀ s a, G s a → G' s a) : (sys.restrict G').Reachable s := by
  induction hs with
  | init hinit => exact .init hinit
  | step _ hstep ih => exact .step ih ⟨h _ _ hstep.1, hstep.2⟩

/-- The system of an executable step, `none` where the label is not enabled. -/
def ofStep (init : S → Prop) (step : S → A → Option S) : System S A where
  init := init
  step s a s' := step s a = some s'

/-- The replay of a list of labels that meet the condition in any state, from a
    state reached under the condition, reaches such a state. -/
theorem Reachable.replay {init : S → Prop} {step : S → A → Option S} {G : S → A → Prop} {s : S}
    (hs : ((ofStep init step).restrict G).Reachable s) {l : List A} (hG : ∀ a ∈ l, ∀ s, G s a)
    {s' : S} (h : l.foldlM step s = some s') : ((ofStep init step).restrict G).Reachable s' := by
  induction l generalizing s with
  | nil =>
    obtain rfl : s = s' := by simpa using h
    exact hs
  | cons a l ih =>
    rw [List.foldlM_cons] at h
    rw [List.forall_mem_cons] at hG
    cases hstep : step s a with
    | none => simp [hstep] at h
    | some t =>
      rw [hstep] at h
      exact ih (.step hs ⟨hG.1 s, hstep⟩) hG.2 h

/-- The replay of a list of labels from an initial state reaches a reachable
    state. -/
theorem Reachable.foldlM {init : S → Prop} {step : S → A → Option S} {s : S} (hs : init s)
    {l : List A} {s' : S} (h : l.foldlM step s = some s') : (ofStep init step).Reachable s' :=
  (Reachable.replay (G := fun _ _ => True) (.init hs) (fun _ _ _ => trivial) h).of_restrict

/-- The labels, replayed from a state, meet the condition at every step. -/
def Obeys (step : S → A → Option S) (G : S → A → Prop) : S → List A → Prop
  | _, [] => True
  | s, a :: l => G s a ∧ ∀ t ∈ step s a, Obeys step G t l

/-- The replay of a list of labels that meet the condition is a run under it. -/
theorem Leads.replay {init : S → Prop} {step : S → A → Option S} {G : S → A → Prop} {s s' : S}
    {l : List A} (hl : Obeys step G s l) (h : l.foldlM step s = some s') :
    ((ofStep init step).restrict G).Leads s s' := by
  induction l generalizing s with
  | nil =>
    obtain rfl : s = s' := by simpa using h
    exact .refl
  | cons a l ih =>
    obtain ⟨hG, hl⟩ := hl
    rw [List.foldlM_cons] at h
    cases hstep : step s a with
    | none => simp [hstep] at h
    | some t =>
      rw [hstep] at h
      exact (ih (hl t hstep) h).head ⟨a, hG, hstep⟩

/-! ## Records -/

/-- The system with a record of what its steps do. -/
def logged {B : Type*} (sys : System S A) (out : S → A → List B) : System (S × List B) A where
  init s := sys.init s.1 ∧ s.2 = []
  step s a s' := sys.step s.1 a s'.1 ∧ s'.2 = s.2 ++ out s.1 a

/-! ## Runs that end -/

/-- Every run from the state ends, and the states in which it can end meet `Q`. -/
inductive Ends (sys : System S A) (Q : S → Prop) : S → Prop
  | intro {s : S} : (Q s ∨ ∃ a s', sys.step s a s') → (∀ a s', sys.step s a s' → Ends sys Q s') →
      Ends sys Q s

/-- The rule for runs that end: an invariant under which a step is possible or `Q`
    holds, and a measure that every step decreases. -/
theorem Ends.of_measure {Q I : S → Prop} (measure : S → Nat)
    (step : ∀ s a s', I s → sys.step s a s' → I s' ∧ measure s' < measure s)
    (progress : ∀ s, I s → Q s ∨ ∃ a s', sys.step s a s') {s : S} (hs : I s) : sys.Ends Q s := by
  induction hn : measure s using Nat.strongRecOn generalizing s with
  | ind n ih =>
    refine .intro (progress s hs) fun a s' hstep => ?_
    obtain ⟨hI, hlt⟩ := step s a s' hs hstep
    exact ih _ (hn ▸ hlt) hI rfl

end System

end FlashNext
