import Mathlib.Logic.Basic

/-!
# Computations that return under a condition

`Returns x P v` says when a computation that may raise returns, and with which
value. The rules follow the computation: `ok` and `error` for its results, `bind`
and `map` for what comes after, `mapM` and `foldlM` for the loops.

`bind_eq_ok` takes a computation that has returned apart, step by step;
`foldlM_eq_error_iff` says what a loop raises.
-/

namespace FlashNext

universe u

variable {ε : Type*} {α β σ : Type u}

/-- A computation of two steps has returned when both have. -/
theorem bind_eq_ok {ε α β : Type*} {x : Except ε α} {f : α → Except ε β} {r : β} :
    x.bind f = .ok r ↔ ∃ a, x = .ok a ∧ f a = .ok r := by
  cases x with
  | error e => exact iff_of_false nofun fun ⟨a, ha, _⟩ => nomatch ha
  | ok a => simp [Except.bind]

/-- A computation behind a check has returned when the check has passed. -/
theorem ite_error_eq_ok {ε α : Type*} {c : Prop} [Decidable c] {e : ε} {x : Except ε α} {r : α} :
    (if c then .error e else x) = .ok r ↔ ¬c ∧ x = .ok r := by
  by_cases h : c <;> simp [h]

/-- The computation returns `v` if `P` holds, and raises otherwise. -/
def Returns (x : Except ε α) (P : Prop) (v : α) : Prop := ∀ r, x = .ok r ↔ P ∧ r = v

namespace Returns

variable {x : Except ε α} {P Q : Prop} {v w : α}

theorem ok (hP : P) : Returns (.ok v : Except ε α) P v := fun r => by
  rw [and_iff_right hP, Except.ok.injEq, eq_comm]

theorem error (e : ε) (hP : ¬P) : Returns (.error e) P v := fun _ =>
  iff_of_false nofun fun h => hP h.1

theorem eq_ok (h : Returns x P v) (hP : P) : x = .ok v := (h v).2 ⟨hP, rfl⟩

/-- A computation that returns under no condition has raised. -/
theorem exists_error (h : Returns x P v) (hP : ¬P) : ∃ e, x = .error e := by
  cases hx : x with
  | error e => exact ⟨e, rfl⟩
  | ok r => exact absurd ((h r).1 hx).1 hP

theorem congr (h : Returns x P v) (hPQ : P ↔ Q) (hvw : P → v = w) : Returns x Q w := fun r => by
  rw [h r, ← hPQ]
  exact and_congr_right fun hP => by rw [hvw hP]

theorem bind {f : α → Except ε β} {w : β} (hx : Returns x P v) (hf : P → Returns (f v) Q w) :
    Returns (x >>= f) (P ∧ Q) w := by
  by_cases hP : P
  · rw [hx.eq_ok hP]
    exact (hf hP).congr (and_iff_right hP).symm fun _ => rfl
  · obtain ⟨e, rfl⟩ := hx.exists_error hP
    exact error e fun h => hP h.1

theorem map {f : α → β} (hx : Returns x P v) : Returns (f <$> x) P (f v) := by
  by_cases hP : P
  · rw [hx.eq_ok hP]
    exact ok hP
  · obtain ⟨e, rfl⟩ := hx.exists_error hP
    exact error e hP

/-- A loop that computes a list returns when every one of its rounds does. -/
theorem mapM {ι : Type*} {f : ι → Except ε β} {P : ι → Prop} {g : ι → β} {xs : List ι}
    (h : ∀ x ∈ xs, Returns (f x) (P x) (g x)) :
    Returns (xs.mapM f) (∀ x ∈ xs, P x) (xs.map g) := by
  induction xs with
  | nil => exact ok (by simp)
  | cons x xs ih =>
    rw [List.forall_mem_cons] at h
    rw [List.mapM_cons]
    have hrest := (ih h.2).map (f := (g x :: ·))
    exact (h.1.bind fun _ => hrest).congr List.forall_mem_cons.symm fun _ => rfl

/-- A loop over a state returns when every one of its rounds does; `I` holds of
    the state all the way. -/
theorem foldlM {f : σ → α → Except ε σ} {P : α → Prop} {g : σ → α → σ} {I : σ → Prop} {xs : List α}
    (h : ∀ x ∈ xs, ∀ s, I s → Returns (f s x) (P x) (g s x) ∧ I (g s x)) {s : σ} (hs : I s) :
    Returns (xs.foldlM f s) (∀ x ∈ xs, P x) (xs.foldl g s) := by
  induction xs generalizing s with
  | nil => exact ok (by simp)
  | cons x xs ih =>
    rw [List.forall_mem_cons] at h
    rw [List.foldlM_cons]
    obtain ⟨hone, hI⟩ := h.1 s hs
    exact (hone.bind fun _ => ih h.2 hI).congr List.forall_mem_cons.symm fun _ => rfl

end Returns

/-! ## What a loop raises -/

/-- A loop raises what one of its rounds has raised. -/
theorem exists_error_of_foldlM {f : σ → α → Except ε σ} {xs : List α} {s : σ} {e : ε}
    (h : xs.foldlM f s = .error e) : ∃ x ∈ xs, ∃ s', f s' x = .error e := by
  induction xs generalizing s with
  | nil => cases h
  | cons x xs ih =>
    rw [List.foldlM_cons] at h
    cases hx : f s x with
    | error e' =>
      rw [hx] at h
      obtain rfl := Except.error.inj h
      exact ⟨x, List.mem_cons_self, s, hx⟩
    | ok s' =>
      rw [hx] at h
      obtain ⟨y, hy, hs⟩ := ih h
      exact ⟨y, List.mem_cons_of_mem x hy, hs⟩

/-- A loop that computes a list raises what one of its rounds has raised. -/
theorem exists_error_of_mapM {f : α → Except ε β} {xs : List α} {e : ε}
    (h : xs.mapM f = .error e) : ∃ x ∈ xs, f x = .error e := by
  induction xs with
  | nil => cases h
  | cons x xs ih =>
    rw [List.mapM_cons] at h
    cases hx : f x with
    | error e' =>
      rw [hx] at h
      obtain rfl := Except.error.inj h
      exact ⟨x, List.mem_cons_self, hx⟩
    | ok y =>
      cases hxs : xs.mapM f with
      | error e' =>
        rw [hx, hxs] at h
        obtain rfl := Except.error.inj h
        obtain ⟨z, hz, hfz⟩ := ih hxs
        exact ⟨z, List.mem_cons_of_mem x hz, hfz⟩
      | ok ys =>
        rw [hx, hxs] at h
        cases h

/-- A loop whose rounds fail whatever the state is raises from the first round that
    fails. -/
theorem foldlM_eq_error_iff {f : σ → α → Except ε σ} {fault : α → Option ε} {I : σ → Prop}
    {xs : List α}
    (h : ∀ x ∈ xs, ∀ s, I s → (∀ e, f s x = .error e ↔ fault x = some e) ∧
      ∀ s', f s x = .ok s' → I s')
    {s : σ} (hs : I s) (e : ε) : xs.foldlM f s = .error e ↔ xs.findSome? fault = some e := by
  induction xs generalizing s with
  | nil => exact iff_of_false (fun h => by cases h) (fun h => by cases h)
  | cons x xs ih =>
    rw [List.forall_mem_cons] at h
    obtain ⟨hfault, hI⟩ := h.1 s hs
    rw [List.foldlM_cons, List.findSome?_cons]
    cases hx : f s x with
    | error e' =>
      rw [(hfault e').1 hx]
      exact ⟨fun h => congrArg some (Except.error.inj h),
        fun h => congrArg Except.error (Option.some.inj h)⟩
    | ok s' =>
      have hnone : fault x = none := Option.eq_none_iff_forall_ne_some.2 fun e' he' => by
        rw [(hfault e').2 he'] at hx
        cases hx
      rw [hnone]
      exact ih h.2 (hI s' hx)

end FlashNext
