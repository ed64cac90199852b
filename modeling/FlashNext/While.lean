import Mathlib.Order.Defs.LinearOrder
import Mathlib.Data.List.TakeDrop

/-!
# While loops

A loop that may raise, and may run for ever: it is given fuel, and gives `none`
when that runs out (`whileLoop`). `whileLoop_spec` is its rule for total
correctness: an invariant that every round keeps, and a measure that every round
decreases.

The loops of a program that fills a buffer from its front write one part after
the other (`overwrite`); the parts are one (`overwrite_overwrite`).
-/

namespace FlashNext

variable {ε σ α : Type}

/-- `while cond: body`, for fewer rounds than there is fuel. -/
def whileLoop (cond : σ → Bool) (body : σ → ExceptT ε Option σ) : Nat → σ → ExceptT ε Option σ
  | 0, _ => ExceptT.mk none
  | fuel + 1, s => if cond s then body s >>= whileLoop cond body fuel else pure s

/-- A loop whose rounds keep an invariant and decrease a measure ends, with the
    invariant, when its condition fails. -/
theorem whileLoop_spec {cond : σ → Bool} {body : σ → ExceptT ε Option σ} (I : σ → Prop)
    (measure : σ → Nat) (hbody : ∀ s, I s → cond s = true →
      ∃ s', body s = pure s' ∧ I s' ∧ measure s' < measure s)
    {fuel : Nat} {s : σ} (hs : I s) (hfuel : measure s < fuel) :
    ∃ s', whileLoop cond body fuel s = pure s' ∧ I s' ∧ cond s' = false := by
  induction fuel generalizing s with
  | zero => exact absurd hfuel (Nat.not_lt_zero _)
  | succ fuel ih =>
    rw [whileLoop]
    split_ifs with hcond
    · obtain ⟨s', hs', hI, hlt⟩ := hbody s hs hcond
      rw [hs', pure_bind]
      exact ih hI (by omega)
    · exact ⟨s, rfl, hs, by simpa using hcond⟩

/-! ## Filling a buffer -/

/-- The buffer, with `xs` from the position `pos` on. -/
def overwrite (buf : List α) (pos : Nat) (xs : List α) : List α :=
  buf.take pos ++ xs ++ buf.drop (pos + xs.length)

variable {buf xs ys : List α} {pos : Nat}

@[simp] theorem length_overwrite (h : pos + xs.length ≤ buf.length) :
    (overwrite buf pos xs).length = buf.length := by
  simp only [overwrite, List.length_append, List.length_take, List.length_drop]
  omega

theorem overwrite_nil (buf : List α) (pos : Nat) : overwrite buf pos [] = buf := by
  simp [overwrite]

/-- All of the buffer. -/
theorem overwrite_zero (h : xs.length = buf.length) : overwrite buf 0 xs = xs := by
  simp [overwrite, h]

/-- A part right behind another one. -/
theorem overwrite_overwrite (h : pos ≤ buf.length) :
    overwrite (overwrite buf pos xs) (pos + xs.length) ys = overwrite buf pos (xs ++ ys) := by
  have hlen : (buf.take pos).length = pos := List.length_take_of_le h
  have htake : (buf.take pos ++ xs ++ buf.drop (pos + xs.length)).take (pos + xs.length) =
      buf.take pos ++ xs := by
    rw [List.take_left' (by rw [List.length_append, hlen])]
  have hdrop : (buf.take pos ++ xs ++ buf.drop (pos + xs.length)).drop
      (pos + xs.length + ys.length) = buf.drop (pos + (xs ++ ys).length) := by
    rw [List.drop_append, List.drop_of_length_le (by simp [hlen]), List.nil_append,
      List.length_append, hlen, Nat.add_sub_cancel_left, List.drop_drop, List.length_append,
      Nat.add_assoc]
  rw [overwrite, overwrite, htake, hdrop, overwrite]
  simp [List.append_assoc]

end FlashNext
