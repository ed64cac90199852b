import Mathlib.Logic.Function.Basic
import Mathlib.Tactic.SplitIfs

/-!
# Entries with keys of their own

A table of entries, by a number: no two of them have the same key, and each meets a
predicate (`Kept`). The rules say what has to be shown when an entry is put in (`update`),
taken out (`erase`), or when all entries are changed (`map`).
-/

namespace FlashNext

variable {E K : Type*}

/-- The entries meet `P`, and have keys of their own. -/
structure Kept (key : E → K) (P : E → Prop) (entries : Nat → Option E) : Prop where
  keeps : ∀ id e, entries id = some e → P e
  apart : ∀ id id' e e', entries id = some e → entries id' = some e' → key e = key e' → id = id'

namespace Kept

variable {key : E → K} {P P' : E → Prop} {entries : Nat → Option E}

theorem of_none (h : ∀ id, entries id = none) : Kept key P entries where
  keeps id e he := by
    rw [h id] at he
    cases he
  apart id _ e _ he := by
    rw [h id] at he
    cases he

theorem imp (h : Kept key P entries) (hP : ∀ id e, entries id = some e → P e → P' e) :
    Kept key P' entries where
  keeps id e he := hP id e he (h.keeps id e he)
  apart := h.apart

/-- What an entry of an updated table is. -/
theorem update_eq_some {id id' : Nat} {e e' : E}
    (h : Function.update entries id (some e) id' = some e') :
    id' = id ∧ e' = e ∨ id' ≠ id ∧ entries id' = some e' := by
  rw [Function.update_apply] at h
  split_ifs at h with hid
  · exact .inl ⟨hid, (Option.some.inj h).symm⟩
  · exact .inr ⟨hid, h⟩

/-- An entry with a key of no other one. -/
theorem update (h : Kept key P entries) {id : Nat} {e : E} (he : P e)
    (hfree : ∀ id' e', id' ≠ id → entries id' = some e' → key e' ≠ key e) :
    Kept key P (Function.update entries id (some e)) where
  keeps id' e' he' := by
    rcases update_eq_some he' with ⟨rfl, rfl⟩ | ⟨-, he'⟩
    · exact he
    · exact h.keeps id' e' he'
  apart id₁ id₂ e₁ e₂ he₁ he₂ hkey := by
    rcases update_eq_some he₁ with ⟨h₁, heq₁⟩ | ⟨h₁, hold₁⟩ <;>
      rcases update_eq_some he₂ with ⟨h₂, heq₂⟩ | ⟨h₂, hold₂⟩
    · exact h₁.trans h₂.symm
    · exact absurd (heq₁ ▸ hkey).symm (hfree id₂ e₂ h₂ hold₂)
    · exact absurd (heq₂ ▸ hkey) (hfree id₁ e₁ h₁ hold₁)
    · exact h.apart id₁ id₂ e₁ e₂ hold₁ hold₂ hkey

theorem erase (h : Kept key P entries) (id : Nat) :
    Kept key P (Function.update entries id none) := by
  have hold : ∀ {id' e'}, Function.update entries id none id' = some e' →
      entries id' = some e' := by
    intro id' e' he'
    rw [Function.update_apply] at he'
    split_ifs at he'
    exact he'
  exact ⟨fun id' e' he' => h.keeps id' e' (hold he'),
    fun id₁ id₂ e₁ e₂ he₁ he₂ => h.apart id₁ id₂ e₁ e₂ (hold he₁) (hold he₂)⟩

/-- A change of all entries that leaves their keys. -/
theorem map (h : Kept key P entries) {f : Nat → E → E} (hkey : ∀ id e, key (f id e) = key e)
    (hP : ∀ id e, entries id = some e → P e → P' (f id e)) :
    Kept key P' fun id => (entries id).map (f id) where
  keeps id e' he' := by
    obtain ⟨e, he, rfl⟩ := Option.map_eq_some_iff.1 he'
    exact hP id e he (h.keeps id e he)
  apart id id' e₁' e₂' he₁' he₂' heq := by
    obtain ⟨e₁, he₁, rfl⟩ := Option.map_eq_some_iff.1 he₁'
    obtain ⟨e₂, he₂, rfl⟩ := Option.map_eq_some_iff.1 he₂'
    rw [hkey, hkey] at heq
    exact h.apart id id' e₁ e₂ he₁ he₂ heq

end Kept

end FlashNext
