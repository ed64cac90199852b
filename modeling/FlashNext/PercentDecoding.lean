import FlashNext.Delimited

/-!
# Percent-decoding

What a text in a URL stands for: its octets. An octet may be percent-encoded, with
hex digits in either case; any other character stands for its octets in UTF-8
(`octets`), in a form a `+` for a space (`formOctets`).

Decoding distributes over the characters that are neither `%` nor hex digits
(`octets_append_cons`), and a text without some of these stands for less
(`length_octets_filter_lt`).
-/

namespace FlashNext.PercentDecoding

open Delimited

/-- The value of a hex digit. -/
def hexValue (c : Nat) : Option Nat :=
  if 48 ≤ c ∧ c ≤ 57 then some (c - 48)
  else if 65 ≤ c ∧ c ≤ 70 then some (c - 55)
  else if 97 ≤ c ∧ c ≤ 102 then some (c - 87)
  else none

/-- The octets of a character in UTF-8. A surrogate from `0xDC80` to `0xDCFF` stands
    for an octet that is not UTF-8. -/
def utf8 (c : Nat) : List Nat :=
  if c < 0x80 then [c]
  else if c < 0x800 then [0xC0 + c / 64, 0x80 + c % 64]
  else if 0xDC80 ≤ c ∧ c ≤ 0xDCFF then [c - 0xDC00]
  else if c < 0x10000 then [0xE0 + c / 4096, 0x80 + c / 64 % 64, 0x80 + c % 64]
  else [0xF0 + c / 262144, 0x80 + c / 4096 % 64, 0x80 + c / 64 % 64, 0x80 + c % 64]

/-- The octets that a text stands for. -/
def octets : List Nat → List Nat
  | 37 :: h :: l :: s =>
    match hexValue h, hexValue l with
    | some a, some b => (16 * a + b) :: octets s
    | _, _ => 37 :: octets (h :: l :: s)
  | c :: s => utf8 c ++ octets s
  | [] => []

/-- Those of a component of a form. -/
def formOctets (s : List Nat) : List Nat := octets (s.map fun c => if c = 43 then 32 else c)

theorem utf8_ne_nil (c : Nat) : utf8 c ≠ [] := by
  unfold utf8
  split_ifs <;> simp

/-- The text starts with two hex digits. -/
def HexPair : List Nat → Prop
  | h :: l :: _ => (hexValue h).isSome ∧ (hexValue l).isSome
  | _ => False

theorem octets_cons_of_ne {c : Nat} (h : c ≠ 37) (s : List Nat) :
    octets (c :: s) = utf8 c ++ octets s := by
  rw [octets]
  rintro _ _ _ rfl
  exact absurd rfl h

theorem octets_hex {h l x y : Nat} (hx : hexValue h = some x) (hy : hexValue l = some y)
    (s : List Nat) : octets (37 :: h :: l :: s) = (16 * x + y) :: octets s := by
  rw [octets, hx, hy]

theorem octets_percent {s : List Nat} (h : ¬HexPair s) : octets (37 :: s) = 37 :: octets s := by
  match s with
  | [] => rfl
  | [_] => rfl
  | x :: y :: s =>
    simp only [HexPair, not_and, Option.not_isSome_iff_eq_none] at h
    rw [octets]
    cases hx : hexValue x with
    | none => rfl
    | some a =>
      rw [h (by simp [hx])]

/-- The cases of a text: it starts with an encoded octet, with a `%` that is none, or with
    another character. -/
theorem octets_induction {motive : List Nat → Prop} (nil : motive [])
    (hex : ∀ h l x y s, hexValue h = some x → hexValue l = some y → motive s →
      motive (37 :: h :: l :: s))
    (percent : ∀ s, ¬HexPair s → motive s → motive (37 :: s))
    (cons : ∀ c s, c ≠ 37 → motive s → motive (c :: s)) (s : List Nat) : motive s := by
  induction hn : s.length using Nat.strong_induction_on generalizing s with
  | _ n ih =>
    match s with
    | [] => exact nil
    | c :: s =>
      have hs := ih s.length (by rw [← hn, List.length_cons]; omega) s rfl
      by_cases hc : c = 37
      · subst hc
        by_cases hpair : HexPair s
        · match s with
          | h :: l :: s =>
            obtain ⟨x, hx⟩ := Option.isSome_iff_exists.1 hpair.1
            obtain ⟨y, hy⟩ := Option.isSome_iff_exists.1 hpair.2
            refine hex h l x y s hx hy (ih s.length ?_ s rfl)
            rw [← hn]
            simp only [List.length_cons]
            omega
        · exact percent s hpair hs
      · exact cons c s hc hs

theorem octets_eq_nil_iff {s : List Nat} : octets s = [] ↔ s = [] := by
  induction s using octets_induction with
  | nil => simp [octets]
  | hex h l x y s hx hy _ => simp [octets_hex hx hy]
  | percent s hpair _ => simp [octets_percent hpair]
  | cons c s hc _ => simp [octets_cons_of_ne hc, utf8_ne_nil]

section Append

variable {c : Nat} (hne : c ≠ 37) (hc : hexValue c = none)
include hne hc

/-- A character that is no part of an encoded octet stands for itself. -/
theorem octets_append_cons (a b : List Nat) :
    octets (a ++ c :: b) = octets a ++ (utf8 c ++ octets b) := by
  induction a using octets_induction with
  | nil => exact octets_cons_of_ne hne b
  | hex h l x y s hx hy ih =>
    simp only [List.cons_append]
    rw [octets_hex hx hy, octets_hex hx hy, ih, List.cons_append]
  | percent s hpair ih =>
    have hpair' : ¬HexPair (s ++ c :: b) := by
      match s with
      | [] => cases b <;> simp [HexPair, hc]
      | [h] => simp [HexPair, hc]
      | h :: l :: s => exact hpair
    rw [octets_percent hpair, List.cons_append, List.cons_append, octets_percent hpair', ih]
  | cons d s hd ih =>
    rw [List.cons_append, octets_cons_of_ne hd, octets_cons_of_ne hd, ih, List.append_assoc]

end Append

/-- The octets of a delimiter of URLs. -/
theorem octets_distributes {c : Nat} (hc : c ∈ [35, 38, 47, 61, 63]) : Distributes c octets := by
  intro a b
  have hplain : ∀ c ∈ [35, 38, 47, 61, 63], c ≠ 37 ∧ hexValue c = none ∧ utf8 c = [c] := by decide
  obtain ⟨hne, hhex, hutf8⟩ := hplain c hc
  rw [octets_append_cons hne hhex, hutf8, List.singleton_append]

theorem formOctets_distributes {c : Nat} (hc : c ∈ [35, 38, 47, 61, 63]) :
    Distributes c formOctets := by
  intro a b
  have hplus : c ≠ 43 := by
    rintro rfl
    exact absurd hc (by decide)
  rw [formOctets, List.map_append, List.map_cons, if_neg hplus, octets_distributes hc]
  rfl

theorem formOctets_eq_nil_iff {s : List Nat} : formOctets s = [] ↔ s = [] := by
  rw [formOctets, octets_eq_nil_iff, List.map_eq_nil_iff]

/-- Two texts joined stand for no more than each: an encoded octet may begin in one and end
    in the other. -/
theorem length_octets_append_le (a b : List Nat) :
    (octets (a ++ b)).length ≤ (octets a).length + (octets b).length := by
  have hdigit : ∀ {h : Nat}, (hexValue h).isSome → h ≠ 37 := by
    rintro _ hh rfl
    exact absurd hh (by decide)
  have hpos : ∀ c, 1 ≤ (utf8 c).length := fun c => List.length_pos_iff.2 (utf8_ne_nil c)
  induction a using octets_induction with
  | nil => simp [octets]
  | hex h l x y s hx hy ih =>
    have happ := octets_hex hx hy (s ++ b)
    rw [octets_hex hx hy, List.cons_append, List.cons_append, List.cons_append, happ,
      List.length_cons, List.length_cons]
    omega
  | percent s hpair ih =>
    rw [octets_percent hpair, List.cons_append, List.length_cons]
    by_cases hpair' : HexPair (s ++ b)
    · -- The digits, or one of them, are in the second text.
      match s, b with
      | [], h :: l :: b =>
        obtain ⟨x, hx⟩ := Option.isSome_iff_exists.1 hpair'.1
        obtain ⟨y, hy⟩ := Option.isSome_iff_exists.1 hpair'.2
        rw [List.nil_append, octets_hex hx hy, octets_cons_of_ne (hdigit hpair'.1),
          octets_cons_of_ne (hdigit hpair'.2)]
        simp only [List.length_cons, List.length_append]
        omega
      | [h], l :: b =>
        obtain ⟨x, hx⟩ := Option.isSome_iff_exists.1 hpair'.1
        obtain ⟨y, hy⟩ := Option.isSome_iff_exists.1 hpair'.2
        have := hpos l
        rw [List.singleton_append, octets_hex hx hy, octets_cons_of_ne (hdigit hpair'.2)]
        simp only [List.length_cons, List.length_append]
        omega
      | h :: l :: s, b => exact absurd hpair' hpair
    · rw [octets_percent hpair', List.length_cons]
      omega
  | cons c s hc ih =>
    rw [List.cons_append, octets_cons_of_ne hc, octets_cons_of_ne hc, List.length_append,
      List.length_append]
    omega

/-- A text stands for less without some of its characters, none of which is part of an
    encoded octet. -/
theorem length_octets_filter {keep : Nat → Bool}
    (hdrop : ∀ c, keep c = false → c ≠ 37 ∧ hexValue c = none) (a s : List Nat) :
    (octets (a ++ s.filter keep)).length ≤ (octets (a ++ s)).length ∧
      ((∃ c ∈ s, keep c = false) →
        (octets (a ++ s.filter keep)).length < (octets (a ++ s)).length) := by
  induction s generalizing a with
  | nil => simp
  | cons c s ih =>
    cases hc : keep c with
    | true =>
      rw [List.filter_cons_of_pos hc, List.append_cons a c s, List.append_cons a c]
      simpa [hc] using ih (a ++ [c])
    | false =>
      obtain ⟨hne, hhex⟩ := hdrop c hc
      have hpos := List.length_pos_iff.2 (utf8_ne_nil c)
      have hle := (ih a).1.trans (length_octets_append_le a s)
      rw [List.filter_cons_of_neg (by simp [hc]), octets_append_cons hne hhex, List.length_append,
        List.length_append]
      exact ⟨by omega, fun _ => by omega⟩

end FlashNext.PercentDecoding
