import Mathlib.Algebra.BigOperators.Group.List.Basic
import Mathlib.Algebra.GroupWithZero.Nat
import Mathlib.Algebra.Order.BigOperators.Group.List
import Mathlib.Algebra.Order.Group.Nat
import Mathlib.Data.List.Induction
import Mathlib.Data.List.TakeWhile

/-!
# Delimited lists

Lists over any alphabet that are cut at separators: at every `sep`
(`List.splitOn`), or into the name/value pairs of a query (`pairs`), whose
pieces end at every `amp` and are cut at their first `eq`.

A map on lists *distributes* over a separator when it leaves it where it is, as
a decoding does that the separator needs no decoding for. Such a map may bring
new separators in. `pairs_map_iff` says when what the pairs of a list stand for
(`d`) survives a map `f`, if they are taken again from the mapped list, up to a
terminator `hash` and after another map `k` that brings no separators in. The
argument is by size: neither map makes what a component stands for longer, and
a separator that was part of a component before is lost (`querySize`).
-/

namespace FlashNext.Delimited

variable {α : Type*}

/-- The map leaves the separator `sep` in its place. -/
def Distributes (sep : α) (f : List α → List α) : Prop :=
  ∀ a b, f (a ++ sep :: b) = f a ++ sep :: f b

/-- Every list has no separator, or has a part without one before its first. -/
theorem split_induction (sep : α) {motive : List α → Prop}
    (last : ∀ a, sep ∉ a → motive a)
    (first : ∀ a b, sep ∉ a → motive b → motive (a ++ sep :: b)) (xs : List α) : motive xs := by
  induction hn : xs.length using Nat.strong_induction_on generalizing xs with
  | _ n ih =>
    by_cases hsep : sep ∈ xs
    · obtain ⟨a, b, rfl, ha⟩ := List.eq_append_cons_of_mem hsep
      refine first a b ha (ih b.length ?_ b rfl)
      rw [← hn, List.length_append, List.length_cons]
      omega
    · exact last xs hsep

section Split

variable [DecidableEq α] {sep : α} {f : List α → List α}

/-- The parts have no separator. -/
theorem not_mem_of_mem_splitOn (sep : α) (xs : List α) : ∀ s ∈ xs.splitOn sep, sep ∉ s := by
  induction xs using split_induction sep with
  | last a ha =>
    rw [List.splitOn_eq_singleton ha]
    exact List.forall_mem_singleton.2 ha
  | first a b ha ih =>
    rw [List.splitOn_append_cons_self_of_not_mem ha]
    exact List.forall_mem_cons.2 ⟨ha, ih⟩

/-- The elements of the parts are those of the list. -/
theorem mem_of_mem_splitOn {xs s : List α} (hs : s ∈ xs.splitOn sep) {c : α} (hc : c ∈ s) :
    c ∈ xs := by
  induction xs using split_induction sep with
  | last a ha =>
    rw [List.splitOn_eq_singleton ha, List.mem_singleton] at hs
    exact hs ▸ hc
  | first a b ha ih =>
    rw [List.splitOn_append_cons_self_of_not_mem ha, List.mem_cons] at hs
    rcases hs with rfl | hs
    · exact List.mem_append_left _ hc
    · exact List.mem_append_right _ (List.mem_cons_of_mem _ (ih hs))

/-- What is mapped is the join of the parts mapped. -/
theorem intercalate_map_splitOn (hf : Distributes sep f) (xs : List α) :
    [sep].intercalate ((xs.splitOn sep).map f) = f xs := by
  induction xs using split_induction sep with
  | last a ha => rw [List.splitOn_eq_singleton ha, List.map_singleton, List.intercalate_singleton]
  | first a b ha ih =>
    rw [List.splitOn_append_cons_self_of_not_mem ha, List.map_cons,
      List.intercalate_cons_of_ne_nil (by simp [List.splitOn_ne_nil]), ih, hf]
    simp

/-- What is mapped has the parts mapped, if these have no separator. -/
theorem splitOn_map (hf : Distributes sep f) {xs : List α}
    (h : ∀ s ∈ (xs.splitOn sep).map f, sep ∉ s) :
    (f xs).splitOn sep = (xs.splitOn sep).map f := by
  rw [← intercalate_map_splitOn hf, List.splitOn_intercalate sep h]
  simp [List.splitOn_ne_nil]

/-- An element of what is mapped is the separator, or is in a part mapped. -/
theorem mem_map_splitOn (hf : Distributes sep f) {xs : List α} {c : α} (hc : c ∈ f xs) :
    c = sep ∨ ∃ s ∈ (xs.splitOn sep).map f, c ∈ s := by
  induction xs using split_induction sep with
  | last a ha => exact .inr ⟨f a, by simp [List.splitOn_eq_singleton ha], hc⟩
  | first a b ha ih =>
    rw [hf, List.mem_append, List.mem_cons] at hc
    rw [List.splitOn_append_cons_self_of_not_mem ha, List.map_cons]
    rcases hc with hc | rfl | hc
    · exact .inr ⟨f a, List.mem_cons_self, hc⟩
    · exact .inl rfl
    · exact (ih hc).imp_right fun ⟨s, hs, hcs⟩ => ⟨s, List.mem_cons_of_mem _ hs, hcs⟩

theorem not_mem_map (hf : Distributes sep f) {xs : List α} {c : α} (hc : c ≠ sep)
    (h : ∀ s ∈ (xs.splitOn sep).map f, c ∉ s) : c ∉ f xs := fun hmem => by
  rcases mem_map_splitOn hf hmem with he | ⟨s, hs, hm⟩
  · exact hc he
  · exact h s hs hm

/-- The length of some parts, each with a separator after it. -/
def span (ss : List (List α)) : Nat := (ss.map fun s => s.length + 1).sum

omit [DecidableEq α] in
@[simp] theorem span_cons (s : List α) (ss : List (List α)) :
    span (s :: ss) = s.length + 1 + span ss := by
  simp [span]

omit [DecidableEq α] in
@[simp] theorem span_append (ss ts : List (List α)) : span (ss ++ ts) = span ss + span ts := by
  simp [span]

theorem span_map_splitOn (hf : Distributes sep f) (xs : List α) :
    span ((xs.splitOn sep).map f) = (f xs).length + 1 := by
  induction xs using split_induction sep with
  | last a ha => simp [List.splitOn_eq_singleton ha, span]
  | first a b ha ih =>
    rw [List.splitOn_append_cons_self_of_not_mem ha, List.map_cons, span_cons, ih, hf,
      List.length_append, List.length_cons]
    omega

theorem splitOn_append_cons (sep : α) (xs ys : List α) :
    (xs ++ sep :: ys).splitOn sep = xs.splitOn sep ++ ys.splitOn sep := by
  induction xs using split_induction sep with
  | last a ha =>
    rw [List.splitOn_append_cons_self_of_not_mem ha, List.splitOn_eq_singleton ha,
      List.singleton_append]
  | first a b ha ih =>
    rw [List.append_assoc, List.cons_append, List.splitOn_append_cons_self_of_not_mem ha, ih,
      List.splitOn_append_cons_self_of_not_mem ha, List.cons_append]

/-- What is mapped has as many parts at least, and no more only if the parts mapped have no
    separator. -/
theorem length_splitOn_map (hf : Distributes sep f) (xs : List α) :
    (xs.splitOn sep).length ≤ ((f xs).splitOn sep).length ∧
      (((f xs).splitOn sep).length = (xs.splitOn sep).length →
        ∀ s ∈ (xs.splitOn sep).map f, sep ∉ s) := by
  have hpos : ∀ ys : List α, 1 ≤ (ys.splitOn sep).length := fun ys =>
    List.length_pos_iff.2 (List.splitOn_ne_nil sep ys)
  have hone : ∀ ys : List α, (ys.splitOn sep).length = 1 → sep ∉ ys := by
    intro ys h hmem
    obtain ⟨a, b, rfl, -⟩ := List.eq_append_cons_of_mem hmem
    rw [splitOn_append_cons, List.length_append] at h
    have := hpos a
    have := hpos b
    omega
  induction xs using split_induction sep with
  | last a ha =>
    rw [List.splitOn_eq_singleton ha]
    exact ⟨hpos _, fun h => List.forall_mem_singleton.2 (hone _ h)⟩
  | first a b ha ih =>
    rw [List.splitOn_append_cons_self_of_not_mem ha, hf, splitOn_append_cons, List.length_append,
      List.length_cons, List.map_cons, List.forall_mem_cons]
    have := hpos (f a)
    exact ⟨by omega, fun h => ⟨hone _ (by omega), ih.2 (by omega)⟩⟩

end Split

/-! ## The pairs of a query -/

section Pairs

variable [DecidableEq α] (amp eq : α)

/-- A piece, cut at its first `eq`. -/
def cut (p : List α) : List α × List α :=
  (p.takeWhile (· ≠ eq), (p.dropWhile (· ≠ eq)).drop 1)

/-- The pairs of a query, from the pieces that are not empty. -/
def pairs (q : List α) : List (List α × List α) :=
  ((q.splitOn amp).filter (· ≠ [])).map (cut eq)

variable {amp eq}

theorem cut_of_not_mem {p : List α} (h : eq ∉ p) : cut eq p = (p, []) := by
  have htake : p.takeWhile (· ≠ eq) = p :=
    List.takeWhile_eq_self_iff.2 fun c hc => by simpa using fun he : c = eq => h (he ▸ hc)
  have hdrop : p.dropWhile (· ≠ eq) = [] :=
    List.dropWhile_eq_nil_iff.2 fun c hc => by simpa using fun he : c = eq => h (he ▸ hc)
  rw [cut, htake, hdrop, List.drop_nil]

theorem cut_append {n : List α} (h : eq ∉ n) (v : List α) : cut eq (n ++ eq :: v) = (n, v) := by
  have hn : ∀ c ∈ n, decide (c ≠ eq) = true := fun c hc => by
    simpa using fun he : c = eq => h (he ▸ hc)
  rw [cut, List.takeWhile_append_of_pos hn, List.dropWhile_append_of_pos hn]
  simp

/-- A name has no `eq`. -/
theorem not_mem_cut_fst (p : List α) : eq ∉ (cut eq p).1 := fun h => by
  simpa using List.mem_takeWhile_imp h

/-- The elements of the components are those of the piece. -/
theorem mem_of_mem_cut {p : List α} {c : α} (h : c ∈ (cut eq p).1 ∨ c ∈ (cut eq p).2) : c ∈ p :=
  h.elim (fun h => (List.takeWhile_sublist _).subset h) fun h =>
    (List.dropWhile_sublist _).subset (List.mem_of_mem_drop h)

theorem pairs_of_not_mem {p : List α} (h : amp ∉ p) :
    pairs amp eq p = if p = [] then [] else [cut eq p] := by
  rw [pairs, List.splitOn_eq_singleton h]
  split_ifs with hp <;> simp [hp]

theorem pairs_append (p q : List α) :
    pairs amp eq (p ++ amp :: q) = pairs amp eq p ++ pairs amp eq q := by
  rw [pairs, splitOn_append_cons, List.filter_append, List.map_append, pairs, pairs]

/-- A pair comes from a piece. -/
theorem exists_piece {q : List α} {p : List α × List α} (h : p ∈ pairs amp eq q) :
    ∃ s ∈ q.splitOn amp, s ≠ [] ∧ p = cut eq s := by
  obtain ⟨s, hs, rfl⟩ := List.mem_map.1 h
  obtain ⟨hs, hne⟩ := List.mem_filter.1 hs
  exact ⟨s, hs, by simpa using hne, rfl⟩

/-- The components of a pair have no separator that they end at. -/
theorem not_mem_of_mem_pairs {q : List α} {p : List α × List α} (h : p ∈ pairs amp eq q) :
    (amp ∉ p.1 ∧ eq ∉ p.1) ∧ amp ∉ p.2 := by
  obtain ⟨s, hs, -, rfl⟩ := exists_piece h
  have hamp := not_mem_of_mem_splitOn amp q s hs
  exact ⟨⟨fun h => hamp (mem_of_mem_cut (.inl h)), not_mem_cut_fst s⟩,
    fun h => hamp (mem_of_mem_cut (.inr h))⟩

/-- The elements of a pair are those of the query. -/
theorem mem_of_mem_pairs {q : List α} {p : List α × List α} (h : p ∈ pairs amp eq q) {c : α}
    (hc : c ∈ p.1 ∨ c ∈ p.2) : c ∈ q := by
  obtain ⟨s, hs, -, rfl⟩ := exists_piece h
  exact mem_of_mem_splitOn hs (mem_of_mem_cut hc)

end Pairs

/-! ## Size -/

/-- Numbers none of which is less than its counterpart, and together no more. -/
theorem le_of_sum_le {ι : Type*} {F G : ι → Nat} {l : List ι} (h : ∀ x ∈ l, F x ≤ G x)
    (hsum : (l.map G).sum ≤ (l.map F).sum) : ∀ x ∈ l, G x ≤ F x := by
  induction l with
  | nil => exact List.forall_mem_nil _
  | cons x l ih =>
    rw [List.forall_mem_cons] at h
    have hl := List.sum_le_sum h.2
    simp only [List.map_cons, List.sum_cons] at hsum
    exact List.forall_mem_cons.2 ⟨by omega, ih h.2 (by omega)⟩

section Size

variable [DecidableEq α] {amp eq : α} {d : List α → List α}

/-- The length of what a pair stands for. -/
def pairSize (d : List α → List α) (p : List α × List α) : Nat := (d p.1).length + (d p.2).length

/-- The length of what the components of a query stand for. -/
def querySize (amp eq : α) (d : List α → List α) (q : List α) : Nat :=
  ((pairs amp eq q).map (pairSize d)).sum

omit [DecidableEq α] in
theorem Distributes.length {sep : α} (hd : Distributes sep d) (a b : List α) :
    (d (a ++ sep :: b)).length = (d a).length + (d b).length + 1 := by
  rw [hd, List.length_append, List.length_cons, Nat.add_assoc]

theorem querySize_append (a b : List α) : querySize amp eq d (a ++ amp :: b) =
    querySize amp eq d a + querySize amp eq d b := by
  rw [querySize, pairs_append, List.map_append, List.sum_append, querySize, querySize]

theorem querySize_of_not_mem (hnil : d [] = []) {p : List α} (h : amp ∉ p) :
    querySize amp eq d p = pairSize d (cut eq p) := by
  rw [querySize, pairs_of_not_mem h]
  split_ifs with hp
  · subst hp
    simp [pairSize, cut, hnil]
  · simp

theorem pairSize_cut (heq : Distributes eq d) (a b : List α) :
    pairSize d (cut eq (a ++ eq :: b)) = (d a).length + (d b).length := by
  by_cases h : eq ∈ a
  · obtain ⟨n, v, rfl, hn⟩ := List.eq_append_cons_of_mem h
    rw [List.append_assoc, List.cons_append, cut_append hn, heq.length]
    simp only [pairSize, heq.length]
    omega
  · rw [cut_append h, pairSize]

theorem pairSize_cut_le (hnil : d [] = []) (heq : Distributes eq d) (p : List α) :
    pairSize d (cut eq p) ≤ (d p).length := by
  by_cases h : eq ∈ p
  · obtain ⟨n, v, rfl, -⟩ := List.eq_append_cons_of_mem h
    rw [pairSize_cut heq, heq.length]
    omega
  · rw [cut_of_not_mem h, pairSize, hnil]
    exact le_rfl

variable (hnil : d [] = [])
include hnil

/-- A piece gets smaller where it is cut off. -/
theorem pairSize_cut_lt {hash : α} (hhash : Distributes hash d) (hheq : hash ≠ eq) (a b : List α) :
    pairSize d (cut eq a) < pairSize d (cut eq (a ++ hash :: b)) := by
  by_cases ha : eq ∈ a
  · obtain ⟨n, v, rfl, hn⟩ := List.eq_append_cons_of_mem ha
    rw [List.append_assoc, List.cons_append, cut_append hn, cut_append hn]
    simp only [pairSize, hhash.length]
    omega
  · by_cases hb : eq ∈ b
    · obtain ⟨n, v, rfl, hn⟩ := List.eq_append_cons_of_mem hb
      have hname : eq ∉ a ++ hash :: n := by simp [ha, hn, hheq.symm]
      rw [← List.cons_append, ← List.append_assoc, cut_append hname, cut_of_not_mem ha]
      simp only [pairSize, hhash.length, hnil, List.length_nil]
      omega
    · have hname : eq ∉ a ++ hash :: b := by simp [ha, hb, hheq.symm]
      rw [cut_of_not_mem hname, cut_of_not_mem ha]
      simp only [pairSize, hhash.length, hnil, List.length_nil]
      omega

/-- A query gets smaller where it is cut off at an element of a component. -/
theorem querySize_takeWhile_lt {hash : α} (hhash : Distributes hash d) (hhamp : hash ≠ amp)
    (hheq : hash ≠ eq) {q : List α} (h : hash ∈ q) :
    querySize amp eq d (q.takeWhile (· ≠ hash)) < querySize amp eq d q := by
  obtain ⟨a, b, rfl, ha⟩ := List.eq_append_cons_of_mem h
  rw [List.takeWhile_append_of_pos fun c hc => by simpa using fun he : c = hash => ha (he ▸ hc),
    List.takeWhile_cons_of_neg (by simp), List.append_nil]
  clear h ha
  induction a using split_induction amp with
  | first a a' _ ih =>
    rw [List.append_assoc, List.cons_append, querySize_append, querySize_append]
    omega
  | last a ha =>
    rw [querySize_of_not_mem hnil ha]
    by_cases hb : amp ∈ b
    · obtain ⟨c, e, rfl, hc⟩ := List.eq_append_cons_of_mem hb
      have hmem : amp ∉ a ++ hash :: c := by simp [ha, hc, hhamp.symm]
      have hlt := pairSize_cut_lt hnil hhash hheq a c
      rw [← List.cons_append, ← List.append_assoc, querySize_append, querySize_of_not_mem hnil hmem]
      omega
    · have hmem : amp ∉ a ++ hash :: b := by simp [ha, hb, hhamp.symm]
      rw [querySize_of_not_mem hnil hmem]
      exact pairSize_cut_lt hnil hhash hheq a b

variable (hamp : Distributes amp d) (heq : Distributes eq d)
include hamp heq

theorem querySize_le (s : List α) : querySize amp eq d s ≤ (d s).length := by
  induction s using split_induction amp with
  | last p hp => exact querySize_of_not_mem hnil hp ▸ pairSize_cut_le hnil heq p
  | first p q hp ih =>
    have := pairSize_cut_le hnil heq p
    rw [querySize_append, querySize_of_not_mem hnil hp, hamp.length]
    omega

/-- An `amp` counts for nothing. -/
theorem querySize_lt {s : List α} (h : amp ∈ s) : querySize amp eq d s < (d s).length := by
  obtain ⟨a, b, rfl, -⟩ := List.eq_append_cons_of_mem h
  have ha := querySize_le hnil hamp heq a
  have hb := querySize_le hnil hamp heq b
  rw [querySize_append, hamp.length]
  omega

/-- A name and a value, joined. -/
theorem querySize_eq_le (n v : List α) :
    querySize amp eq d (n ++ eq :: v) ≤ (d n).length + (d v).length := by
  by_cases hne : amp = eq
  · subst hne
    have hn := querySize_le hnil hamp heq n
    have hv := querySize_le hnil hamp heq v
    rw [querySize_append]
    omega
  induction n using split_induction amp with
  | first a n _ ih =>
    have ha := querySize_le hnil hamp heq a
    rw [List.append_assoc, List.cons_append, querySize_append, hamp.length]
    omega
  | last n hn =>
    have hpiece : ∀ a, amp ∉ a →
        querySize amp eq d (n ++ eq :: a) = (d n).length + (d a).length := by
      intro a ha
      have hmem : amp ∉ n ++ eq :: a := by simp [hn, ha, hne]
      rw [querySize_of_not_mem hnil hmem, pairSize_cut heq]
    by_cases hv : amp ∈ v
    · obtain ⟨a, b, rfl, ha⟩ := List.eq_append_cons_of_mem hv
      have hb := querySize_le hnil hamp heq b
      rw [← List.cons_append, ← List.append_assoc, querySize_append, hpiece a ha, hamp.length]
      omega
    · exact (hpiece v hv).le

/-- An `amp` in one of them counts for nothing. -/
theorem querySize_eq_lt {n v : List α} (h : amp ∈ n ∨ amp ∈ v) :
    querySize amp eq d (n ++ eq :: v) < (d n).length + (d v).length := by
  rcases h with h | h
  · obtain ⟨a, b, rfl, -⟩ := List.eq_append_cons_of_mem h
    have ha := querySize_le hnil hamp heq a
    have hb := querySize_eq_le hnil hamp heq b v
    rw [List.append_assoc, List.cons_append, querySize_append, hamp.length]
    omega
  · obtain ⟨a, b, rfl, -⟩ := List.eq_append_cons_of_mem h
    have ha := querySize_eq_le hnil hamp heq n a
    have hb := querySize_le hnil hamp heq b
    rw [← List.cons_append, ← List.append_assoc, querySize_append, hamp.length]
    omega

end Size

/-! ## Mapped queries -/

section Mapped

variable [DecidableEq α] {amp eq hash : α} {f : List α → List α}

/-- A piece mapped is its name mapped, or its name and its value. -/
theorem map_piece (heq : Distributes eq f) (p : List α) :
    (eq ∉ p ∧ f p = f (cut eq p).1) ∨ f p = f (cut eq p).1 ++ eq :: f (cut eq p).2 := by
  by_cases h : eq ∈ p
  · obtain ⟨n, v, rfl, hn⟩ := List.eq_append_cons_of_mem h
    rw [cut_append hn, heq]
    exact .inr rfl
  · rw [cut_of_not_mem h]
    exact .inl ⟨h, rfl⟩

/-- A piece mapped has the components mapped, if the name has no `eq`. -/
theorem cut_map (heq : Distributes eq f) (hnil : f [] = []) {p : List α}
    (hname : eq ∉ f (cut eq p).1) : cut eq (f p) = Prod.map f f (cut eq p) := by
  rcases map_piece heq p with ⟨h, hp⟩ | hp
  · rw [hp, cut_of_not_mem hname, cut_of_not_mem h]
    simp [hnil]
  · rw [hp, cut_append hname]
    rfl

/-- A pair comes from a piece, and a piece that is not empty gives one. -/
theorem cut_mem_pairs {q s : List α} (hs : s ∈ q.splitOn amp) (hne : s ≠ []) :
    cut eq s ∈ pairs amp eq q :=
  List.mem_map_of_mem (List.mem_filter.2 ⟨hs, by simpa using hne⟩)

/-- An element of a query mapped is a separator, or in a component mapped. -/
theorem mem_map_query (hamp : Distributes amp f) (heq : Distributes eq f) (hnil : f [] = [])
    {q : List α} {c : α} (hc : c ∈ f q) : c = amp ∨ c = eq ∨
      ∃ p ∈ pairs amp eq q, c ∈ f p.1 ∨ c ∈ f p.2 := by
  rcases mem_map_splitOn hamp hc with rfl | ⟨_, hmem, hc⟩
  · exact .inl rfl
  · obtain ⟨s, hs, rfl⟩ := List.mem_map.1 hmem
    have hne : s ≠ [] := by
      rintro rfl
      rw [hnil] at hc
      cases hc
    rcases map_piece heq s with ⟨_, h⟩ | h
    · rw [h] at hc
      exact .inr (.inr ⟨_, cut_mem_pairs hs hne, .inl hc⟩)
    · rw [h, List.mem_append, List.mem_cons] at hc
      rcases hc with hc | rfl | hc
      · exact .inr (.inr ⟨_, cut_mem_pairs hs hne, .inl hc⟩)
      · exact .inr (.inl rfl)
      · exact .inr (.inr ⟨_, cut_mem_pairs hs hne, .inr hc⟩)

/-- A query mapped has the pieces mapped, if no component mapped has an `amp`, and none of
    them becomes empty. -/
theorem pairs_map_pieces (hamp : Distributes amp f) (heq : Distributes eq f) (hne : amp ≠ eq)
    (hnil : f [] = []) {q : List α} (hempty : ∀ s ∈ q.splitOn amp, f s = [] → s = [])
    (hfree : ∀ p ∈ pairs amp eq q, amp ∉ f p.1 ∧ amp ∉ f p.2) :
    pairs amp eq (f q) = ((q.splitOn amp).filter (· ≠ [])).map fun s => cut eq (f s) := by
  have hsplit : ∀ s ∈ (q.splitOn amp).map f, amp ∉ s := by
    intro _ hmap hin
    obtain ⟨s, hs, rfl⟩ := List.mem_map.1 hmap
    by_cases h : s = []
    · rw [h, hnil] at hin
      cases hin
    · obtain ⟨hname, hvalue⟩ := hfree _ (cut_mem_pairs hs h)
      rcases map_piece heq s with ⟨_, hp⟩ | hp
      · rw [hp] at hin
        exact hname hin
      · rw [hp, List.mem_append, List.mem_cons] at hin
        rcases hin with hin | hin | hin
        · exact hname hin
        · exact hne hin
        · exact hvalue hin
  rw [pairs, splitOn_map hamp hsplit, List.filter_map, List.map_map]
  refine congrArg (List.map _) (List.filter_congr fun s hs => ?_)
  have hiff : f s = [] ↔ s = [] := ⟨hempty s hs, fun h => h ▸ hnil⟩
  simp [hiff]

/-- The pairs of a query mapped are the pairs mapped, if moreover no name has an `eq`. -/
theorem pairs_map (hamp : Distributes amp f) (heq : Distributes eq f) (hne : amp ≠ eq)
    (hnil : f [] = []) {q : List α} (hempty : ∀ s ∈ q.splitOn amp, f s = [] → s = [])
    (hfree : ∀ p ∈ pairs amp eq q, amp ∉ f p.1 ∧ amp ∉ f p.2)
    (hname : ∀ p ∈ pairs amp eq q, eq ∉ f p.1) :
    pairs amp eq (f q) = (pairs amp eq q).map (Prod.map f f) := by
  rw [pairs_map_pieces hamp heq hne hnil hempty hfree, pairs, List.map_map]
  refine List.map_congr_left fun s hs => ?_
  obtain ⟨hs, h⟩ := List.mem_filter.1 hs
  exact cut_map heq hnil (hname _ (cut_mem_pairs hs (by simpa using h)))

theorem takeWhile_ne_of_not_mem {s : List α} (h : hash ∉ s) : s.takeWhile (· ≠ hash) = s :=
  List.takeWhile_eq_self_iff.2 fun c hc => by simpa using fun he : c = hash => h (he ▸ hc)

/-- What the components of a query stand for. -/
structure Meaning (amp eq hash : α) (d : List α → List α) : Prop where
  atAmp : Distributes amp d
  atEq : Distributes eq d
  atHash : Distributes hash d
  nil : ∀ s, d s = [] ↔ s = []

/-- A map that makes no component stand for more. -/
structure Decoding (amp eq : α) (d f : List α → List α) : Prop where
  atAmp : Distributes amp f
  atEq : Distributes eq f
  nil : ∀ s, f s = [] ↔ s = []
  length_le : ∀ s, (d (f s)).length ≤ (d s).length

/-- A map that brings no separators in, and keeps what the components stand for that are
    `kept`, but not the others. -/
structure Quoting (amp eq : α) (d : List α → List α) (kept : List α → Prop)
    (k : List α → List α) : Prop where
  atAmp : Distributes amp k
  atEq : Distributes eq k
  not_mem_amp : ∀ s, amp ∉ s → amp ∉ k s
  not_mem_eq : ∀ s, eq ∉ s → eq ∉ k s
  keep : ∀ s, kept s → d (k s) = d s
  drop : ∀ s, ¬kept s → (d (k s)).length < (d s).length

/-- The pair stands for the same when it is mapped, and has no separator then. -/
def Stable (amp eq hash : α) (d f : List α → List α) (kept : List α → Prop)
    (p : List α × List α) : Prop :=
  (amp ∉ f p.1 ∧ eq ∉ f p.1 ∧ hash ∉ f p.1 ∧ kept (f p.1) ∧ d (f p.1) = d p.1) ∧
    amp ∉ f p.2 ∧ hash ∉ f p.2 ∧ kept (f p.2) ∧ d (f p.2) = d p.2

instance (amp eq hash : α) (d f : List α → List α) (kept : List α → Prop) [DecidablePred kept]
    (p : List α × List α) : Decidable (Stable amp eq hash d f kept p) :=
  inferInstanceAs (Decidable ((_ ∧ _ ∧ _ ∧ _ ∧ _) ∧ _ ∧ _ ∧ _ ∧ _))

variable {d k : List α → List α} {kept : List α → Prop}

/-- A query mapped is no larger than its components mapped, and smaller if one of these has
    an `amp`. -/
theorem querySize_map_le (hd : Meaning amp eq hash d) (hamp : Distributes amp f)
    (heq : Distributes eq f) (hnil : f [] = []) (q : List α) :
    querySize amp eq d (f q) ≤ ((pairs amp eq q).map fun p => pairSize d (Prod.map f f p)).sum ∧
      ((∃ p ∈ pairs amp eq q, amp ∈ f p.1 ∨ amp ∈ f p.2) → querySize amp eq d (f q) <
        ((pairs amp eq q).map fun p => pairSize d (Prod.map f f p)).sum) := by
  have hdnil := (hd.nil []).2 rfl
  have hpiece : ∀ p, amp ∉ p → querySize amp eq d (f p) ≤
      ((pairs amp eq p).map fun p => pairSize d (Prod.map f f p)).sum ∧
      ((∃ r ∈ pairs amp eq p, amp ∈ f r.1 ∨ amp ∈ f r.2) → querySize amp eq d (f p) <
        ((pairs amp eq p).map fun p => pairSize d (Prod.map f f p)).sum) := by
    intro p hp
    rw [pairs_of_not_mem hp]
    split_ifs with hempty
    · subst hempty
      simp [hnil, querySize, pairs]
    · simp only [List.map_singleton, List.sum_singleton, List.mem_singleton, exists_eq_left,
        pairSize, Prod.map_fst, Prod.map_snd]
      rcases map_piece heq p with ⟨hmem, h⟩ | h
      · -- There is no value.
        rw [h, cut_of_not_mem hmem]
        simp only [hnil, hdnil, List.length_nil, List.not_mem_nil, or_false, Nat.add_zero]
        exact ⟨querySize_le hdnil hd.atAmp hd.atEq _, querySize_lt hdnil hd.atAmp hd.atEq⟩
      · rw [h]
        exact ⟨querySize_eq_le hdnil hd.atAmp hd.atEq _ _, querySize_eq_lt hdnil hd.atAmp hd.atEq⟩
  induction q using split_induction amp with
  | last p hp => exact hpiece p hp
  | first p q hp ih =>
    obtain ⟨hle, hlt⟩ := hpiece p hp
    simp only [hamp p q, querySize_append, pairs_append, List.map_append, List.sum_append,
      List.mem_append]
    refine ⟨Nat.add_le_add hle ih.1, ?_⟩
    rintro ⟨r, hr | hr, hmem⟩
    · exact Nat.add_lt_add_of_lt_of_le (hlt ⟨r, hr, hmem⟩) ih.1
    · exact Nat.add_lt_add_of_le_of_lt hle (ih.2 ⟨r, hr, hmem⟩)

omit [DecidableEq α] in
theorem Quoting.nil (hd : Meaning amp eq hash d) (hk : Quoting amp eq d kept k) : k [] = [] := by
  have hdnil := (hd.nil []).2 rfl
  by_cases h : kept []
  · rw [← hd.nil, hk.keep [] h, hdnil]
  · have := hk.drop [] h
    rw [hdnil] at this
    exact absurd this (Nat.not_lt_zero _)

omit [DecidableEq α] in
/-- Components that are kept do not become empty. -/
theorem Quoting.eq_nil (hd : Meaning amp eq hash d) (hk : Quoting amp eq d kept k) {s : List α}
    (hs : kept s) (h : k s = []) : s = [] := by
  rw [← hd.nil, ← hk.keep s hs, h, hd.nil]

omit [DecidableEq α] in
theorem Quoting.length_le (hk : Quoting amp eq d kept k) (s : List α) :
    (d (k s)).length ≤ (d s).length := by
  by_cases h : kept s
  · rw [hk.keep s h]
  · exact (hk.drop s h).le

theorem querySize_congr {q q' : List α}
    (h : (pairs amp eq q).map (Prod.map d d) = (pairs amp eq q').map (Prod.map d d)) :
    querySize amp eq d q = querySize amp eq d q' := by
  have hsize : ∀ q, querySize amp eq d q =
      (((pairs amp eq q).map (Prod.map d d)).map fun p => p.1.length + p.2.length).sum := by
    intro q
    rw [querySize, List.map_map]
    rfl
  rw [hsize, hsize, h]

/-- If the pairs survive, nothing is lost on the way: no separator comes in, nothing is cut
    off, and all components are kept. -/
theorem nothing_lost (hd : Meaning amp eq hash d) (hf : Decoding amp eq d f)
    (hk : Quoting amp eq d kept k) (hhamp : hash ≠ amp) (hheq : hash ≠ eq) {q : List α}
    (h : (pairs amp eq (k ((f q).takeWhile (· ≠ hash)))).map (Prod.map d d) =
      (pairs amp eq q).map (Prod.map d d)) :
    (∀ p ∈ pairs amp eq q, amp ∉ f p.1 ∧ amp ∉ f p.2) ∧ hash ∉ f q ∧
      ∀ p ∈ pairs amp eq (f q), kept p.1 ∧ kept p.2 := by
  have hsize := querySize_congr h
  have hquote := (querySize_map_le hd hk.atAmp hk.atEq (hk.nil hd) ((f q).takeWhile (· ≠ hash))).1
  have hdecode := querySize_map_le hd hf.atAmp hf.atEq ((hf.nil []).2 rfl) q
  have hless : ∀ p ∈ pairs amp eq q, pairSize d (Prod.map f f p) ≤ pairSize d p :=
    fun p _ => Nat.add_le_add (hf.length_le p.1) (hf.length_le p.2)
  have hless' : ∀ p ∈ pairs amp eq ((f q).takeWhile (· ≠ hash)),
      pairSize d (Prod.map k k p) ≤ pairSize d p :=
    fun p _ => Nat.add_le_add (hk.length_le p.1) (hk.length_le p.2)
  have hsum := List.sum_le_sum hless
  have hsum' := List.sum_le_sum hless'
  have hhash : hash ∉ f q := by
    intro hmem
    have := querySize_takeWhile_lt ((hd.nil []).2 rfl) hd.atHash hhamp hheq hmem
    simp only [querySize] at *
    omega
  rw [takeWhile_ne_of_not_mem hhash] at hquote hless' hsum' hsize
  refine ⟨fun p hp => ?_, hhash, fun p hp => ?_⟩
  · by_contra hmem
    have := hdecode.2 ⟨p, hp, by tauto⟩
    simp only [querySize] at *
    omega
  · have hle := le_of_sum_le hless' (by simp only [querySize] at *; omega) p hp
    have h1 := hk.length_le p.1
    have h2 := hk.length_le p.2
    simp only [pairSize, Prod.map_fst, Prod.map_snd] at hle
    refine ⟨?_, ?_⟩ <;> by_contra hnot
    · have := hk.drop _ hnot
      omega
    · have := hk.drop _ hnot
      omega

/-- What is quoted stands for the same, if all components are kept. -/
theorem map_pairs_quoting (hd : Meaning amp eq hash d) (hk : Quoting amp eq d kept k)
    (hne : amp ≠ eq) {q : List α} (hkept : ∀ p ∈ pairs amp eq q, kept p.1 ∧ kept p.2) :
    (pairs amp eq (k q)).map (Prod.map d d) = (pairs amp eq q).map (Prod.map d d) := by
  have hempty : ∀ s ∈ q.splitOn amp, k s = [] → s = [] := by
    intro s hs hks
    by_contra h
    have hname : kept (cut eq s).1 := (hkept _ (cut_mem_pairs hs h)).1
    rcases map_piece hk.atEq s with ⟨hmem, hp⟩ | hp
    · rw [cut_of_not_mem hmem] at hname
      exact h (hk.eq_nil hd hname hks)
    · rw [hp] at hks
      simp at hks
  rw [pairs_map hk.atAmp hk.atEq hne (hk.nil hd) hempty
    (fun p hp => ⟨hk.not_mem_amp _ (not_mem_of_mem_pairs hp).1.1,
      hk.not_mem_amp _ (not_mem_of_mem_pairs hp).2⟩)
    fun p hp => hk.not_mem_eq _ (not_mem_of_mem_pairs hp).1.2, List.map_map]
  exact List.map_congr_left fun p hp =>
    Prod.ext (hk.keep _ (hkept p hp).1) (hk.keep _ (hkept p hp).2)

/-- A name that stands for the same when it is taken again has no new `eq`. -/
theorem cut_eq_of_decoding (hd : Meaning amp eq hash d) (hf : Decoding amp eq d f) {s : List α}
    (h : d (cut eq (f s)).1 = d (cut eq s).1) : cut eq (f s) = Prod.map f f (cut eq s) := by
  refine cut_map hf.atEq ((hf.nil []).2 rfl) fun hmem => ?_
  obtain ⟨a, b, hab, ha⟩ := List.eq_append_cons_of_mem hmem
  -- The name would end before it, and stand for less.
  have hname : (cut eq (f s)).1 = a := by
    rcases map_piece hf.atEq s with ⟨-, hp⟩ | hp
    · rw [hp, hab, cut_append ha]
    · rw [hp, hab, List.append_assoc, List.cons_append, cut_append ha]
  have hle := hf.length_le (cut eq s).1
  rw [hab, hd.atEq.length, ← h, hname] at hle
  omega

/-- What the pairs of a query stand for survives a map, when they are taken again from the
    query mapped, up to a terminator and quoted, exactly when the components are stable. -/
theorem pairs_map_iff (hd : Meaning amp eq hash d) (hf : Decoding amp eq d f)
    (hk : Quoting amp eq d kept k) (hne : amp ≠ eq) (hhamp : hash ≠ amp) (hheq : hash ≠ eq)
    (q : List α) :
    (pairs amp eq (k ((f q).takeWhile (· ≠ hash)))).map (Prod.map d d) =
        (pairs amp eq q).map (Prod.map d d) ↔
      ∀ p ∈ pairs amp eq q, Stable amp eq hash d f kept p := by
  have hfnil := (hf.nil []).2 rfl
  have hempty : ∀ s ∈ q.splitOn amp, f s = [] → s = [] := fun s _ h => (hf.nil s).1 h
  constructor
  · intro h
    obtain ⟨hfree, hhash, hkept⟩ := nothing_lost hd hf hk hhamp hheq h
    rw [takeWhile_ne_of_not_mem hhash, map_pairs_quoting hd hk hne hkept,
      pairs_map_pieces hf.atAmp hf.atEq hne hfnil hempty hfree, pairs, List.map_map, List.map_map,
      List.map_inj_left] at h
    rw [pairs_map_pieces hf.atAmp hf.atEq hne hfnil hempty hfree, List.forall_mem_map] at hkept
    rintro p hp
    obtain ⟨s, hs, rfl⟩ := List.mem_map.1 hp
    have hsame := h s hs
    simp only [Function.comp_apply, Prod.ext_iff, Prod.map_fst, Prod.map_snd] at hsame
    have hcut := cut_eq_of_decoding hd hf hsame.1
    have hks := hkept s hs
    rw [hcut] at hsame hks
    have heq : eq ∉ (cut eq (f s)).1 := not_mem_cut_fst (f s)
    rw [hcut] at heq
    have hmem : ∀ c, c ∈ f (cut eq s).1 ∨ c ∈ f (cut eq s).2 → c ∈ f q := by
      intro c hc
      have hpair : cut eq (f s) ∈ pairs amp eq (f q) := by
        rw [pairs_map_pieces hf.atAmp hf.atEq hne hfnil hempty hfree]
        exact List.mem_map_of_mem hs
      rw [hcut] at hpair
      exact mem_of_mem_pairs hpair hc
    exact ⟨⟨(hfree _ hp).1, heq, fun hc => hhash (hmem _ (.inl hc)), hks.1, hsame.1⟩,
      (hfree _ hp).2, fun hc => hhash (hmem _ (.inr hc)), hks.2, hsame.2⟩
  · intro h
    have hhash : hash ∉ f q := fun hin => by
      rcases mem_map_query hf.atAmp hf.atEq hfnil hin with he | he | ⟨p, hp, hin | hin⟩
      · exact hhamp he
      · exact hheq he
      · exact (h p hp).1.2.2.1 hin
      · exact (h p hp).2.2.1 hin
    have hpairs := pairs_map hf.atAmp hf.atEq hne hfnil hempty
      (fun p hp => ⟨(h p hp).1.1, (h p hp).2.1⟩) fun p hp => (h p hp).1.2.1
    rw [takeWhile_ne_of_not_mem hhash, map_pairs_quoting hd hk hne, hpairs, List.map_map]
    · exact List.map_congr_left fun p hp => Prod.ext (h p hp).1.2.2.2.2 (h p hp).2.2.2.2
    · rw [hpairs, List.forall_mem_map]
      exact fun p hp => ⟨(h p hp).1.2.2.2.1, (h p hp).2.2.2.1⟩

end Mapped

end FlashNext.Delimited
