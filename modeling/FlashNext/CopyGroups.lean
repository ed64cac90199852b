import FlashNext.Copies

/-!
# Groups of programs that copy

The programs of a launch in groups that leave the addresses of each other alone: no group
stores to an address that another one touches (`Apart`).

* `Interleaving.append`: an interleaving of the programs of two groups is one of each
  group, and these interleave;
* `runCopies_groups`: whatever the interleaving, every group leaves at its addresses what
  it leaves alone, and every other address is as it was.
-/

namespace FlashNext

/-- The programs of two groups: each group has an interleaving of its own. -/
theorem Interleaving.append {α : Type*} {ls ls' : List (List α)} {l : List α}
    (h : Interleaving (ls ++ ls') l) :
    ∃ p q, Interleaving ls p ∧ Interleaving ls' q ∧ Interleaving [p, q] l := by
  generalize hall : ls ++ ls' = all at h
  induction h generalizing ls ls' with
  | nil hnil =>
    subst hall
    rw [List.forall_mem_append] at hnil
    exact ⟨[], [], .nil hnil.1, .nil hnil.2, .nil (by simp)⟩
  | @cons all i x rest l hi _ ih =>
    subst hall
    by_cases hlt : i < ls.length
    · obtain ⟨p, q, hp, hq, hpq⟩ := ih (List.set_append_left i rest hlt).symm
      rw [List.getElem?_append_left hlt] at hi
      exact ⟨x :: p, q, .cons hi hp, hq, .cons (i := 0) rfl hpq⟩
    · have hge := not_lt.1 hlt
      obtain ⟨p, q, hp, hq, hpq⟩ := ih (List.set_append_right i rest hge).symm
      rw [List.getElem?_append_right hge] at hi
      exact ⟨p, x :: q, hp, .cons hi hq, .cons (i := 1) rfl hpq⟩

variable {A V : Type*}

/-- The program stores to the address. -/
def Stores (p : List (List (A × A))) (a : A) : Prop := ∃ v ∈ p, ∃ x ∈ v, x.2 = a

/-- The program loads from the address. -/
def Loads (p : List (List (A × A))) (a : A) : Prop := ∃ v ∈ p, ∃ x ∈ v, x.1 = a

/-- Neither program stores to an address that the other one touches. -/
structure Apart (p q : List (List (A × A))) : Prop where
  stores : ∀ a, Stores p a → ¬Stores q a
  left : ∀ a, Stores p a → ¬Loads q a
  right : ∀ a, Stores q a → ¬Loads p a

variable {p q l : List (List (A × A))} {u : List (A × A)} {a : A}

theorem stores_cons : Stores (u :: p) a ↔ (∃ x ∈ u, x.2 = a) ∨ Stores p a := by simp [Stores]

theorem loads_cons : Loads (u :: p) a ↔ (∃ x ∈ u, x.1 = a) ∨ Loads p a := by simp [Loads]

theorem stores_flatten {ps : List (List (List (A × A)))} :
    Stores ps.flatten a ↔ ∃ p ∈ ps, Stores p a := by
  simp only [Stores, List.mem_flatten]
  exact ⟨fun ⟨v, ⟨p, hp, hv⟩, hx⟩ => ⟨p, hp, v, hv, hx⟩,
    fun ⟨p, hp, v, hv, hx⟩ => ⟨v, ⟨p, hp, hv⟩, hx⟩⟩

theorem loads_flatten {ps : List (List (List (A × A)))} :
    Loads ps.flatten a ↔ ∃ p ∈ ps, Loads p a := by
  simp only [Loads, List.mem_flatten]
  exact ⟨fun ⟨v, ⟨p, hp, hv⟩, hx⟩ => ⟨p, hp, v, hv, hx⟩,
    fun ⟨p, hp, v, hv, hx⟩ => ⟨v, ⟨p, hp, hv⟩, hx⟩⟩

theorem stores_perm (h : l.Perm p) : Stores l a ↔ Stores p a := by simp [Stores, h.mem_iff]

theorem loads_perm (h : l.Perm p) : Loads l a ↔ Loads p a := by simp [Loads, h.mem_iff]

theorem Apart.symm (h : Apart p q) : Apart q p :=
  ⟨fun a hq hp => h.stores a hp hq, h.right, h.left⟩

theorem Apart.tail (h : Apart (u :: p) q) : Apart p q where
  stores a hp := h.stores a (stores_cons.2 (.inr hp))
  left a hp := h.left a (stores_cons.2 (.inr hp))
  right a hq hp := h.right a hq (loads_cons.2 (.inr hp))

theorem Apart.perm (h : Apart p q) {p' q' : List (List (A × A))} (hp : p'.Perm p)
    (hq : q'.Perm q) : Apart p' q' where
  stores a hs hs' := h.stores a ((stores_perm hp).1 hs) ((stores_perm hq).1 hs')
  left a hs hl := h.left a ((stores_perm hp).1 hs) ((loads_perm hq).1 hl)
  right a hs hl := h.right a ((stores_perm hq).1 hs) ((loads_perm hp).1 hl)

theorem Apart.flatten {ps : List (List (List (A × A)))} (h : ∀ q ∈ ps, Apart p q) :
    Apart p ps.flatten where
  stores a hp hs := by
    obtain ⟨q, hq, hs⟩ := stores_flatten.1 hs
    exact (h q hq).stores a hp hs
  left a hp hl := by
    obtain ⟨q, hq, hl⟩ := loads_flatten.1 hl
    exact (h q hq).left a hp hl
  right a hs hl := by
    obtain ⟨q, hq, hs⟩ := stores_flatten.1 hs
    exact (h q hq).right a hs hl

variable [DecidableEq A] {m m' : A → V}

/-- A program leaves the addresses that it does not store to. -/
theorem runCopies_frame (h : ¬Stores p a) : runCopies m p a = m a := by
  induction p generalizing m with
  | nil => rfl
  | cons u p ih =>
    rw [stores_cons, not_or] at h
    exact (ih h.2).trans (scatter_of_ne fun x hx heq => h.1 ⟨x, hx, heq⟩)

/-- What is put in by a scatter depends on the values. -/
theorem scatter_congr {α κ β : Type*} [DecidableEq κ] {key : α → κ} {val val' : α → β}
    {xs : List α} {m m' : κ → β} {k : κ} (hval : ∀ x ∈ xs, val x = val' x)
    (hk : (∃ x ∈ xs, key x = k) ∨ m k = m' k) :
    scatter key val xs m k = scatter key val' xs m' k := by
  induction xs generalizing m m' with
  | nil => exact hk.resolve_left (by simp)
  | cons x xs ih =>
    rw [List.forall_mem_cons] at hval
    refine ih hval.2 ?_
    rw [List.exists_mem_cons_iff, or_assoc] at hk
    rcases hk with rfl | hmem | hk
    · simp [hval.1]
    · exact .inl hmem
    · refine .inr ?_
      simp only [Function.update_apply, hval.1, hk]

/-- What a copy leaves depends on what it loads. -/
theorem copyMoves_congr (hloads : ∀ x ∈ u, m x.1 = m' x.1)
    (ha : (∃ x ∈ u, x.2 = a) ∨ m a = m' a) : copyMoves m u a = copyMoves m' u a :=
  scatter_congr hloads ha

/-- Two memories that agree where a program loads agree where they did, and where it
    stores. -/
theorem runCopies_congr {S : A → Prop} (h : ∀ a, S a → m a = m' a)
    (hloads : ∀ a, Loads p a → S a) (ha : Stores p a ∨ S a) :
    runCopies m p a = runCopies m' p a := by
  induction p generalizing m m' S with
  | nil =>
    rcases ha with ⟨v, hv, -⟩ | ha
    · cases hv
    · exact h a ha
  | cons u p ih =>
    have hu : ∀ x ∈ u, m x.1 = m' x.1 := fun x hx =>
      h _ (hloads _ (loads_cons.2 (.inl ⟨x, hx, rfl⟩)))
    refine ih (S := fun a => S a ∨ ∃ x ∈ u, x.2 = a) ?_ ?_ ?_
    · rintro b (hb | hb)
      · exact copyMoves_congr hu (.inr (h b hb))
      · exact copyMoves_congr hu (.inl hb)
    · exact fun b hb => .inl (hloads b (loads_cons.2 (.inr hb)))
    · rw [stores_cons] at ha
      tauto

/-- Two programs that leave the addresses of each other alone. -/
theorem runCopies_pair (h : Interleaving [p, q] l) (hapart : Apart p q) (m : A → V) :
    (∀ a, ¬Stores q a → runCopies m l a = runCopies m p a) ∧
    ∀ a, ¬Stores p a → runCopies m l a = runCopies m q a := by
  generalize hall : [p, q] = all at h
  induction h generalizing p q m with
  | nil hnil =>
    subst hall
    obtain ⟨rfl, rfl⟩ : p = [] ∧ q = [] := by simpa using hnil
    exact ⟨fun _ _ => rfl, fun _ _ => rfl⟩
  | @cons all i x rest l hi _ ih =>
    subst hall
    -- A copy of the one program is out of sight for the other one.
    have hsee : ∀ {p q : List (List (A × A))}, Apart (x :: p) q → ∀ a, ¬Stores (x :: p) a →
        runCopies (copyMoves m x) q a = runCopies m q a := fun {p q} hapart a ha => by
      refine runCopies_congr (S := fun a => ¬Stores (x :: p) a) (fun b hb => ?_) (fun b hb hs => ?_)
        (.inr ha)
      · exact scatter_of_ne fun y hy heq => hb (stores_cons.2 (.inl ⟨y, hy, heq⟩))
      · exact hapart.left b hs hb
    match i with
    | 0 =>
      obtain rfl : p = x :: rest := by simpa using hi
      obtain ⟨hp, hq⟩ := ih hapart.tail (copyMoves m x) rfl
      refine ⟨fun a ha => hp a ha, fun a ha => ?_⟩
      exact (hq a fun hs => ha (stores_cons.2 (.inr hs))).trans (hsee hapart a ha)
    | 1 =>
      obtain rfl : q = x :: rest := by simpa using hi
      obtain ⟨hp, hq⟩ := ih hapart.symm.tail.symm (copyMoves m x) rfl
      refine ⟨fun a ha => ?_, fun a ha => hq a ha⟩
      exact (hp a fun hs => ha (stores_cons.2 (.inr hs))).trans (hsee hapart.symm a ha)
    | i + 2 => simp at hi

/-- Groups of programs that leave the addresses of each other alone: each leaves what it
    leaves alone, with its programs in some interleaving. -/
theorem runCopies_groups {gs : List (List (List (List (A × A))))} (h : Interleaving gs.flatten l)
    (hapart : gs.Pairwise fun g g' => Apart g.flatten g'.flatten) (m : A → V) :
    (∀ g ∈ gs, ∃ p, Interleaving g p ∧
      ∀ a, Stores g.flatten a → runCopies m l a = runCopies m p a) ∧
    ∀ a, (∀ g ∈ gs, ¬Stores g.flatten a) → runCopies m l a = m a := by
  constructor
  · induction gs generalizing l with
    | nil => exact fun g hg => by cases hg
    | cons g gs ih =>
      rw [List.pairwise_cons] at hapart
      rw [List.flatten_cons] at h
      obtain ⟨p, q, hp, hq, hpq⟩ := h.append
      have hpart : Apart p q := by
        have hall : Apart g.flatten (gs.map List.flatten).flatten :=
          .flatten fun q hq => by
            obtain ⟨g', hg', rfl⟩ := List.mem_map.1 hq
            exact hapart.1 g' hg'
        rw [← List.flatten_flatten] at hall
        exact hall.perm hp.perm hq.perm
      obtain ⟨hleft, hright⟩ := runCopies_pair hpq hpart m
      intro g' hg'
      rcases List.mem_cons.1 hg' with rfl | hg'
      · refine ⟨p, hp, fun a ha => hleft a (hpart.stores a ?_)⟩
        exact (stores_perm hp.perm).2 ha
      · obtain ⟨p', hp', heq⟩ := ih hq hapart.2 g' hg'
        refine ⟨p', hp', fun a ha => (hright a fun hs => ?_).trans (heq a ha)⟩
        exact (hapart.1 g' hg').stores a ((stores_perm hp.perm).1 hs) ha
  · intro a ha
    refine runCopies_frame fun hs => ?_
    rw [stores_perm h.perm, List.flatten_flatten, stores_flatten] at hs
    obtain ⟨p, hp, hs⟩ := hs
    obtain ⟨g, hg, rfl⟩ := List.mem_map.1 hp
    exact ha g hg hs

end FlashNext
