import Mathlib.Data.List.ProdSigma
import FlashNext.CopyGroups
import FlashNext.Mamba.Kernels

/-!
# A launch of a Mamba kernel

The programs of a kernel for all requests, states and tiles, in any interleaving. The
states have pools of their own, and no request writes a block that another one of the
launch reads or writes (`Kernel.Separate`).

* `launch_moves`: every copy moves what it would move alone;
* `launch_frame`: outside of the blocks that are written, nothing changes;
* `launch_window`: a copy whose block ids are in range brings the state at an offset of
  its source to the front of its destination;
* `Separate.settled`: if no conv state is shifted in its block, the moves of a launch may be
  made in any order.

A state at an offset (`Window`) is a part of a block, from a token on, if it is a conv state,
and all of the block at the column so many places further on if it is a temporal one.
-/

namespace FlashNext.Mamba

namespace MambaState

variable (s : MambaState) (l : Launch)

/-- Where the bytes of a window of `n` tokens are, from its first one on. -/
def Pos (n : Nat) (pos : Int) : Prop :=
  if 0 < s.convWidth then
    if l.convStateDimFirst then
      ∃ token < n, ∃ row < s.dimRowCount, ∃ k < s.elemSize,
        pos = row * s.dimRowStride + (token : Int) * s.elemSize + k
    else ∃ token < n, ∃ k < s.tokenBytes, pos = (token : Int) * s.tokenBytes + k
  else ∃ k < s.innerSize * s.elemSize, pos = (k : Nat)

/-- How far an offset of a conv state is from the front of its block. -/
def offsetBytes (off : Int) : Int :=
  if 0 < s.convWidth then if l.convStateDimFirst then off * s.elemSize else off * s.tokenBytes
  else 0

/-- The block has the window `x` of `n` tokens at an offset. -/
def Window {V : Type*} (n : Nat) (m : Int → V) (id off : Int) (x : Int → V) : Prop :=
  ∀ pos, s.Pos l n pos → m (s.blockAddr id + s.offsetBytes l off + pos) = x pos

variable {s l} {c : Copy} {n : Nat} {pos off : Int}

/-- A copy moves the window at its bias to the front. -/
theorem Pos.moves (hpos : s.Pos l n pos) (hroom : 0 < s.convWidth → n + c.tokenBias ≤ s.convWidth)
    (src dst : Int) :
    s.Moves l c src dst (src + s.offsetBytes l c.tokenBias + pos, dst + pos) := by
  have htoken : 0 < s.convWidth → ∀ token < n, token < s.numDstTokens c := by
    intro hconv token htoken
    have := hroom hconv
    unfold numDstTokens
    omega
  unfold Pos at hpos
  unfold Moves offsetBytes
  split_ifs at hpos ⊢ with hconv hdim
  · obtain ⟨token, ht, row, hrow, k, hk, rfl⟩ := hpos
    exact ⟨token, htoken hconv token ht, row, hrow, k, hk, Prod.ext (by ring) (by ring)⟩
  · obtain ⟨token, ht, k, hk, rfl⟩ := hpos
    exact ⟨token, htoken hconv token ht, k, hk, Prod.ext (by ring) (by ring)⟩
  · obtain ⟨k, hk, rfl⟩ := hpos
    exact ⟨k, hk, Prod.ext (by ring) rfl⟩

/-- A window is in its block. -/
theorem Pos.inBlock (hpos : s.Pos l n pos) (hfits : s.Fits l) (hoff : 0 ≤ off)
    (hroom : 0 < s.convWidth → n + off ≤ s.convWidth) (id : Int) :
    s.InBlock id (s.blockAddr id + s.offsetBytes l off + pos) := by
  -- A copy with this bias loads it.
  have hbias : s.BiasInWindow ⟨0, 0, 0, off⟩ := fun hconv => ⟨hoff, by
    have := hroom hconv
    dsimp only
    omega⟩
  exact (Moves.mem_block hfits hbias (hpos.moves hroom (s.blockAddr id) 0)).1

end MambaState

namespace Kernel

/-- The programs of a launch, in groups, one for each request and state. -/
def groups (k : Kernel) (l : Launch) (states : Nat → MambaState) (numStates : Nat) :
    List (List (List (List (Int × Int)))) :=
  (List.product (List.range k.numReqs) (List.range numStates)).map fun x =>
    k.programs l states x.1 x.2 true

/-- The pools, the states and the copies of a launch: the pools do not overlap, the data of
    a block is not larger than it, and a copy keeps to the window of its state. -/
structure Separate (k : Kernel) (l : Launch) (states : Nat → MambaState) (numStates : Nat) :
    Prop where
  fits : ∀ t < numStates, (states t).Fits l
  rows : ∀ t < numStates, (states t).RowsApart l
  pools : ∀ t < numStates, ∀ t' < numStates, t ≠ t' → ∀ a, (states t).InPool a →
    ¬(states t').InPool a
  bias : ∀ t < numStates, ∀ b < k.numReqs, ∀ c, k.copy b = some c → (states t).BiasInWindow c
  /-- No request writes a block that another one reads or writes. -/
  blocks : ∀ t < numStates, ∀ b < k.numReqs, ∀ b' < k.numReqs, b ≠ b' → ∀ c c',
    k.copy b = some c → k.copy b' = some c' → (states t).destId l c ≠ (states t).destId l c' ∧
      (states t).destId l c ≠ (states t).srcId l c'
  block : 0 < l.copyBlockSize
  tiles : 0 < l.temporalTiles

variable {k : Kernel} {l : Launch} {states : Nat → MambaState} {numStates b t : Nat} {a : Int}

/-- The groups of a launch are those of its copies. -/
theorem groups_congr {k' : Kernel} (hreqs : k.numReqs = k'.numReqs)
    (hcopy : ∀ r < k.numReqs, k.copy r = k'.copy r) :
    k.groups l states numStates = k'.groups l states numStates := by
  rw [groups, groups, ← hreqs]
  refine List.map_congr_left fun x hx => programs_congr k l states x.1 x.2 (hcopy _ ?_) true
  exact List.mem_range.1 (List.pair_mem_product.1 hx).1

theorem mem_groups {g : List (List (List (Int × Int)))} :
    g ∈ k.groups l states numStates ↔
      ∃ b < k.numReqs, ∃ t < numStates, g = k.programs l states b t true := by
  simp only [groups, List.mem_map, Prod.exists, List.pair_mem_product, List.mem_range]
  constructor
  · rintro ⟨b, t, ⟨hb, ht⟩, rfl⟩
    exact ⟨b, hb, t, ht, rfl⟩
  · rintro ⟨b, hb, t, ht, rfl⟩
    exact ⟨b, t, ⟨hb, ht⟩, rfl⟩

section Separate

variable (h : k.Separate l states numStates)
include h

/-- The moves of a group are those of a copy whose block ids are in range. -/
theorem Separate.moves (hb : b < k.numReqs) (ht : t < numStates) {v : List (Int × Int)}
    (hv : v ∈ (k.programs l states b t true).flatten) {x : Int × Int} (hx : x ∈ v) :
    ∃ c, k.copy b = some c ∧ (states t).IdsInRange l c ∧
      (states t).InBlock ((states t).srcId l c) x.1 ∧
      (states t).InBlock ((states t).destId l c) x.2 := by
  obtain ⟨q, hq, hvq⟩ := List.mem_flatten.1 hv
  cases hcopy : k.copy b with
  | none =>
    rw [eq_nil_of_copy_eq_none k l states b t hcopy true hq] at hvq
    cases hvq
  | some c =>
    rw [programs_eq_of_copy k l states b t hcopy] at hv hq
    by_cases hids : (states t).IdsInRange l c
    · rw [MambaState.tilePrograms_of_inRange hids] at hv
      have hmoves := (MambaState.exists_mem_tilePrograms_iff h.block h.tiles).1 ⟨v, hv, hx⟩
      exact ⟨c, rfl, hids, hmoves.mem_block (h.fits t ht) (h.bias t ht b hb c hcopy)⟩
    · rw [MambaState.eq_nil_of_not_inRange hids hq] at hvq
      cases hvq

/-- The groups leave the addresses of each other alone. -/
theorem Separate.apart : (k.groups l states numStates).Pairwise fun g g' =>
    Apart g.flatten g'.flatten := by
  have hpool : ∀ {t id a}, (states t).InRange id → (states t).InBlock id a →
      (states t).InPool a := fun hid ha => ⟨_, hid, ha⟩
  -- Two groups touch no common address that one of them stores to.
  have hno : ∀ x y : Nat × Nat, x ≠ y → x.1 < k.numReqs → x.2 < numStates →
      y.1 < k.numReqs → y.2 < numStates → ∀ a,
      Stores (k.programs l states x.1 x.2 true).flatten a →
        ¬Stores (k.programs l states y.1 y.2 true).flatten a ∧
        ¬Loads (k.programs l states y.1 y.2 true).flatten a := by
    rintro ⟨b, t⟩ ⟨b', t'⟩ hne hb ht hb' ht' a ⟨v, hv, m, hm, rfl⟩
    obtain ⟨c, hcopy, hids, -, hdest⟩ := h.moves hb ht hv hm
    constructor
    · rintro ⟨v', hv', m', hm', heq⟩
      obtain ⟨c', hcopy', hids', -, hdest'⟩ := h.moves hb' ht' hv' hm'
      rw [heq] at hdest'
      by_cases htt : t = t'
      · subst htt
        have hbb : b ≠ b' := fun hbb => hne (by rw [hbb])
        exact (h.blocks t ht b hb b' hb' hbb c c' hcopy hcopy').1
          (MambaState.eq_of_inBlock hdest hdest')
      · exact h.pools t ht t' ht' htt _ (hpool hids.1 hdest) (hpool hids'.1 hdest')
    · rintro ⟨v', hv', m', hm', heq⟩
      obtain ⟨c', hcopy', hids', hsrc', -⟩ := h.moves hb' ht' hv' hm'
      rw [heq] at hsrc'
      by_cases htt : t = t'
      · subst htt
        have hbb : b ≠ b' := fun hbb => hne (by rw [hbb])
        exact (h.blocks t ht b hb b' hb' hbb c c' hcopy hcopy').2
          (MambaState.eq_of_inBlock hdest hsrc')
      · exact h.pools t ht t' ht' htt _ (hpool hids.1 hdest) (hpool hids'.2 hsrc')
  have hnodup : (List.product (List.range k.numReqs) (List.range numStates)).Nodup :=
    List.nodup_range.product List.nodup_range
  rw [groups, List.pairwise_map]
  refine hnodup.pairwise_of_forall_ne fun x hx y hy hne => ?_
  obtain ⟨hb, ht⟩ := List.pair_mem_product.1 hx
  obtain ⟨hb', ht'⟩ := List.pair_mem_product.1 hy
  rw [List.mem_range] at hb ht hb' ht'
  exact ⟨fun a hs => (hno x y hne hb ht hb' ht' a hs).1,
    fun a hs => (hno x y hne hb ht hb' ht' a hs).2,
    fun a hs => (hno y x hne.symm hb' ht' hb ht a hs).2⟩

variable {V : Type*} {prog : List (List (Int × Int))}
  (hprog : Interleaving (k.groups l states numStates).flatten prog) (m : Int → V)
include hprog

/-- Every copy moves what it would move alone. -/
theorem Separate.launch_moves (hb : b < k.numReqs) (ht : t < numStates) {c : Copy}
    (hcopy : k.copy b = some c) (hids : (states t).IdsInRange l c) {x : Int × Int}
    (hx : (states t).Moves l c ((states t).blockAddr ((states t).srcId l c))
      ((states t).blockAddr ((states t).destId l c)) x) :
    runCopies m prog x.2 = m x.1 := by
  obtain ⟨p, hp, heq⟩ := (runCopies_groups hprog h.apart m).1 _
    (mem_groups.2 ⟨b, hb, t, ht, rfl⟩)
  rw [programs_eq_of_copy k l states b t hcopy, MambaState.tilePrograms_of_inRange hids] at hp heq
  obtain ⟨v, hv, hxv⟩ := (MambaState.exists_mem_tilePrograms_iff h.block h.tiles).2 hx
  rw [heq x.2 ⟨v, hv, x, hxv, rfl⟩]
  exact (MambaState.moved_tilePrograms (h.fits t ht) (h.bias t ht b hb c hcopy) (h.rows t ht)
    h.block h.tiles hp m).moved v hv x hxv

/-- Outside of the blocks that are written, nothing changes. -/
theorem Separate.launch_frame (ha : ∀ b < k.numReqs, ∀ t < numStates, ∀ c, k.copy b = some c →
    (states t).IdsInRange l c → ¬(states t).InBlock ((states t).destId l c) a) :
    runCopies m prog a = m a := by
  refine (runCopies_groups hprog h.apart m).2 a fun g hg => ?_
  obtain ⟨b, hb, t, ht, rfl⟩ := mem_groups.1 hg
  rintro ⟨v, hv, x, hx, rfl⟩
  obtain ⟨c, hcopy, hids, -, hdest⟩ := h.moves hb ht hv hx
  exact ha b hb t ht c hcopy hids hdest

/-- A copy brings the window at its bias to the front of its destination. -/
theorem Separate.launch_window (hb : b < k.numReqs) (ht : t < numStates) {c : Copy}
    (hcopy : k.copy b = some c) (hids : (states t).IdsInRange l c) {n : Nat}
    (hroom : 0 < (states t).convWidth → n + c.tokenBias ≤ (states t).convWidth) {x : Int → V}
    (hx : (states t).Window l n m ((states t).srcId l c) c.tokenBias x) :
    (states t).Window l n (runCopies m prog) ((states t).destId l c) 0 x := by
  intro pos hpos
  have hzero : (states t).offsetBytes l 0 = 0 := by simp [MambaState.offsetBytes]
  rw [hzero, Int.add_zero, ← hx pos hpos]
  exact h.launch_moves hprog m hb ht hcopy hids (hpos.moves hroom _ _)

/-- The window of a block that is not written is as it was. -/
theorem Separate.launch_window_frame (ht : t < numStates) {id off : Int} {n : Nat}
    (hid : (states t).InRange id) (hoff : 0 ≤ off)
    (hroom : 0 < (states t).convWidth → n + off ≤ (states t).convWidth)
    (hdest : ∀ b < k.numReqs, ∀ c, k.copy b = some c → (states t).destId l c ≠ id) {x : Int → V}
    (hx : (states t).Window l n m id off x) :
    (states t).Window l n (runCopies m prog) id off x := by
  intro pos hpos
  have hin := hpos.inBlock (h.fits t ht) hoff hroom id
  rw [← hx pos hpos]
  refine h.launch_frame hprog m fun b hb t' ht' c hcopy hids hblock => ?_
  by_cases htt : t = t'
  · subst htt
    exact hdest b hb c hcopy (MambaState.eq_of_inBlock hblock hin)
  · exact h.pools t ht t' ht' htt _ ⟨id, hid, hin⟩ ⟨_, hids.1, hblock⟩

end Separate

/-! ## The moves -/

/-- The block ids of all copies are in range. -/
def AllInRange (k : Kernel) (l : Launch) (states : Nat → MambaState) (numStates : Nat) : Prop :=
  ∀ b < k.numReqs, ∀ t < numStates, ∀ c, k.copy b = some c → (states t).IdsInRange l c

section Settled

variable (h : k.Separate l states numStates) (hids : k.AllInRange l states numStates)
include h hids

/-- A launch makes the moves of its copies. -/
theorem Separate.exists_move_iff {x : Int × Int} :
    (∃ v ∈ (k.groups l states numStates).flatten.flatten, x ∈ v) ↔
      ∃ b < k.numReqs, ∃ t < numStates, ∃ c, k.copy b = some c ∧ (states t).Moves l c
        ((states t).blockAddr ((states t).srcId l c))
        ((states t).blockAddr ((states t).destId l c)) x := by
  have hgroup : ∀ b < k.numReqs, ∀ t < numStates,
      (∃ v ∈ (k.programs l states b t true).flatten, x ∈ v) ↔
        ∃ c, k.copy b = some c ∧ (states t).Moves l c
          ((states t).blockAddr ((states t).srcId l c))
          ((states t).blockAddr ((states t).destId l c)) x := by
    intro b hb t ht
    cases hcopy : k.copy b with
    | none =>
      constructor
      · rintro ⟨v, hv, -⟩
        obtain ⟨p, hp, hv⟩ := List.mem_flatten.1 hv
        rw [eq_nil_of_copy_eq_none k l states b t hcopy true hp] at hv
        cases hv
      · rintro ⟨c, hc, -⟩
        cases hc
    | some c =>
      rw [programs_eq_of_copy k l states b t hcopy,
        MambaState.tilePrograms_of_inRange (hids b hb t ht c hcopy),
        MambaState.exists_mem_tilePrograms_iff h.block h.tiles]
      constructor
      · exact fun hx => ⟨c, rfl, hx⟩
      · rintro ⟨c', hc, hx⟩
        exact Option.some.inj hc ▸ hx
  constructor
  · rintro ⟨v, hv, hx⟩
    obtain ⟨p, hp, hv⟩ := List.mem_flatten.1 hv
    obtain ⟨g, hg, hp⟩ := List.mem_flatten.1 hp
    obtain ⟨b, hb, t, ht, rfl⟩ := mem_groups.1 hg
    exact ⟨b, hb, t, ht, (hgroup b hb t ht).1 ⟨v, List.mem_flatten_of_mem hp hv, hx⟩⟩
  · rintro ⟨b, hb, t, ht, hx⟩
    obtain ⟨v, hv, hx⟩ := (hgroup b hb t ht).2 hx
    obtain ⟨p, hp, hv⟩ := List.mem_flatten.1 hv
    exact ⟨v, List.mem_flatten_of_mem (List.mem_flatten_of_mem (mem_groups.2 ⟨b, hb, t, ht, rfl⟩)
      hp) hv, hx⟩

/-- A move that stores where another one loads or stores is of the same request and state. -/
theorem Separate.move {b b' t t' : Nat} {c c' : Copy} {x y : Int × Int} (hb : b < k.numReqs)
    (ht : t < numStates) (hcopy : k.copy b = some c) (hx : (states t).Moves l c
      ((states t).blockAddr ((states t).srcId l c))
      ((states t).blockAddr ((states t).destId l c)) x)
    (hb' : b' < k.numReqs) (ht' : t' < numStates) (hcopy' : k.copy b' = some c')
    (hy : (states t').Moves l c' ((states t').blockAddr ((states t').srcId l c'))
      ((states t').blockAddr ((states t').destId l c')) y)
    (hkey : x.2 = y.2 ∨ x.2 = y.1) : b = b' ∧ t = t' := by
  obtain ⟨-, hdest⟩ := hx.mem_block (h.fits t ht) (h.bias t ht b hb c hcopy)
  obtain ⟨hsrc', hdest'⟩ := hy.mem_block (h.fits t' ht') (h.bias t' ht' b' hb' c' hcopy')
  have hrange := hids b hb t ht c hcopy
  have hrange' := hids b' hb' t' ht' c' hcopy'
  have hid : ∃ id, (states t').InRange id ∧ (states t').InBlock id x.2 ∧
      (id = (states t').destId l c' ∨ id = (states t').srcId l c') := by
    rcases hkey with hkey | hkey <;> rw [hkey]
    · exact ⟨_, hrange'.1, hdest', .inl rfl⟩
    · exact ⟨_, hrange'.2, hsrc', .inr rfl⟩
  obtain ⟨id, hin, hblock, hid⟩ := hid
  by_cases htt : t = t'
  · subst htt
    refine ⟨by_contra fun hbb => ?_, rfl⟩
    have hsep := h.blocks t ht b hb b' hb' hbb c c' hcopy hcopy'
    have heq := MambaState.eq_of_inBlock hdest hblock
    rcases hid with rfl | rfl
    · exact hsep.1 heq
    · exact hsep.2 heq
  · exact absurd ⟨_, hin, hblock⟩ (h.pools t ht t' ht' htt _ ⟨_, hrange.1, hdest⟩)

/-- An address that a launch stores to has one source. -/
theorem Separate.oneSource : OneSource (k.groups l states numStates).flatten.flatten := by
  intro u hu v hv x hx y hy hkey
  obtain ⟨b, hb, t, ht, c, hcopy, hx⟩ := (h.exists_move_iff hids).1 ⟨u, hu, hx⟩
  obtain ⟨b', hb', t', ht', c', hcopy', hy⟩ := (h.exists_move_iff hids).1 ⟨v, hv, hy⟩
  obtain ⟨rfl, rfl⟩ := h.move hids hb ht hcopy hx hb' ht' hcopy' hy (.inl hkey)
  obtain rfl := Option.some.inj (hcopy.symm.trans hcopy')
  have := hx.offset_eq
  have := hy.offset_eq
  omega

/-- If no conv state is shifted in its block, nothing that is loaded is changed. -/
theorem Separate.settled (hconv : ∀ b < k.numReqs, ∀ t < numStates, ∀ c, k.copy b = some c →
      0 < (states t).convWidth → (states t).srcId l c ≠ (states t).destId l c) :
    Settled (k.groups l states numStates).flatten.flatten := by
  intro u hu v hv x hx y hy hkey
  obtain ⟨b, hb, t, ht, c, hcopy, hx⟩ := (h.exists_move_iff hids).1 ⟨u, hu, hx⟩
  obtain ⟨b', hb', t', ht', c', hcopy', hy⟩ := (h.exists_move_iff hids).1 ⟨v, hv, hy⟩
  obtain ⟨rfl, rfl⟩ := h.move hids hb ht hcopy hx hb' ht' hcopy' hy (.inr hkey)
  obtain rfl := Option.some.inj (hcopy.symm.trans hcopy')
  obtain ⟨-, hdest⟩ := hx.mem_block (h.fits t ht) (h.bias t ht b hb c hcopy)
  obtain ⟨hsrc, -⟩ := hy.mem_block (h.fits t ht) (h.bias t ht b hb c hcopy)
  rw [← hkey] at hsrc
  have hid := MambaState.eq_of_inBlock hsrc hdest
  -- A temporal state is copied as it is.
  have htemporal : ¬0 < (states t).convWidth := fun hpos => hconv b hb t ht c hcopy hpos hid
  have hoff := hx.offset_eq
  rw [hid, MambaState.shift, if_neg htemporal] at hoff
  omega

end Settled

end Kernel

end FlashNext.Mamba
