import Mathlib.Algebra.BigOperators.Group.List.Basic
import Mathlib.Data.List.Dedup
import Mathlib.Data.List.GetD
import Mathlib.Data.List.Sort
import Mathlib.Data.List.SplitBy

/-!
# Batches of a list

How a list of requests is cut up for a pool of workers, and put together again:
its distinct elements in order (`unique`), the runs of elements that belong
together, and their chunks of a given size.

* `flatten_chunks` and `flatten_runChunks`: the pieces are the list, in order;
* `eq_of_mem_runChunks`: the elements of a piece of a run belong together;
* `putMasked_filter`: what is computed for the elements of a mask is put back in
  their places (`overlay`);
* `scatter_of_mem`: what a scatter writes once is there; `put_replicate_map`: what is
  put into a row of one value;
* `sum_of_one`: the sum of parts of which one has a value;
* `take_drop_flatten`: where a block of a given size is found.
-/

namespace FlashNext

variable {α β : Type*}

/-- The distinct elements, in order. -/
def unique [LinearOrder α] (xs : List α) : List α := xs.dedup.insertionSort (· ≤ ·)

@[simp] theorem mem_unique [LinearOrder α] {xs : List α} {x : α} : x ∈ unique xs ↔ x ∈ xs := by
  simp [unique]

/-- The distinct elements are in increasing order. -/
theorem pairwise_unique [LinearOrder α] (xs : List α) : (unique xs).Pairwise (· < ·) := by
  have hle : (unique xs).Pairwise (· ≤ ·) := List.pairwise_insertionSort _ _
  have hne : (unique xs).Nodup := (List.perm_insertionSort _ _).nodup_iff.2 (List.nodup_dedup xs)
  exact hle.imp₂ (fun _ _ => lt_of_le_of_ne) hne

/-- The first element of an increasing list for which there is a value. -/
theorem findSome?_eq_some_iff_of_pairwise [LinearOrder α] {f : α → Option β} {xs : List α}
    (h : xs.Pairwise (· < ·)) {b : β} :
    xs.findSome? f = some b ↔ ∃ x ∈ xs, f x = some b ∧ ∀ y ∈ xs, y < x → f y = none := by
  induction xs with
  | nil => simp
  | cons x xs ih =>
    rw [List.pairwise_cons] at h
    rw [List.findSome?_cons]
    -- What comes later is greater, and does not count if there is a value for the head.
    cases hx : f x with
    | some c =>
      constructor
      · rintro ⟨⟩
        refine ⟨x, List.mem_cons_self, hx, fun y hy hlt => ?_⟩
        rcases List.mem_cons.1 hy with rfl | hy
        · exact absurd hlt (lt_irrefl _)
        · exact absurd hlt (h.1 y hy).asymm
      · rintro ⟨y, hy, hfy, hfirst⟩
        rcases List.mem_cons.1 hy with rfl | hy
        · exact hx.symm.trans hfy
        · rw [hfirst x List.mem_cons_self (h.1 y hy)] at hx
          cases hx
    | none =>
      simp only [ih h.2]
      constructor
      · rintro ⟨y, hy, hfy, hfirst⟩
        exact ⟨y, List.mem_cons_of_mem x hy, hfy, List.forall_mem_cons.2 ⟨fun _ => hx, hfirst⟩⟩
      · rintro ⟨y, hy, hfy, hfirst⟩
        rcases List.mem_cons.1 hy with rfl | hy
        · rw [hx] at hfy
          cases hfy
        · exact ⟨y, hy, hfy, fun z hz => hfirst z (List.mem_cons_of_mem x hz)⟩

/-- The chunks of `n` elements of a list; the last one may have fewer. -/
def chunks (n : Nat) (xs : List α) : List (List α) :=
  (List.range ((xs.length + n - 1) / n)).map fun i => (xs.drop (i * n)).take n

/-- So many chunks cover the list. -/
theorem le_chunks_mul {n : Nat} (hn : 0 < n) (l : Nat) : l ≤ (l + n - 1) / n * n := by
  have := Nat.div_add_mod (l + n - 1) n
  have := Nat.mod_lt (l + n - 1) hn
  rw [Nat.mul_comm]
  omega

/-- The first `m` chunks are the first `m * n` elements. -/
theorem flatten_range_chunks (xs : List α) (n m : Nat) :
    ((List.range m).map fun i => (xs.drop (i * n)).take n).flatten = xs.take (m * n) := by
  induction m with
  | zero => simp
  | succ m ih =>
    rw [List.range_succ, List.map_append, List.flatten_append, ih, Nat.succ_mul, List.take_add]
    simp

theorem flatten_chunks {n : Nat} (hn : 0 < n) (xs : List α) : (chunks n xs).flatten = xs := by
  rw [chunks, flatten_range_chunks, List.take_of_length_le (le_chunks_mul hn _)]

/-- A chunk is a part of the list. -/
theorem sublist_of_mem_chunks {n : Nat} {xs chunk : List α} (h : chunk ∈ chunks n xs) :
    chunk.Sublist xs := by
  obtain ⟨i, -, rfl⟩ := List.mem_map.1 h
  exact (List.take_sublist _ _).trans (List.drop_sublist _ _)

/-- The runs of elements with one value of `f`, each cut into chunks. -/
def runChunks [DecidableEq β] (f : α → β) (n : Nat) (xs : List α) : List (List α) :=
  (xs.splitBy fun a b => f a = f b).flatMap (chunks n)

theorem flatten_runChunks [DecidableEq β] (f : α → β) {n : Nat} (hn : 0 < n) (xs : List α) :
    (runChunks f n xs).flatten = xs := by
  have : ∀ runs : List (List α), (runs.flatMap (chunks n)).flatten = runs.flatten := by
    intro runs
    induction runs with
    | nil => rfl
    | cons run runs ih => rw [List.flatMap_cons, List.flatten_append, ih, flatten_chunks hn,
        List.flatten_cons]
  rw [runChunks, this, List.flatten_splitBy]

/-- The elements of a chunk of a run have one value of `f`. -/
theorem eq_of_mem_runChunks [DecidableEq β] {f : α → β} {n : Nat} {xs chunk : List α}
    (h : chunk ∈ runChunks f n xs) {a b : α} (ha : a ∈ chunk) (hb : b ∈ chunk) : f a = f b := by
  obtain ⟨run, hrun, hchunk⟩ := List.mem_flatMap.1 h
  have hsub := sublist_of_mem_chunks hchunk
  have hchain := List.isChain_of_mem_splitBy hrun
  have hpair : run.Pairwise fun a b => f a = f b :=
    List.isChain_iff_pairwise.1 (hchain.imp fun a b h => by simpa using h)
  exact List.Pairwise.forall_of_forall_of_flip (R := fun a b => f a = f b) (fun _ _ => rfl) hpair
    (hpair.imp Eq.symm) (hsub.subset ha) (hsub.subset hb)

/-- What is collected from a list in which an element gives up its first item. -/
theorem perm_flatMap_set {f : α → List β} {xs : List α} {i : Nat} {x x' : α} {b : β}
    (hi : xs[i]? = some x) (hx : f x = b :: f x') :
    (xs.flatMap f).Perm (b :: (xs.set i x').flatMap f) := by
  induction xs generalizing i with
  | nil => simp at hi
  | cons y xs ih =>
    cases i with
    | zero =>
      obtain rfl : y = x := by simpa using hi
      simp [hx]
    | succ i =>
      rw [List.set_cons_succ, List.flatMap_cons, List.flatMap_cons]
      exact ((ih (by simpa using hi)).append_left _).trans List.perm_middle

/-! ## Masks -/

/-- `out[mask] = rows`: the elements of `rows`, in order, at the places of the
    mask. -/
def putMasked : List Bool → List α → List α → List α
  | true :: mask, row :: rows, _ :: out => row :: putMasked mask rows out
  | false :: mask, rows, o :: out => o :: putMasked mask rows out
  | _, _, out => out

/-- `out` with `f x` for the elements `x` of `xs` that `p` selects, in their places. -/
def overlay (p : α → Bool) (f : α → β) (xs : List α) (out : List β) : List β :=
  List.zipWith (fun x o => if p x then f x else o) xs out

section Overlay

variable {p q : α → Bool} {f : α → β} {xs : List α} {out : List β}

@[simp] theorem length_overlay : (overlay p f xs out).length = min xs.length out.length :=
  List.length_zipWith

/-- What is computed for the elements of a mask is put back in their places. -/
theorem putMasked_filter (h : xs.length = out.length) :
    putMasked (xs.map p) ((xs.filter p).map f) out = overlay p f xs out := by
  induction xs generalizing out with
  | nil => simp [putMasked, overlay, List.length_eq_zero_iff.1 h.symm]
  | cons x xs ih =>
    obtain ⟨o, out, rfl⟩ := List.exists_cons_of_length_eq_add_one h.symm
    have := ih (Nat.succ.inj h)
    cases hx : p x <;> simpa [putMasked, overlay, hx] using this

/-- One overlay after the other. -/
theorem overlay_overlay :
    overlay q f xs (overlay p f xs out) = overlay (fun x => p x || q x) f xs out := by
  unfold overlay
  induction xs generalizing out with
  | nil => rfl
  | cons x xs ih =>
    cases out with
    | nil => rfl
    | cons o out =>
      rw [List.zipWith_cons_cons, List.zipWith_cons_cons, List.zipWith_cons_cons, ih]
      cases hp : p x <;> simp [hp]

/-- An overlay of no element leaves the list. -/
theorem overlay_of_none (h : xs.length = out.length) (hp : ∀ x ∈ xs, p x = false) :
    overlay p f xs out = out := by
  refine List.ext_getElem (by simp [h]) fun i hi hi' => ?_
  simp [overlay, hp _ (List.getElem_mem _)]

/-- An overlay of every element has nothing else. -/
theorem overlay_of_all (h : xs.length = out.length) (hp : ∀ x ∈ xs, p x = true) :
    overlay p f xs out = xs.map f := by
  refine List.ext_getElem (by simp [h]) fun i hi hi' => ?_
  simp [overlay, hp _ (List.getElem_mem _)]

/-- An overlay for each element of `ys`, one after the other. -/
theorem foldl_overlay {γ : Type*} [DecidableEq γ] {k : α → γ} {ys : List γ}
    (h : xs.length = out.length) :
    ys.foldl (fun out y => overlay (fun x => k x = y) f xs out) out =
      overlay (fun x => k x ∈ ys) f xs out := by
  induction ys generalizing out with
  | nil => exact (overlay_of_none h (by simp)).symm
  | cons y ys ih =>
    rw [List.foldl_cons, ih (by simp [h]), overlay_overlay]
    simp

end Overlay

/-! ## Scatters -/

/-- `m[key x] = val x`, for the elements `x` in order. -/
def scatter {κ : Type*} [DecidableEq κ] (key : α → κ) (val : α → β) (xs : List α) (m : κ → β) :
    κ → β :=
  xs.foldl (fun m x => Function.update m (key x) (val x)) m

section Scatter

variable {κ : Type*} [DecidableEq κ] {key : α → κ} {val : α → β} {xs : List α} {m : κ → β}

/-- What is not written is left. -/
theorem scatter_of_ne {k : κ} (h : ∀ x ∈ xs, key x ≠ k) : scatter key val xs m k = m k := by
  induction xs generalizing m with
  | nil => rfl
  | cons x xs ih =>
    rw [List.forall_mem_cons] at h
    exact (ih h.2).trans (Function.update_of_ne (Ne.symm h.1) _ _)

/-- What is written once is there. -/
theorem scatter_of_mem {x : α} (hx : x ∈ xs) (h : ∀ y ∈ xs, key y = key x → y = x) :
    scatter key val xs m (key x) = val x := by
  induction xs generalizing m with
  | nil => cases hx
  | cons y xs ih =>
    by_cases hmem : x ∈ xs
    · exact ih hmem fun z hz => h z (List.mem_cons_of_mem y hz)
    · obtain rfl : x = y := (List.mem_cons.1 hx).resolve_right hmem
      have hne : ∀ z ∈ xs, key z ≠ key x := fun z hz hkey =>
        hmem (h z (List.mem_cons_of_mem x hz) hkey ▸ hz)
      exact (scatter_of_ne hne).trans (Function.update_self (key x) (val x) m)

end Scatter

/-- `xs[places] = vals`. -/
def put (xs : List α) (places : List Nat) (vals : List α) : List α :=
  (places.zip vals).foldl (fun xs pv => xs.set pv.1 pv.2) xs

/-- What is put is a function of the place. -/
theorem getElem?_put_map (f : Nat → α) (xs : List α) (places : List Nat) (i : Nat) :
    (put xs places (places.map f))[i]? = xs[i]?.map fun x => if i ∈ places then f i else x := by
  induction places generalizing xs with
  | nil => simp [put]
  | cons p places ih =>
    have hcons : put xs (p :: places) ((p :: places).map f) =
        put (xs.set p (f p)) places (places.map f) := rfl
    rw [hcons, ih, List.getElem?_set']
    by_cases hp : p = i
    · subst hp
      cases xs[p]? <;> simp
    · simp [hp, Ne.symm hp]

/-- What is put into a row of one value. -/
theorem put_replicate_map (f : Nat → α) (n : Nat) (x : α) (places : List Nat) :
    put (List.replicate n x) places (places.map f) =
      (List.range n).map fun i => if i ∈ places then f i else x := by
  refine List.ext_getElem? fun i => ?_
  rw [getElem?_put_map, List.getElem?_map, List.getElem?_replicate]
  by_cases hi : i < n
  · rw [if_pos hi, List.getElem?_range hi]
    rfl
  · rw [if_neg hi, List.getElem?_eq_none (by simpa using hi)]
    rfl

/-- A map is one over the places. -/
theorem map_eq_map_range (f : α → β) (xs : List α) (x : α) :
    xs.map f = (List.range xs.length).map fun i => f (xs.getD i x) := by
  refine List.ext_getElem (by simp) fun i hi hi' => ?_
  rw [List.length_map] at hi
  rw [List.getElem_map, List.getElem_map, List.getElem_range, List.getD_eq_getElem _ _ hi]

/-- An element that is there. -/
theorem getD_mem_of_lt {xs : List α} {i : Nat} (hi : i < xs.length) (x : α) : xs.getD i x ∈ xs := by
  rw [List.getD_eq_getElem _ _ hi]
  exact List.getElem_mem hi

/-- An element of a map. -/
theorem getD_map_of_lt (f : α → β) {xs : List α} {i : Nat} (hi : i < xs.length) (x : α) (y : β) :
    (xs.map f).getD i y = f (xs.getD i x) := by
  rw [List.getD_eq_getElem _ _ (by simpa using hi), List.getElem_map, List.getD_eq_getElem _ _ hi]

/-! ## Sums -/

/-- What one of the parts adds is the sum. -/
theorem sum_of_one {M : Type*} [AddMonoid M] (P : α → Prop) [DecidablePred P] (b : M) {xs : List α}
    (hone : xs.Pairwise fun x y => ¬(P x ∧ P y)) (hex : ∃ x ∈ xs, P x) :
    (xs.map fun x => if P x then b else 0).sum = b := by
  induction xs with
  | nil =>
    obtain ⟨x, hx, -⟩ := hex
    cases hx
  | cons x xs ih =>
    rw [List.pairwise_cons] at hone
    rw [List.map_cons, List.sum_cons]
    by_cases hx : P x
    · have hzero : (xs.map fun y => if P y then b else 0).sum = 0 :=
        List.sum_eq_zero fun n hn => by
          obtain ⟨y, hy, rfl⟩ := List.mem_map.1 hn
          exact if_neg fun hPy => hone.1 y hy ⟨hx, hPy⟩
      rw [if_pos hx, hzero, add_zero]
    · obtain ⟨y, hy, hPy⟩ := hex
      have hne : y ∈ xs := (List.mem_cons.1 hy).resolve_left fun he => hx (he ▸ hPy)
      rw [if_neg hx, ih hone.2 ⟨y, hne, hPy⟩, zero_add]

/-! ## Blocks -/

/-- The first `n` blocks of `k` numbers are the first `n * k` numbers. -/
theorem flatMap_range_blocks (k n : Nat) :
    ((List.range n).flatMap fun i => List.range' (i * k) k) = List.range (n * k) := by
  induction n with
  | zero => simp
  | succ n ih =>
    rw [List.range_succ, List.flatMap_append, ih, Nat.succ_mul, List.range_add]
    simp [List.range'_eq_map_range]

/-- Lists of one length, one after the other, have their total length. -/
theorem length_flatten_uniform {n : Nat} {xss : List (List α)} (h : ∀ xs ∈ xss, xs.length = n) :
    xss.flatten.length = xss.length * n := by
  rw [List.length_flatten, List.map_eq_replicate_iff.2 h, List.sum_replicate_nat]

/-- A list among lists of one length, one after the other. -/
theorem take_drop_flatten {n : Nat} {xss : List (List α)} (h : ∀ xs ∈ xss, xs.length = n) {i : Nat}
    (hi : i < xss.length) : (xss.flatten.drop (i * n)).take n = xss[i] := by
  induction xss generalizing i with
  | nil => simp at hi
  | cons xs xss ih =>
    rw [List.forall_mem_cons] at h
    cases i with
    | zero => simp [← h.1]
    | succ i =>
      have hlt := Nat.lt_of_succ_lt_succ hi
      rw [List.flatten_cons, Nat.succ_mul, Nat.add_comm, ← List.drop_drop, ← h.1, List.drop_left,
        h.1, ih h.2 hlt, List.getElem_cons_succ]

end FlashNext
