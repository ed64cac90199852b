import FlashNext.Mamba.Launch

/-!
# The copies of the host

`batch_memcpy` of `mamba_utils_guarded.py`, which copies the states of the requests without
the fused kernel: the host collects a source, a destination and a size for each of them, and
the kernel has one program for each entry, whose lanes go over its bytes in blocks.

* `batchMemcpyKernel_moves_iff`: a program moves the bytes of its entry, step by step behind a
  barrier or in whatever order its lanes run, unless it shifts them to the right by less than
  their number;
* `mem_doMambaCopyBlock_iff`: what the programs move together.
-/

namespace FlashNext.Mamba

/-- An entry of `MambaCopyBuffers`. -/
structure CopyEntry where
  srcPtr : Int
  dstPtr : Int
  size : Nat

namespace CopyEntry

variable (e : CopyEntry)

/-- `is_left_overlap`. -/
def isLeftOverlap : Bool := decide (e.dstPtr < e.srcPtr ∧ e.dstPtr + e.size > e.srcPtr)

/-- A step of the loop, for some of the lanes. -/
def step (lanes : List Nat) (i : Nat) : List (Int × Int) :=
  (lanes.filter fun off => decide (i + off < e.size)).map fun off =>
    (e.srcPtr + (i + off : Nat), e.dstPtr + (i + off : Nat))

/-- A program of `batch_memcpy_kernel`. If it shifts bytes to the left, there is a barrier
    between the loads and the stores of a step, and the steps come one after the other; else
    no lane waits for another one, and the load and the store of a lane are one event. -/
def batchMemcpyKernel (blockSize : Nat) : List (List (List (Int × Int))) :=
  -- The barrier lets loads of the next step overtake stores of this one, which are all below
  -- them: that changes nothing, so one order of the steps stands for all.
  if e.isLeftOverlap then [(stepRange 0 e.size blockSize).map (e.step (List.range blockSize))]
  else (List.range blockSize).map fun off => (stepRange 0 e.size blockSize).map (e.step [off])

variable {e} {blockSize : Nat} {x : Int × Int} {prog : List (List (Int × Int))}

theorem mem_step {lanes : List Nat} {i : Nat} :
    x ∈ e.step lanes i ↔ ∃ off ∈ lanes, i + off < e.size ∧
      x = (e.srcPtr + (i + off : Nat), e.dstPtr + (i + off : Nat)) := by
  simp [step, and_assoc, eq_comm]

/-- Together the lanes move the bytes of the entry. -/
theorem mem_batchMemcpyKernel_iff (hblock : 0 < blockSize) :
    (∃ v ∈ (e.batchMemcpyKernel blockSize).flatten, x ∈ v) ↔
      ∃ j < e.size, x = (e.srcPtr + j, e.dstPtr + j) := by
  have hlanes : (∃ v ∈ (e.batchMemcpyKernel blockSize).flatten, x ∈ v) ↔
      ∃ i ∈ stepRange 0 e.size blockSize, ∃ off < blockSize, i + off < e.size ∧
        x = (e.srcPtr + (i + off : Nat), e.dstPtr + (i + off : Nat)) := by
    unfold batchMemcpyKernel
    split_ifs
    · simp only [List.flatten_cons, List.flatten_nil, List.append_nil, List.mem_map,
        exists_exists_and_eq_and, mem_step, List.mem_range]
    · simp only [List.mem_flatten, List.mem_map, List.mem_range, exists_exists_and_eq_and]
      constructor
      · rintro ⟨v, ⟨off, hoff, i, hi, rfl⟩, hx⟩
        obtain ⟨off', hoff', hlt, rfl⟩ := mem_step.1 hx
        obtain rfl := List.mem_singleton.1 hoff'
        exact ⟨i, hi, off', hoff, hlt, rfl⟩
      · rintro ⟨i, hi, off, hoff, hlt, rfl⟩
        exact ⟨_, ⟨off, hoff, i, hi, rfl⟩, mem_step.2 ⟨off, List.mem_singleton_self _, hlt, rfl⟩⟩
  rw [hlanes]
  constructor
  · rintro ⟨i, -, off, -, hlt, rfl⟩
    exact ⟨i + off, hlt, rfl⟩
  · rintro ⟨j, hj, rfl⟩
    obtain ⟨i, hi, off, hoff, hlt, rfl⟩ := (exists_lane_iff hblock).2 ⟨Nat.zero_le j, hj⟩
    exact ⟨i, hi, off, hoff, hlt, rfl⟩

/-- The memory `m'` is `m` with the bytes of the entry moved. -/
structure MovedBy {V : Type*} (e : CopyEntry) (m m' : Int → V) : Prop where
  moved : ∀ j < e.size, m' (e.dstPtr + j) = m (e.srcPtr + j)
  frame : ∀ a, (∀ j < e.size, e.dstPtr + j ≠ a) → m' a = m a

variable {V : Type*} {m : Int → V}

/-- A copy to the left, or to bytes that are not copied, moves its bytes, in whatever order
    the lanes run: none is stored over before it is loaded. -/
theorem movedBy_of_interleaving (hblock : 0 < blockSize)
    (hside : e.dstPtr ≤ e.srcPtr ∨ e.srcPtr + e.size ≤ e.dstPtr)
    (h : Interleaving (e.batchMemcpyKernel blockSize) prog) (m : Int → V) :
    e.MovedBy m (runCopies m prog) := by
  have hmoves := fun x => mem_batchMemcpyKernel_iff (x := x) (e := e) hblock
  have hmem : ∀ {v x}, v ∈ (e.batchMemcpyKernel blockSize).flatten → x ∈ v →
      ∃ j < e.size, x = (e.srcPtr + (j : Nat), e.dstPtr + (j : Nat)) :=
    fun hv hx => (hmoves _).1 ⟨_, hv, hx⟩
  have hone : OneSource (e.batchMemcpyKernel blockSize).flatten := by
    intro u hu v hv x hx y hy hkey
    obtain ⟨j, -, rfl⟩ := hmem hu hx
    obtain ⟨k, -, rfl⟩ := hmem hv hy
    simp only at hkey ⊢
    omega
  have hmoved : Moved m (runCopies m prog) (e.batchMemcpyKernel blockSize).flatten := by
    by_cases hleft : e.isLeftOverlap = true
    · have hprog : prog = (stepRange 0 e.size blockSize).map (e.step (List.range blockSize)) :=
        h.eq_of_length (i := 0) (by simp [batchMemcpyKernel, hleft])
          (by simp [batchMemcpyKernel, hleft])
      have hflat : (e.batchMemcpyKernel blockSize).flatten = prog := by
        simp [batchMemcpyKernel, hleft, hprog]
      rw [hflat] at hone ⊢
      refine runCopies_spec m hone ?_
      -- The bytes of later steps are behind all that are stored so far.
      rw [hprog, List.pairwise_map]
      refine (pairwise_stepRange _ _ _).imp fun {i j} hle x hx y hy => ?_
      obtain ⟨off, hoff, -, rfl⟩ := mem_step.1 hx
      obtain ⟨off', -, -, rfl⟩ := mem_step.1 hy
      rw [List.mem_range] at hoff
      have := (of_decide_eq_true hleft).1
      simp only
      omega
    · -- The bytes are apart, or each is moved to itself.
      have hapart : ¬(e.dstPtr < e.srcPtr ∧ e.dstPtr + e.size > e.srcPtr) := fun h =>
        hleft (decide_eq_true h)
      refine runCopies_of_settled m hone (fun u hu v hv x hx y hy hkey => ?_) fun x =>
        exists_congr fun v => and_congr_left fun _ => h.perm.mem_iff
      obtain ⟨j, hj, rfl⟩ := hmem hu hx
      obtain ⟨k, hk, rfl⟩ := hmem hv hy
      simp only at hkey ⊢
      omega
  constructor
  · intro j hj
    obtain ⟨v, hv, hx⟩ := (hmoves (e.srcPtr + j, e.dstPtr + j)).2 ⟨j, hj, rfl⟩
    exact hmoved.moved v hv _ hx
  · intro a ha
    refine hmoved.frame a fun v hv x hx => ?_
    obtain ⟨j, hj, rfl⟩ := hmem hv hx
    exact ha j hj

/-- A copy of some of the bytes: where it stores, it stores what was there. -/
theorem copyMoves_eq {u : List (Int × Int)} (m : Int → V)
    (hu : ∀ y ∈ u, ∃ j : Nat, y = (e.srcPtr + j, e.dstPtr + j)) (j : Nat) :
    copyMoves m u (e.dstPtr + j) =
      if ∃ y ∈ u, y.2 = e.dstPtr + j then m (e.srcPtr + j) else m (e.dstPtr + j) := by
  split_ifs with hstore
  · obtain ⟨y, hy, hkey⟩ := hstore
    obtain ⟨i, rfl⟩ := hu y hy
    obtain rfl : i = j := by simpa using hkey
    refine scatter_of_mem hy fun z hz hz' => ?_
    obtain ⟨k, rfl⟩ := hu z hz
    obtain rfl : k = i := by simpa using hz'
    rfl
  · push Not at hstore
    exact scatter_of_ne hstore

/-- A copy to the right, whose first byte has been stored over the byte at its destination:
    this one is stored where the byte that was there should go. -/
theorem runCopies_of_overrun {d : Nat} (hd : e.srcPtr + d = e.dstPtr) (hpos : 0 < d) {b : V}
    (hprog : ∀ v ∈ prog, ∀ y ∈ v, ∃ j : Nat, y = (e.srcPtr + j, e.dstPtr + j))
    (hsrc : m e.srcPtr = b) (hdst : m e.dstPtr = b)
    (hlast : m (e.dstPtr + d) = b ∨ Stores prog (e.dstPtr + d)) :
    runCopies m prog (e.dstPtr + d) = b := by
  induction prog generalizing m with
  | nil => exact hlast.resolve_right (by simp [Stores])
  | cons u prog ih =>
    rw [List.forall_mem_cons] at hprog
    obtain ⟨hu, hprog⟩ := hprog
    have hsrc' : copyMoves m u e.srcPtr = b := by
      refine (scatter_of_ne fun y hy => ?_).trans hsrc
      obtain ⟨j, rfl⟩ := hu y hy
      simp only
      omega
    have hdst' : copyMoves m u e.dstPtr = b := by
      have hfirst := copyMoves_eq m hu 0
      simp only [Nat.cast_zero, Int.add_zero, hsrc, hdst, ite_self] at hfirst
      exact hfirst
    refine ih hprog hsrc' hdst' ?_
    have hlater := copyMoves_eq m hu d
    rw [hd, hdst] at hlater
    by_cases hstore : ∃ y ∈ u, y.2 = e.dstPtr + d
    · exact .inl (hlater.trans (if_pos hstore))
    · rw [if_neg hstore] at hlater
      rw [stores_cons] at hlast
      rcases hlast with hlast | hlast | hlast
      · exact .inl (hlater.trans hlast)
      · exact absurd hlast hstore
      · exact .inr hlast

/-- The first lane may run first. -/
theorem exists_flatten_eq (hblock : 0 < blockSize) (hsize : 0 < e.size)
    (hright : e.isLeftOverlap = false) :
    ∃ rest, (e.batchMemcpyKernel blockSize).flatten = [(e.srcPtr, e.dstPtr)] :: rest := by
  obtain ⟨lanes, hlanes⟩ := Nat.exists_eq_succ_of_ne_zero hblock.ne'
  have hsteps : 0 < cdiv (e.size - 0) blockSize := by
    by_contra hzero
    have hcover := le_cdiv_mul (e.size - 0) hblock
    rw [Nat.eq_zero_of_not_pos hzero] at hcover
    omega
  obtain ⟨steps, hsteps⟩ := Nat.exists_eq_succ_of_ne_zero hsteps.ne'
  rw [batchMemcpyKernel, if_neg (by simp [hright]), stepRange, hsteps, hlanes]
  simp only [List.range_succ_eq_map, List.map_cons, List.flatten_cons, List.cons_append]
  refine ⟨_, congrArg (· :: _) ?_⟩
  simp [step, hsize]

/-- `batch_memcpy_kernel` moves the bytes of an entry, whatever they are and in whatever order
    the lanes run that have no barrier, if and only if it does not shift them to the right by
    less than their number. -/
theorem batchMemcpyKernel_moves_iff [Nontrivial V] (e : CopyEntry) (hblock : 0 < blockSize) :
    (∀ prog, Interleaving (e.batchMemcpyKernel blockSize) prog →
      ∀ m : Int → V, e.MovedBy m (runCopies m prog)) ↔
      e.dstPtr ≤ e.srcPtr ∨ e.srcPtr + e.size ≤ e.dstPtr := by
  refine ⟨fun hall => ?_, fun hside prog h m => movedBy_of_interleaving hblock hside h m⟩
  by_contra hside
  obtain ⟨a, b, hab⟩ := exists_pair_ne V
  obtain ⟨d, hd⟩ : ∃ d : Nat, e.srcPtr + d = e.dstPtr := ⟨(e.dstPtr - e.srcPtr).toNat, by omega⟩
  have hright : e.isLeftOverlap = false := decide_eq_false (by omega)
  obtain ⟨rest, hrest⟩ := exists_flatten_eq hblock (by omega) hright
  have hmoves : ∀ {x}, (∃ v ∈ (e.batchMemcpyKernel blockSize).flatten, x ∈ v) ↔ _ :=
    mem_batchMemcpyKernel_iff hblock
  rw [hrest] at hmoves
  -- Only the first byte is `b`.
  have hmoved := (hall _ (Interleaving.flatten _) fun x => if x = e.srcPtr then b else a).moved d
    (by omega)
  have hover : runCopies (copyMoves (fun x => if x = e.srcPtr then b else a)
      [(e.srcPtr, e.dstPtr)]) rest (e.dstPtr + d) = b := by
    refine runCopies_of_overrun hd (by omega) (fun v hv y hy => ?_) ?_ ?_ ?_
    · obtain ⟨j, -, hy⟩ := hmoves.1 ⟨v, List.mem_cons_of_mem _ hv, hy⟩
      exact ⟨j, hy⟩
    · simp [copyMoves, scatter, Function.update_apply]
    · simp [copyMoves, scatter]
    · obtain ⟨v, hv, hx⟩ := hmoves.2 ⟨d, by omega, rfl⟩
      rcases List.mem_cons.1 hv with rfl | hv
      · have := congrArg Prod.snd (List.mem_singleton.1 hx)
        simp only at this
        omega
      · exact .inr ⟨v, hv, _, hx, rfl⟩
  rw [hrest] at hmoved
  exact hab (Eq.symm (hover.symm.trans (hmoved.trans (if_neg (by omega)))))

/-- Three bytes, shifted. -/
def shiftedBy (d : Int) : CopyEntry := ⟨0, d, 3⟩

/-- In blocks of two lanes, three bytes may be shifted to the left, and not to the right. -/
theorem batchMemcpyKernel_moves_iff_threeBytes :
    (∀ prog, Interleaving ((shiftedBy (-1)).batchMemcpyKernel 2) prog →
      ∀ m : Int → Bool, (shiftedBy (-1)).MovedBy m (runCopies m prog)) ∧
    ¬∀ prog, Interleaving ((shiftedBy 1).batchMemcpyKernel 2) prog →
      ∀ m : Int → Bool, (shiftedBy 1).MovedBy m (runCopies m prog) :=
  ⟨(batchMemcpyKernel_moves_iff (shiftedBy (-1)) (by decide)).2 (by decide),
    fun h => absurd ((batchMemcpyKernel_moves_iff (shiftedBy 1) (by decide)).1 h) (by decide)⟩

end CopyEntry

/-- `batch_memcpy`, with a program for each entry. -/
def batchMemcpy (entries : List CopyEntry) : List (List (List (Int × Int))) :=
  entries.flatMap fun e => e.batchMemcpyKernel 1024

/-- `do_mamba_copy_block`. -/
def doMambaCopyBlock (entries : List CopyEntry) : List (List (List (Int × Int))) :=
  if entries.length = 0 then [] else batchMemcpy entries

/-- What is moved: the bytes of the entries. -/
theorem mem_doMambaCopyBlock_iff {entries : List CopyEntry} {x : Int × Int} :
    (∃ v ∈ (doMambaCopyBlock entries).flatten, x ∈ v) ↔
      ∃ e ∈ entries, ∃ j < e.size, x = (e.srcPtr + j, e.dstPtr + j) := by
  have hbatch : doMambaCopyBlock entries = batchMemcpy entries := by
    rw [doMambaCopyBlock]
    split_ifs with hnil
    · rw [List.length_eq_zero_iff.1 hnil]
      rfl
    · rfl
  have hkernel := fun e : CopyEntry =>
    CopyEntry.mem_batchMemcpyKernel_iff (e := e) (x := x) (show 0 < 1024 by decide)
  simp only [← hkernel, hbatch, batchMemcpy, List.mem_flatten, List.mem_flatMap]
  constructor
  · rintro ⟨v, ⟨p, ⟨e, he, hp⟩, hv⟩, hx⟩
    exact ⟨e, he, v, ⟨p, hp, hv⟩, hx⟩
  · rintro ⟨e, he, v, ⟨p, hp, hv⟩, hx⟩
    exact ⟨v, ⟨p, ⟨e, he, hp⟩, hv⟩, hx⟩

end FlashNext.Mamba
