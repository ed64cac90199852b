import FlashNext.Ple.Conv

/-!
# A launch of the short convolution

What `ple_conv` computes. A launch is *sound* (`ConvArgs.Sound`) when its tokens have rows
of their own, its requests have states of their own, and the requests follow one after the
other.

* `launch_perm`: the programs of the two kernels may run in any order;
* `launch_residual` and `launch_frame`: every token adds its output to its row, and only
  the rows of the tokens and the states of the requests change;
* `launch_spec`: it serves its requests (`Serves`): if the state of a request holds the
  window of a position of a stream, and the chunk has what follows, the outputs are those
  of the filter, and the state then holds the window of the position behind the chunk or,
  for draft tokens, one for every number of them that may be kept.
-/

namespace FlashNext.Ple

variable {V W A : Type*}

namespace ConvLayer

variable (self : ConvLayer V W A) (a : ConvArgs V)

/-! ## The programs -/

/-- The cells of the output of a program. -/
def outputCells (x : Nat × Nat) (k : ConvCell) : Prop :=
  ∃ c ∈ self.block x.2, k = .residual (a.row x.1) c

/-- What a program of the first kernel reads. -/
def convReads (x : Nat × Nat) (k : ConvCell) : Prop :=
  self.outputCells a x k ∨
    self.stateOk a (a.lane x.1).req ∧ ∃ w, self.rowCells a (a.lane x.1).req w x.2 k

/-- What a program of the first kernel writes. -/
def convWrites (x : Nat × Nat) (k : ConvCell) : Prop :=
  self.outputCells a x k ∨
    (a.mode = .decode ∧ self.stateOk a x.1) ∧ ∃ w < self.stateLen, self.rowCells a x.1 w x.2 k

/-- What a program of the second kernel reads. -/
def backReads (x : Nat × Nat) (k : ConvCell) : Prop :=
  self.stateOk a x.1 ∧ ∃ w, self.rowCells a x.1 w x.2 k

/-- What a program of the second kernel writes. -/
def backWrites (x : Nat × Nat) (k : ConvCell) : Prop :=
  (self.stateOk a x.1 ∧ 0 < a.shift x.1) ∧
    ∃ w < self.writeWidth a, self.roundWrites a x.1 x.2 w k

variable {self a} {m : ConvCell → V} {t r pid w c : Nat} {k : ConvCell}

theorem lane_of_decode (hmode : a.mode = .decode) (t : Nat) : a.lane t = ⟨t, 0, true⟩ := by
  simp [ConvArgs.lane, hmode]

/-- A program adds its outputs. -/
theorem convProgram_residual (hc : c ∈ self.block pid) :
    self.convProgram a (t, pid) m (.residual (a.row t) c) =
      self.add (m (.residual (a.row t) c)) (self.convOutput a m (a.lane t) c) := by
  have hrow : ∀ w < self.stateLen, ¬self.rowCells a t w pid (.residual (a.row t) c) := by
    rintro w - ⟨c', -, h⟩
    cases h
  rw [convProgram]
  split_ifs
  · rw [(decodeRounds_spec t pid _).2 _ hrow, scatter_block (residual_injective _) hc]
  · rw [scatter_block (residual_injective _) hc]

/-- In decode mode, it moves up the state of its request. -/
theorem convProgram_state (hmode : a.mode = .decode) (hok : self.stateOk a t)
    (hw : w < self.stateLen) (hc : c ∈ self.block pid) :
    self.convProgram a (t, pid) m (.state (a.sid t) w c) =
      if w + 1 < self.stateLen then
        if a.hasInit t then m (.state (a.sid t) (w + 1) c) else self.zero
      else a.inputs (a.row t) c := by
  rw [convProgram]
  simp only [if_pos (show a.mode = .decode ∧ self.stateOk a t from ⟨hmode, hok⟩)]
  rw [(decodeRounds_spec t pid _).1 w hw c hc, scatter_block_of_ne]
  rintro ⟨c', -, h⟩
  cases h

theorem convProgram_frame {x : Nat × Nat} (hk : ¬self.convWrites a x k) :
    self.convProgram a x m k = m k := by
  obtain ⟨t, pid⟩ := x
  obtain ⟨hout, hstate⟩ := not_or.1 hk
  rw [convProgram]
  split_ifs with hdecode
  · rw [(decodeRounds_spec t pid _).2 _ fun w hw h => hstate ⟨hdecode, w, hw, h⟩,
      scatter_block_of_ne hout]
  · exact scatter_block_of_ne hout

/-- The output of a program depends on the state of its request. -/
theorem convOutput_congr {m' : ConvCell → V} (hc : c ∈ self.block pid)
    (h : ∀ k, self.convReads a (t, pid) k → m k = m' k) :
    self.convOutput a m (a.lane t) c = self.convOutput a m' (a.lane t) c := by
  have htap : ∀ k < self.kernelSize,
      self.tap a m (a.lane t) c k = self.tap a m' (a.lane t) c k := by
    intro k hk
    simp only [tap]
    split_ifs with hfrom hread <;> try rfl
    refine h _ (.inr ⟨?_, _, rowCells_of_mem hc⟩)
    rw [readState] at hread
    split_ifs at hread with hspec
    · exact hread
    · exact (Bool.and_eq_true_iff.1 hread).1
  rw [convOutput, convOutput]
  split_ifs
  · rw [CausalFilter.combine_congr htap]
  · rfl

/-- What the programs of the first kernel touch. -/
theorem convProgram_footprint :
    Footprint (self.convReads a) (self.convWrites a) (self.convProgram a) where
  frame x m k hk := convProgram_frame hk
  congr x m m' h k hk := by
    obtain ⟨t, pid⟩ := x
    rcases hk with ⟨c, hc, rfl⟩ | ⟨⟨hmode, hok⟩, w, hw, c, hc, rfl⟩
    · rw [convProgram_residual hc, convProgram_residual hc, convOutput_congr hc h,
        h _ (.inl ⟨c, hc, rfl⟩)]
    · have hnext : m (.state (a.sid t) (w + 1) c) = m' (.state (a.sid t) (w + 1) c) := by
        refine h _ (.inr ?_)
        rw [lane_of_decode hmode]
        exact ⟨hok, _, rowCells_of_mem hc⟩
      rw [convProgram_state hmode hok hw hc, convProgram_state hmode hok hw hc, hnext]

/-- A program of the second kernel writes nothing for a request without a state, or with
    an empty chunk. -/
theorem writebackProgram_eq (x : Nat × Nat) :
    self.writebackProgram a x m = if self.stateOk a x.1 ∧ 0 < a.shift x.1 then
      runPrograms (self.writebackRound a x.1 x.2) (List.range (self.writeWidth a)) m else m := by
  obtain ⟨r, pid⟩ := x
  have hshift : (a.mode ≠ .spec ∧ a.qlen r = 0) ↔ ¬0 < a.shift r := by
    rw [ConvArgs.shift]
    split_ifs with hspec <;> simp [hspec]
  simp only [writebackProgram, hshift, ite_not]
  cases self.stateOk a r <;> simp

/-- It writes the rows that its rounds write. -/
theorem writebackProgram_state (hok : self.stateOk a r) (hshift : 0 < a.shift r)
    (hw : w < self.writeWidth a) (hspec : a.mode = .spec → w + 1 < self.stateLen + a.qlen r)
    (hc : c ∈ self.block pid) :
    self.writebackProgram a (r, pid) m (.state (a.sid r) w c) =
      if a.shift r + w < self.stateLen then
        if a.hasInit r then m (.state (a.sid r) (a.slotOff r + (a.shift r + w)) c)
        else self.zero
      else a.inputs (a.row (a.qStart r + (a.shift r + w - self.stateLen))) c := by
  rw [writebackProgram_eq, if_pos ⟨hok, hshift⟩]
  exact (writebackRounds_spec r pid hshift m).1 w hw hspec c hc

theorem writebackProgram_frame {x : Nat × Nat} (hk : ¬self.backWrites a x k) :
    self.writebackProgram a x m k = m k := by
  rw [writebackProgram_eq]
  split_ifs with h
  · exact (writebackRounds_spec x.1 x.2 h.2 m).2 k fun w hw hr => hk ⟨h, w, hw, hr⟩
  · rfl

/-- What the programs of the second kernel touch. -/
theorem writebackProgram_footprint :
    Footprint (self.backReads a) (self.backWrites a) (self.writebackProgram a) where
  frame x m k hk := writebackProgram_frame hk
  congr x m m' h k hk := by
    obtain ⟨r, pid⟩ := x
    obtain ⟨⟨hok, hshift⟩, w, hw, hspec, c, hc, rfl⟩ := hk
    rw [writebackProgram_state hok hshift hw hspec hc,
      writebackProgram_state hok hshift hw hspec hc, h _ ⟨hok, _, rowCells_of_mem hc⟩]

/-! ## The order of the programs -/

/-- A launch that the caller may make: no two tokens have one row, no two requests with a
    state have the same one, and the chunks of the requests follow one another. -/
structure Sound (layer : ConvLayer V W A) (a : ConvArgs V) : Prop where
  rows : ∀ t < a.numTokens, ∀ t' < a.numTokens, a.row t = a.row t' → t = t'
  slots : ∀ r < a.numReqs, ∀ r' < a.numReqs, layer.stateOk a r → a.sid r = a.sid r' → r = r'
  segments : a.mode ≠ .decode → Segments a.starts
  locs : a.mode ≠ .decode → a.starts.length = a.numReqs + 1
  last : a.mode ≠ .decode → a.starts.getD a.numReqs 0 ≤ a.numTokens

theorem rowCells_common {r' w' pid' : Nat} (h : self.rowCells a r w pid k)
    (h' : self.rowCells a r' w' pid' k) : a.sid r = a.sid r' ∧ pid = pid' := by
  obtain ⟨c, hc, rfl⟩ := h
  obtain ⟨c', hc', h⟩ := h'
  injection h with hsid _ hcc
  rw [← hcc] at hc'
  exact ⟨hsid, (mem_block.1 hc).1.symm.trans (mem_block.1 hc').1⟩

theorem outputCells_common {x y : Nat × Nat} (h : self.outputCells a x k)
    (h' : self.outputCells a y k) : a.row x.1 = a.row y.1 ∧ x.2 = y.2 := by
  obtain ⟨c, hc, rfl⟩ := h
  obtain ⟨c', hc', h⟩ := h'
  injection h with hrow hcc
  rw [← hcc] at hc'
  exact ⟨hrow, (mem_block.1 hc).1.symm.trans (mem_block.1 hc').1⟩

theorem not_rowCells_of_outputCells {x : Nat × Nat} (h : self.outputCells a x k) :
    ¬self.rowCells a r w pid k := by
  obtain ⟨c, -, rfl⟩ := h
  rintro ⟨c', -, h⟩
  cases h

section Sound

variable (h : Sound self a)
include h

/-- The programs of the first kernel leave the cells of each other alone. -/
theorem Sound.convClear {x y : Nat × Nat} (hx : x ∈ self.grid a.numTokens)
    (hy : y ∈ self.grid a.numTokens) (hne : x ≠ y) :
    Clear (self.convReads a) (self.convWrites a) x y := by
  intro k hk
  rcases hk with hout | ⟨⟨hmode, hok⟩, w, -, hrow⟩
  · -- Two programs with a common output are one.
    have hno : ¬self.outputCells a y k := fun hout' => by
      obtain ⟨hrow, hpid⟩ := outputCells_common hout hout'
      exact hne (Prod.ext (h.rows _ (mem_grid hx) _ (mem_grid hy) hrow) hpid)
    refine ⟨?_, ?_⟩
    · rintro (hout' | ⟨-, w, hrow⟩)
      · exact hno hout'
      · exact not_rowCells_of_outputCells hout hrow
    · rintro (hout' | ⟨-, w, -, hrow⟩)
      · exact hno hout'
      · exact not_rowCells_of_outputCells hout hrow
  · -- So are two with a common state.
    have hno : ∀ w', ¬self.rowCells a y.1 w' y.2 k := fun w' hrow' => by
      obtain ⟨hsid, hpid⟩ := rowCells_common hrow hrow'
      have hreqs : a.numReqs = a.numTokens := by rw [ConvArgs.numReqs, if_pos hmode]
      exact hne (Prod.ext (h.slots _ (hreqs ▸ mem_grid hx) _ (hreqs ▸ mem_grid hy) hok hsid) hpid)
    refine ⟨?_, ?_⟩
    · rintro (hout' | ⟨-, w', hrow'⟩)
      · exact not_rowCells_of_outputCells hout' hrow
      · rw [lane_of_decode hmode] at hrow'
        exact hno w' hrow'
    · rintro (hout' | ⟨-, w', -, hrow'⟩)
      · exact not_rowCells_of_outputCells hout' hrow
      · exact hno w' hrow'

/-- So do those of the second one. -/
theorem Sound.backClear {x y : Nat × Nat} (hx : x ∈ self.grid a.numReqs)
    (hy : y ∈ self.grid a.numReqs) (hne : x ≠ y) :
    Clear (self.backReads a) (self.backWrites a) x y := by
  intro k hk
  obtain ⟨⟨hok, -⟩, w, -, hrow⟩ := hk
  have hno : ∀ w', ¬self.rowCells a y.1 w' y.2 k := fun w' hrow' => by
    obtain ⟨hsid, hpid⟩ := rowCells_common hrow.2 hrow'
    exact hne (Prod.ext (h.slots _ (mem_grid hx) _ (mem_grid hy) hok hsid) hpid)
  exact ⟨fun ⟨_, w', hrow'⟩ => hno w' hrow', fun ⟨_, w', _, hrow'⟩ => hno w' hrow'.2⟩

/-- The programs of the two kernels may run in any order. -/
theorem Sound.launch_perm {order order' : List (Nat × Nat)}
    (horder : order.Perm (self.grid a.numTokens)) (horder' : order'.Perm (self.grid a.numReqs))
    (m : ConvCell → V) :
    self.launch a order order' m =
      self.launch a (self.grid a.numTokens) (self.grid a.numReqs) m := by
  rw [launch, launch, runPrograms_perm convProgram_footprint (nodup_grid _)
    (fun x hx y hy => h.convClear hx hy) horder]
  split_ifs
  · rfl
  · exact runPrograms_perm writebackProgram_footprint (nodup_grid _)
      (fun x hx y hy => h.backClear hx hy) horder' _

/-- What the programs of the first kernel leave. -/
theorem Sound.runConv (m : ConvCell → V) :
    (∀ x ∈ self.grid a.numTokens, ∀ k, self.convWrites a x k →
      runPrograms (self.convProgram a) (self.grid a.numTokens) m k = self.convProgram a x m k) ∧
    ∀ k, (∀ x ∈ self.grid a.numTokens, ¬self.convWrites a x k) →
      runPrograms (self.convProgram a) (self.grid a.numTokens) m k = m k :=
  runPrograms_spec convProgram_footprint (List.Nodup.pairwise_of_forall_ne (nodup_grid _)
    fun _ hx _ hy => h.convClear hx hy) m

/-- What the programs of the second kernel leave. -/
theorem Sound.runBack (m : ConvCell → V) :
    (∀ x ∈ self.grid a.numReqs, ∀ k, self.backWrites a x k →
      runPrograms (self.writebackProgram a) (self.grid a.numReqs) m k =
        self.writebackProgram a x m k) ∧
    ∀ k, (∀ x ∈ self.grid a.numReqs, ¬self.backWrites a x k) →
      runPrograms (self.writebackProgram a) (self.grid a.numReqs) m k = m k :=
  runPrograms_spec writebackProgram_footprint (List.Nodup.pairwise_of_forall_ne (nodup_grid _)
    fun _ hx _ hy => h.backClear hx hy) m

/-! ## The values of a launch -/

/-- A token of the chunk of a request. -/
theorem Sound.lane_eq {j : Nat} (hr : r < a.numReqs) (hj : j < a.qlen r) :
    a.lane (a.qStart r + j) = ⟨r, j, true⟩ ∧ a.qStart r + j < a.numTokens := by
  by_cases hmode : a.mode = .decode
  · rw [ConvArgs.qlen, if_pos hmode] at hj
    rw [ConvArgs.numReqs, if_pos hmode] at hr
    obtain rfl : j = 0 := by omega
    rw [ConvArgs.qStart, if_pos hmode, lane_of_decode hmode]
    exact ⟨rfl, hr⟩
  · have hseg := h.segments hmode
    have hlen := h.locs hmode
    have hlast := h.last hmode
    have hend : a.starts.getD (r + 1) 0 ≤ a.starts.getD a.numReqs 0 :=
      hseg.getD_le (by omega) (by omega)
    rw [ConvArgs.qlen, if_neg hmode] at hj
    have hin : InSegment a.starts r (a.starts.getD r 0 + j) :=
      ⟨by omega, by omega, fun _ => by omega⟩
    have hreq := (inSegment_bisect hseg (a.starts.getD r 0 + j)).unique hseg hin
    rw [hlen, show a.numReqs + 1 - 1 = max a.numReqs 1 by omega,
      show a.numReqs + 1 - 2 = a.numReqs - 1 by omega] at hreq
    rw [ConvArgs.qStart, if_neg hmode, ConvArgs.lane, if_neg hmode]
    dsimp only
    rw [hreq, Nat.add_sub_cancel_left, decide_eq_true (by omega)]
    exact ⟨rfl, by omega⟩

/-- Every token adds its output, from the states before the launch. -/
theorem Sound.launch_residual (ht : t < a.numTokens) (hc : c < self.channels) :
    self.launch a (self.grid a.numTokens) (self.grid a.numReqs) m (.residual (a.row t) c) =
      self.add (m (.residual (a.row t) c)) (self.convOutput a m (a.lane t) c) := by
  obtain ⟨hx, hblock⟩ := mem_grid_block ht hc
  have hout : self.outputCells a (t, c / blockC) (.residual (a.row t) c) := ⟨c, hblock, rfl⟩
  rw [launch]
  split_ifs
  · rw [(h.runConv m).1 _ hx _ (.inl hout), convProgram_residual hblock]
  · rw [(h.runBack _).2, (h.runConv m).1 _ hx _ (.inl hout), convProgram_residual hblock]
    rintro y - ⟨-, w, -, hrow⟩
    exact not_rowCells_of_outputCells hout hrow.2

/-- The state of a request moves up. -/
theorem Sound.launch_state (hr : r < a.numReqs) (hok : self.stateOk a r) (hshift : 0 < a.shift r)
    (hw : w < self.writeWidth a) (hspec : a.mode = .spec → w + 1 < self.stateLen + a.qlen r)
    (hc : c < self.channels) :
    self.launch a (self.grid a.numTokens) (self.grid a.numReqs) m (.state (a.sid r) w c) =
      if a.shift r + w < self.stateLen then
        if a.hasInit r then m (.state (a.sid r) (a.slotOff r + (a.shift r + w)) c)
        else self.zero
      else a.inputs (a.row (a.qStart r + (a.shift r + w - self.stateLen))) c := by
  obtain ⟨hx, hblock⟩ := mem_grid_block hr hc
  have hrow := rowCells_of_mem (a := a) (r := r) (w := w) hblock
  rw [launch]
  by_cases hmode : a.mode = .decode
  · have hlen : self.writeWidth a = self.stateLen := if_neg (by rw [hmode]; decide)
    have hone : a.shift r = 1 := by simp [ConvArgs.shift, ConvArgs.qlen, hmode]
    have hoff : a.slotOff r = 0 := if_neg (by rw [hmode]; decide)
    have hstart : a.qStart r = r := if_pos hmode
    rw [ConvArgs.numReqs, if_pos hmode] at hx
    rw [hlen] at hw
    rw [if_pos hmode, (h.runConv m).1 _ hx _ (.inr ⟨⟨hmode, hok⟩, w, hw, hrow⟩),
      convProgram_state hmode hok hw hblock, hone, hoff, hstart, Nat.zero_add, Nat.add_comm w 1]
    split_ifs with hnext
    · rfl
    · rfl
    · rw [show r + (1 + w - self.stateLen) = r by omega]
  · -- The first kernel has left the states alone.
    have hstate : ∀ w', runPrograms (self.convProgram a) (self.grid a.numTokens) m
        (.state (a.sid r) w' c) = m (.state (a.sid r) w' c) := fun w' => by
      refine (h.runConv m).2 _ fun y _ hy => ?_
      rcases hy with hout | ⟨⟨hdecode, -⟩, -⟩
      · exact not_rowCells_of_outputCells hout (rowCells_of_mem (a := a) (r := r) hblock)
      · exact hmode hdecode
    rw [if_neg hmode, (h.runBack _).1 _ hx _ ⟨⟨hok, hshift⟩, w, hw, hspec, hrow⟩,
      writebackProgram_state hok hshift hw hspec hblock, hstate]

/-- Nothing else is changed. -/
theorem Sound.launch_frame
    (hout : ∀ t < a.numTokens, ∀ c < self.channels, k ≠ .residual (a.row t) c)
    (hstate : ∀ r < a.numReqs, self.stateOk a r → ∀ w < self.writeWidth a, ∀ c < self.channels,
      k ≠ .state (a.sid r) w c) :
    self.launch a (self.grid a.numTokens) (self.grid a.numReqs) m k = m k := by
  have hno : ∀ x ∈ self.grid a.numTokens, ¬self.convWrites a x k := by
    rintro x hx (⟨c, hc, hk⟩ | ⟨⟨hmode, hok⟩, w, hw, c, hc, hk⟩)
    · exact hout _ (mem_grid hx) c (mem_block.1 hc).2 hk
    · have hlen : self.writeWidth a = self.stateLen := if_neg (by rw [hmode]; decide)
      have hreqs : a.numReqs = a.numTokens := if_pos hmode
      exact hstate _ (hreqs ▸ mem_grid hx) hok w (hlen ▸ hw) c (mem_block.1 hc).2 hk
  have hno' : ∀ x ∈ self.grid a.numReqs, ¬self.backWrites a x k := by
    rintro x hx ⟨⟨hok, -⟩, w, hw, -, c, hc, hk⟩
    exact hstate _ (mem_grid hx) hok w hw c (mem_block.1 hc).2 hk
  rw [launch]
  split_ifs
  · exact (h.runConv m).2 k hno
  · rw [(h.runBack _).2 k hno', (h.runConv m).2 k hno]

/-! ## The windows of the requests -/

omit h in
/-- The state of a request as a program reads it, in a channel. -/
def window (self : ConvLayer V W A) (a : ConvArgs V) (m : ConvCell → V) (r c w : Nat) : V :=
  if self.readState a r then m (.state (a.sid r) w c) else self.zero

omit h in
/-- The output of a token is that of the filter, if the request has the window of a
    position and the chunk goes on from there. -/
theorem convOutput_eq {x : Int → V} {p : Int} {j : Nat} (hok : a.mode = .spec ∨ self.stateOk a r)
    (hwin : Holds self.stateLen (self.window a m r c) (a.slotOff r) x p)
    (hnew : ∀ i ≤ j, a.inputs (a.row (a.qStart r + i)) c = x (p + i)) :
    self.convOutput a m ⟨r, j, true⟩ c = self.output ((self.filter c).apply x (p + j)) := by
  have hout : self.outOk a ⟨r, j, true⟩ = true := by
    rw [outOk]
    split_ifs with hspec
    · rfl
    · simpa using hok.resolve_left hspec
  rw [convOutput, if_pos hout, ← CausalFilter.taps_eq_apply (f := self.filter c) hwin hnew]
  congr 1
  refine CausalFilter.combine_congr fun k _ => ?_
  simp only [tap, hout, if_true]
  rfl

omit h in
/-- From `m` to `m'` a request of a launch is served: if its state holds the window of a
    position of a stream and its chunk has what follows, its tokens add the outputs of the
    filter, and then its state holds the windows of the positions up to that behind the
    chunk: of the last one or, for draft tokens, of every one that has room. -/
def Serves (self : ConvLayer V W A) (a : ConvArgs V) (m m' : ConvCell → V) (r : Nat) : Prop :=
  ∀ c < self.channels, ∀ (x : Int → V) (p : Int),
    Holds self.stateLen (self.window a m r c) (a.slotOff r) x p →
    (∀ j < a.qlen r, a.inputs (a.row (a.qStart r + j)) c = x (p + j)) →
    (a.mode = .spec ∨ self.stateOk a r → ∀ j < a.qlen r,
      m' (.residual (a.row (a.qStart r + j)) c) =
        self.add (m (.residual (a.row (a.qStart r + j)) c))
          (self.output ((self.filter c).apply x (p + j)))) ∧
    (self.stateOk a r → 0 < a.qlen r → ∀ o, o + self.stateLen ≤ self.writeWidth a →
      a.shift r + o ≤ a.qlen r →
      Holds self.stateLen (fun w => m' (.state (a.sid r) w c)) o x (p + (a.shift r + o : Nat)))

/-- A launch, with the programs of its kernels in any order, serves its requests, and
    changes nothing but the rows of its tokens and the states of its requests. -/
theorem Sound.launch_spec {order order' : List (Nat × Nat)}
    (horder : order.Perm (self.grid a.numTokens)) (horder' : order'.Perm (self.grid a.numReqs))
    (m : ConvCell → V) :
    (∀ r < a.numReqs, self.Serves a m (self.launch a order order' m) r) ∧
    ∀ k, (∀ t < a.numTokens, ∀ c < self.channels, k ≠ .residual (a.row t) c) →
      (∀ r < a.numReqs, self.stateOk a r → ∀ w < self.writeWidth a, ∀ c < self.channels,
        k ≠ .state (a.sid r) w c) →
      self.launch a order order' m k = m k := by
  rw [h.launch_perm horder horder']
  refine ⟨fun r hr c hc x p hwin hnew => ⟨fun hok j hj => ?_, fun hok hq o hroom ho => ?_⟩,
    fun k => h.launch_frame⟩
  · obtain ⟨hlane, ht⟩ := h.lane_eq hr hj
    rw [h.launch_residual ht hc, hlane, convOutput_eq hok hwin fun i hi => hnew i (by omega)]
  · have hshift : 0 < a.shift r := by
      rw [ConvArgs.shift]
      split_ifs
      · exact Nat.one_pos
      · exact hq
    have hread : self.readState a r = a.hasInit r := by
      rw [readState, ConvArgs.hasInit, hok, Bool.true_and]
      split_ifs <;> rfl
    have hbuf : ∀ w < o + self.stateLen,
        self.launch a (self.grid a.numTokens) (self.grid a.numReqs) m (.state (a.sid r) w c) =
          if a.shift r + w < self.stateLen then
            self.window a m r c (a.slotOff r + (a.shift r + w))
          else a.inputs (a.row (a.qStart r + (a.shift r + w - self.stateLen))) c := fun w hw => by
      have hspec : a.mode = .spec → w + 1 < self.stateLen + a.qlen r := fun hspec => by
        have hone : a.shift r = 1 := if_pos hspec
        omega
      rw [h.launch_state hr hok hshift (by omega) hspec hc, window, hread]
    exact hwin.advance hnew hbuf le_rfl ho

end Sound

end ConvLayer

end FlashNext.Ple
