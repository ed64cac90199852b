import FlashNext.Mamba.Moves

/-!
# The Mamba kernels

The fused post- and pre-copy kernels of `mamba_utils_guarded.py`, whose programs, one
for each request, state and tile, decide whether to copy a state and between which
columns (`Kernel.copy`).

* `program_effect`: all programs of a request take the same decision;
* `copies_sound`: the guard keeps the copies in the pool of the state, whatever is in
  the block tables, changes nothing for a copy whose block ids are in range, and leaves
  out all of any other.

The division of the kernels rounds towards zero.
-/

namespace FlashNext.Mamba

/-- What a program does, and the requests whose accepted tokens it sets to `1`. -/
structure Outcome where
  effect : Effect
  accepted : List Int

/-- A program that returns early. -/
def Outcome.skip : Outcome := ⟨⟨[], 0⟩, []⟩

/-- `req_idx`, without which a program returns. -/
def reqIdx (idxMapping : Option (Nat → Int)) (batch : Nat) : Option Int :=
  match idxMapping with
  | none => some batch
  | some mapping => if mapping batch < 0 then none else some (mapping batch)

/-! ## The kernel after a step -/

/-- The arguments of `postprocess_mamba_fused_kernel`. -/
structure PostprocessArgs where
  numAcceptedTokens : Int → Int
  mambaStateIdx : Int → Int
  numScheduledTokens : Int → Int
  numComputedTokens : Int → Int
  numDraftTokens : Int → Int
  idxMapping : Option (Nat → Int)
  numReqs : Nat
  blockSize : Int
  precomputedNewComputed : Bool

namespace PostprocessArgs

variable (a : PostprocessArgs) (l : Launch) (states : Nat → MambaState)

/-- `num_tokens_running_state`. -/
def numTokensRunningState (req : Int) : Int :=
  if a.precomputedNewComputed then a.numComputedTokens req - a.numAcceptedTokens req + 1
  else a.numComputedTokens req + a.numScheduledTokens req - a.numDraftTokens req

/-- `new_num_computed`. -/
def newNumComputed (req : Int) : Int :=
  if a.precomputedNewComputed then a.numComputedTokens req
  else a.numTokensRunningState req + a.numAcceptedTokens req - 1

/-- `aligned_new_computed`. -/
def alignedNewComputed (req : Int) : Int := (a.newNumComputed req).tdiv a.blockSize * a.blockSize

/-- `accept_token_bias`. -/
def acceptTokenBias (req : Int) : Int := a.alignedNewComputed req - a.numTokensRunningState req

/-- `dest_block_idx`. -/
def destBlockIdx (req : Int) : Int := (a.alignedNewComputed req).tdiv a.blockSize - 1

/-- `postprocess_mamba_fused_kernel`. -/
def postprocessMambaFusedKernel (guard : Bool) (batch state tile : Nat) : Outcome :=
  if a.numReqs ≤ batch then .skip
  else match reqIdx a.idxMapping batch with
    | none => .skip
    | some req =>
      let src := a.mambaStateIdx req
      let dest := a.destBlockIdx req
      if a.alignedNewComputed req < a.numTokensRunningState req then .skip
      else
        let accepted := if src = dest ∧ state = 0 ∧ tile = 0 then [req] else []
        if src = dest ∧ a.acceptTokenBias req = 0 then ⟨⟨[], 0⟩, accepted⟩
        else
          -- With a mapping, the rows of the block tables are in batch order.
          let row := if a.idxMapping.isSome then (batch : Int) else req
          ⟨(states state).copyMambaStateBlock l ⟨row, src, dest, a.acceptTokenBias req⟩ guard tile,
            accepted⟩

/-- The copy of the states of a request after a step. -/
def copy (batch : Nat) : Option Copy :=
  if a.numReqs ≤ batch then none
  else match reqIdx a.idxMapping batch with
    | none => none
    | some req =>
      if a.alignedNewComputed req < a.numTokensRunningState req then none
      else if a.mambaStateIdx req = a.destBlockIdx req ∧ a.acceptTokenBias req = 0 then none
      else some ⟨if a.idxMapping.isSome then (batch : Int) else req, a.mambaStateIdx req,
        a.destBlockIdx req, a.acceptTokenBias req⟩

/-- The end of the last full block depends on the tokens so far. -/
theorem aligned_congr {a a' : PostprocessArgs} {req req' : Int}
    (hblock : a.blockSize = a'.blockSize) (hnew : a.newNumComputed req = a'.newNumComputed req') :
    a.alignedNewComputed req = a'.alignedNewComputed req' ∧
      a.destBlockIdx req = a'.destBlockIdx req' := by
  have haligned : a.alignedNewComputed req = a'.alignedNewComputed req' := by
    rw [alignedNewComputed, alignedNewComputed, hnew, hblock]
  exact ⟨haligned, by rw [destBlockIdx, destBlockIdx, haligned, hblock]⟩

/-- The copy of a request depends on its numbers and on its row of the block tables. -/
theorem copy_congr {a a' : PostprocessArgs} {batch : Nat} {req req' : Int}
    (hbatch : batch < a.numReqs) (hbatch' : batch < a'.numReqs)
    (hreq : reqIdx a.idxMapping batch = some req) (hreq' : reqIdx a'.idxMapping batch = some req')
    (hrow : (if a.idxMapping.isSome then (batch : Int) else req) =
      if a'.idxMapping.isSome then (batch : Int) else req')
    (hblock : a.blockSize = a'.blockSize)
    (hrunning : a.numTokensRunningState req = a'.numTokensRunningState req')
    (hnew : a.newNumComputed req = a'.newNumComputed req')
    (hstate : a.mambaStateIdx req = a'.mambaStateIdx req') : a.copy batch = a'.copy batch := by
  obtain ⟨haligned, hdest⟩ := aligned_congr hblock hnew
  have hbias : a.acceptTokenBias req = a'.acceptTokenBias req' := by
    rw [acceptTokenBias, acceptTokenBias, haligned, hrunning]
  simp only [copy, if_neg (not_le.2 hbatch), if_neg (not_le.2 hbatch'), hreq, hreq']
  rw [hrow, haligned, hrunning, hstate, hbias, hdest]

end PostprocessArgs

/-! ## The kernel before a step -/

/-- The arguments of `precopy_mamba_align_fused_kernel`. -/
structure PrecopyArgs where
  mambaStateIdx : Int → Int
  srcCol : Int → Int
  tokenBias : Int → Int
  idxMapping : Option (Nat → Int)
  numReqs : Nat

namespace PrecopyArgs

variable (a : PrecopyArgs) (l : Launch) (states : Nat → MambaState)

/-- `precopy_mamba_align_fused_kernel`. -/
def precopyMambaAlignFusedKernel (guard : Bool) (batch state tile : Nat) : Outcome :=
  if a.numReqs ≤ batch then .skip
  else match reqIdx a.idxMapping batch with
    | none => .skip
    | some req =>
      let srcCol := a.srcCol req
      let dstCol := a.mambaStateIdx req
      if srcCol < 0 ∨ srcCol = dstCol then .skip
      else
        ⟨(states state).copyMambaStateBlock l ⟨batch, srcCol, dstCol, a.tokenBias req⟩ guard tile,
          []⟩

/-- The copy of the states of a request before a step. -/
def copy (batch : Nat) : Option Copy :=
  if a.numReqs ≤ batch then none
  else match reqIdx a.idxMapping batch with
    | none => none
    | some req =>
      if a.srcCol req < 0 ∨ a.srcCol req = a.mambaStateIdx req then none
      else some ⟨batch, a.srcCol req, a.mambaStateIdx req, a.tokenBias req⟩

end PrecopyArgs

/-! ## The decision of a kernel -/

/-- A kernel and its arguments. -/
inductive Kernel
  | postprocess (a : PostprocessArgs)
  | precopy (a : PrecopyArgs)

namespace Kernel

/-- The requests of the launch. -/
def numReqs : Kernel → Nat
  | postprocess a => a.numReqs
  | precopy a => a.numReqs

/-- The program of a request, a state and a tile. -/
def program (l : Launch) (states : Nat → MambaState) (guard : Bool) (batch state tile : Nat) :
    Kernel → Outcome
  | postprocess a => a.postprocessMambaFusedKernel l states guard batch state tile
  | precopy a => a.precopyMambaAlignFusedKernel l states guard batch state tile

/-- The copy of the states of a request. -/
def copy (batch : Nat) : Kernel → Option Copy
  | postprocess a => a.copy batch
  | precopy a => a.copy batch

variable (k : Kernel) (l : Launch) (states : Nat → MambaState) (batch state : Nat)

/-- The programs of a request take the same decision, for all states and tiles. -/
theorem program_effect (guard : Bool) (tile : Nat) :
    (k.program l states guard batch state tile).effect = match k.copy batch with
      | none => ⟨[], 0⟩
      | some c => (states state).copyMambaStateBlock l c guard tile := by
  cases k with
  | postprocess a =>
    simp only [program, copy, PostprocessArgs.postprocessMambaFusedKernel, PostprocessArgs.copy]
    by_cases hreqs : a.numReqs ≤ batch
    · simp only [if_pos hreqs]
      rfl
    · simp only [if_neg hreqs]
      cases reqIdx a.idxMapping batch with
      | none => rfl
      | some req =>
        dsimp only
        split_ifs <;> rfl
  | precopy a =>
    simp only [program, copy, PrecopyArgs.precopyMambaAlignFusedKernel, PrecopyArgs.copy]
    by_cases hreqs : a.numReqs ≤ batch
    · simp only [if_pos hreqs]
      rfl
    · simp only [if_neg hreqs]
      cases reqIdx a.idxMapping batch with
      | none => rfl
      | some req =>
        dsimp only
        split_ifs <;> rfl

/-- The programs of the tiles of a request and a state. -/
def programs (guard : Bool) : List (List (List (Int × Int))) :=
  (List.range l.temporalTiles).map fun tile =>
    (k.program l states guard batch state tile).effect.copies

theorem programs_eq_of_copy {c : Copy} (h : k.copy batch = some c) (guard : Bool) :
    k.programs l states batch state guard = (states state).tilePrograms l c guard := by
  simp only [programs, program_effect, h, MambaState.tilePrograms]

/-- The programs of a request are those of its copy. -/
theorem programs_congr {k' : Kernel} {batch' : Nat} (h : k.copy batch = k'.copy batch')
    (guard : Bool) : k.programs l states batch state guard =
      k'.programs l states batch' state guard := by
  simp only [programs, program_effect, h]

/-- The programs of a request without a copy. -/
theorem eq_nil_of_copy_eq_none (h : k.copy batch = none) (guard : Bool)
    {p : List (List (Int × Int))} (hp : p ∈ k.programs l states batch state guard) : p = [] := by
  obtain ⟨tile, -, rfl⟩ := List.mem_map.1 hp
  rw [program_effect, h]

variable {k l states batch state}

/-- The moves of a guarded program are in the pool. -/
theorem inPool_of_mem (hfits : (states state).Fits l)
    (hbias : ∀ c, k.copy batch = some c → (states state).BiasInWindow c)
    (hblock : 0 < l.copyBlockSize) {p : List (List (Int × Int))}
    (hp : p ∈ k.programs l states batch state true) {v : List (Int × Int)} (hv : v ∈ p)
    {x : Int × Int} (hx : x ∈ v) :
    (states state).InPool x.1 ∧ (states state).InPool x.2 := by
  have htiles : 0 < l.temporalTiles := by
    obtain ⟨tile, htile, -⟩ := List.mem_map.1 hp
    exact Nat.zero_lt_of_lt (List.mem_range.1 htile)
  cases hcopy : k.copy batch with
  | none =>
    rw [eq_nil_of_copy_eq_none k l states batch state hcopy true hp] at hv
    cases hv
  | some c =>
    rw [programs_eq_of_copy k l states batch state hcopy] at hp
    -- With the ids in range the moves are those of the layout, else there are none.
    by_cases hids : (states state).IdsInRange l c
    · rw [MambaState.tilePrograms_of_inRange hids] at hp
      have hmoves := (MambaState.exists_mem_tilePrograms_iff hblock htiles).1
        ⟨v, List.mem_flatten_of_mem hp hv, hx⟩
      obtain ⟨hload, hstore⟩ := hmoves.mem_block hfits (hbias c hcopy)
      exact ⟨⟨_, hids.2, hload⟩, ⟨_, hids.1, hstore⟩⟩
    · rw [MambaState.eq_nil_of_not_inRange hids hp] at hv
      cases hv

/-- The guard is sound and transparent: the copies of a request and a state, whatever
    the block tables hold, are in the pool of the state; they leave what they leave
    without the guard if the block ids are in range, and change nothing if one is not. -/
theorem copies_sound {V : Type*} (k : Kernel) (l : Launch) (states : Nat → MambaState)
    (batch state : Nat) (hfits : (states state).Fits l)
    (hbias : ∀ c, k.copy batch = some c → (states state).BiasInWindow c)
    (hblock : 0 < l.copyBlockSize) :
    (∀ p ∈ k.programs l states batch state true, ∀ v ∈ p, ∀ x ∈ v,
      (states state).InPool x.1 ∧ (states state).InPool x.2) ∧
    ((∀ c, k.copy batch = some c → (states state).IdsInRange l c) →
      ∀ prog prog', Interleaving (k.programs l states batch state true) prog →
        Interleaving (k.programs l states batch state false) prog' →
        ∀ m : Int → V, runCopies m prog = runCopies m prog') ∧
    ∀ c, k.copy batch = some c → ¬(states state).IdsInRange l c →
      ∀ prog, Interleaving (k.programs l states batch state true) prog →
        ∀ m : Int → V, runCopies m prog = m := by
  refine ⟨fun p hp v hv x hx => inPool_of_mem hfits hbias hblock hp hv hx, ?_, ?_⟩
  · intro hids prog prog' h h' m
    cases hcopy : k.copy batch with
    | none =>
      rw [h.eq_nil fun p => eq_nil_of_copy_eq_none k l states batch state hcopy true,
        h'.eq_nil fun p => eq_nil_of_copy_eq_none k l states batch state hcopy false]
    | some c =>
      rw [programs_eq_of_copy k l states batch state hcopy] at h h'
      rw [MambaState.tilePrograms_of_inRange (hids c hcopy)] at h
      exact MambaState.runCopies_tilePrograms_unique hfits (hbias c hcopy) hblock h h' m
  · intro c hcopy hids prog h m
    rw [programs_eq_of_copy k l states batch state hcopy] at h
    rw [h.eq_nil fun p => MambaState.eq_nil_of_not_inRange hids]
    rfl

/-- One request, whose state is to be copied from column `0` to column `1`. -/
def oneRequest : Kernel := .precopy
  { mambaStateIdx := fun _ => 1
    srcCol := fun _ => 0
    tokenBias := fun _ => 1
    idxMapping := none
    numReqs := 1 }

/-- A block table that has the number of the column in every column. -/
def columnIds : Launch := { MambaState.twoTiles with blockTable := fun _ col => col }

/-- The pool has one block, and so the copy to block `1` is left out. -/
theorem copies_sound_oneRequest :
    runCopies (fun a : Int => a)
      (oneRequest.programs columnIds (fun _ => .threeTokens) 0 0 true).flatten = fun a => a := by
  have hbias : ∀ c, oneRequest.copy 0 = some c → MambaState.threeTokens.BiasInWindow c := by
    rintro _ ⟨⟩ -
    decide
  exact (copies_sound oneRequest columnIds (fun _ => .threeTokens) 0 0
    (show 3 * 2 ≤ 8 by decide) hbias (by decide)).2.2 ⟨0, 0, 1, 1⟩ rfl (by decide) _
      (Interleaving.flatten _) fun a => a

end Kernel

end FlashNext.Mamba
