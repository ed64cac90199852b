import FlashNext.Entries
import FlashNext.Ring
import FlashNext.System
import FlashNext.Qsa.Compress

/-!
# Runs of the compressor

The rings of the requests live across the steps. A step pools the groups that its rows
complete and then stores its rows; between two steps the engine admits requests behind
full groups, releases requests, and takes back tokens that it had only drafted.

A request has its keys, and the positions of these for the rotary embedding, as streams
(`RingEntry`). If the ring has room for the members of an open group beside the drafts that
are taken back, then in every run, whatever the chunks and the other requests are, every
group is pooled from its own members (`pooled_of_occurs`).
-/

namespace FlashNext.Qsa

/-- The caches of the compressor. -/
structure RingConfig where
  ratio : Nat
  stateSize : Nat
  numBlocks : Nat
  headDim : Nat
  rope : Bool

/-- What the engine holds of a request. -/
structure RingEntry (V : Type*) where
  block : Int
  key : Int → Nat → V
  rope : Int → Nat → Int
  /-- The position of the next token. -/
  pos : Int

/-- The rings, and the requests that have one. -/
structure RingRun (V : Type*) where
  keys : RowCell → V
  ropes : RowCell → Int
  entries : Nat → Option (RingEntry V)

/-- What happens. -/
inductive RingLabel (V : Type*)
  /-- A request is admitted, with a number of tokens that fill groups. -/
  | join (id : Nat) (e : RingEntry V)
  /-- The tokens from the next position on are others: drafts are rejected. -/
  | edit (id : Nat) (key : Int → Nat → V) (rope : Int → Nat → Int)
  | release (id : Nat)
  /-- The blocks of no request are written. -/
  | write
  /-- A step, the slots of its rows, the orders of the programs that store them, the place
      of each request, and how many of its tokens are kept. -/
  | batch (c : CompressCall V) (slots : List Int) (order ropeOrder : List Nat)
      (place : Nat → Option Nat) (kept : Nat → Nat)

namespace CompressCall

variable {V : Type*} (c : CompressCall V) (slots : List Int) (r : Nat)

/-- The first row of a request. -/
def start : Nat := (c.queryStartLoc r).toNat

/-- The number of rows of a request. -/
def len : Nat := (c.queryStartLoc (r + 1)).toNat - c.start r

/-- The keys of the rows are stored in the ring. -/
def storeKeys : StoreCall V where
  cuda := c.cuda
  cacheShape := c.stateShape
  rowsShape := c.rawKeysShape
  slotMapping := slots
  rows row dim := c.rawKeys row dim

/-- So are their positions, if there is room for them. -/
def storeRopes : StoreCall Int where
  cuda := c.cuda
  cacheShape := c.ropeShape.getD []
  rowsShape := c.rawPositionsShape
  slotMapping := slots
  rows row dim := c.rawPositions row dim

end CompressCall

namespace RingConfig

variable {V A : Type*} (cfg : RingConfig)

/-- The slot of a row is one of the cache. -/
def Stored (slots : List Int) (row : Nat) : Prop :=
  row < slots.length ∧ 0 ≤ slots.getD row 0 ∧
    slots.getD row 0 < (cfg.numBlocks * cfg.stateSize : Nat)

/-- The stored rows have slots of their own. -/
def OwnSlots (slots : List Int) : Prop :=
  ∀ row row', cfg.Stored slots row → cfg.Stored slots row' →
    slots.getD row 0 = slots.getD row' 0 → row = row'

/-- The first position of an open group before a position. -/
def groupStart (pos : Int) : Int := pos - pos % cfg.ratio

/-- A request of a step is fed: its rows have its keys and positions from the next one on,
    those that are stored go to its ring, and the members of its open group behind the step
    are stored, with room beside the drafts. -/
structure Fed (cfg : RingConfig) (c : CompressCall V) (slots : List Int) (e : RingEntry V)
    (r k : Nat) : Prop where
  req : r < c.numRequests
  start : 0 ≤ c.queryStartLoc r
  stop : c.queryStartLoc r ≤ c.queryStartLoc (r + 1)
  rows : c.start r + c.len r ≤ c.rows
  block : c.stateTable r = e.block
  tokenToReq : ∀ j < c.len r, c.args.tokenToReq (c.start r + j) = r
  positions : ∀ j < c.len r, c.logicalPositions (c.start r + j) = e.pos + j
  key : ∀ j < c.len r, ∀ dim < cfg.headDim,
    c.rawKeys (c.start r + j : Nat) dim = e.key (e.pos + j) dim
  rope : ∀ j < c.len r, ∀ dim < 3, c.rawPositions (c.start r + j : Nat) dim = e.rope (e.pos + j) dim
  groups : ∀ j < c.len r, 0 ≤ c.compressedSlots (c.start r + j) →
    (cfg.ratio : Int) ∣ e.pos + j + 1
  slot : ∀ j < c.len r, cfg.Stored slots (c.start r + j) →
    slots.getD (c.start r + j) 0 = e.block * cfg.stateSize + (e.pos + j) % cfg.stateSize
  kept : k ≤ c.len r
  stored : ∀ j < k, cfg.groupStart (e.pos + k) ≤ e.pos + j → cfg.Stored slots (c.start r + j)
  drafts : cfg.ratio - 1 + (c.len r - k) ≤ cfg.stateSize

/-- The shapes of a step are those of the caches. -/
structure Shaped (cfg : RingConfig) (c : CompressCall V) : Prop where
  ratio : c.compressRatio = cfg.ratio
  state : c.stateShape = [cfg.numBlocks, cfg.stateSize, 1, cfg.headDim]
  rope : c.ropeShape = if cfg.rope then some [cfg.numBlocks, cfg.stateSize, 1, 3] else none

variable (p : Pooling V A)

/-- The steps. -/
def ringStep (s : RingRun V) : RingLabel V → RingRun V → Prop
  | .join id e, s' =>
    (∀ id' e', s.entries id' = some e' → e'.block ≠ e.block) ∧ 0 ≤ e.block ∧
      e.block < cfg.numBlocks ∧ 0 ≤ e.pos ∧ (cfg.ratio : Int) ∣ e.pos ∧
      s' = { s with entries := Function.update s.entries id (some e) }
  | .edit id key rope, s' =>
    ∃ e, s.entries id = some e ∧ (∀ q < e.pos, key q = e.key q ∧ rope q = e.rope q) ∧
      s' = { s with
        entries := Function.update s.entries id (some { e with key := key, rope := rope }) }
  | .release id, s' => s' = { s with entries := Function.update s.entries id none }
  | .write, s' =>
    s'.entries = s.entries ∧ ∀ id e, s.entries id = some e → ∀ token dim,
      s'.keys ⟨e.block, token, dim⟩ = s.keys ⟨e.block, token, dim⟩ ∧
      s'.ropes ⟨e.block, token, dim⟩ = s.ropes ⟨e.block, token, dim⟩
  | .batch c slots order ropeOrder place kept, s' =>
    cfg.Shaped c ∧ (∃ out, qsaCompressGroupsWithRatio p c s.keys s.ropes = .ok out) ∧
      order.Perm (List.range slots.length) ∧ ropeOrder.Perm (List.range slots.length) ∧
      qsaStoreCacheRows (c.storeKeys slots) order s.keys = .ok s'.keys ∧
      (if cfg.rope then qsaStoreCacheRows (c.storeRopes slots) ropeOrder s.ropes = .ok s'.ropes
        else s'.ropes = s.ropes) ∧
      cfg.OwnSlots slots ∧ (∀ row, cfg.Stored slots row →
        ∃ id e r, s.entries id = some e ∧ place id = some r ∧
        c.start r ≤ row ∧ row < c.start r + c.len r) ∧
      (∀ id e r, s.entries id = some e → place id = some r →
        cfg.Fed c slots e r (kept id)) ∧
      s'.entries = fun id => (s.entries id).map fun e =>
        match place id with
        | some _ => { e with pos := e.pos + kept id }
        | none => e

/-- The runs: at the start, there are no requests. -/
def ringSystem : System (RingRun V) (RingLabel V) where
  init s := ∀ id, s.entries id = none
  step := cfg.ringStep p

/-! ## A step -/

variable {cfg} {p} {c : CompressCall V} {slots : List Int} {e : RingEntry V} {r k j : Nat}

/-- An open group has fewer members than a full one. -/
theorem lt_groupStart (hratio : 0 < cfg.ratio) (pos : Int) :
    pos < cfg.groupStart pos + cfg.ratio := by
  have := Int.emod_lt_of_pos pos (by omega : (0 : Int) < cfg.ratio)
  rw [groupStart]
  omega

theorem groupStart_mono (hratio : 0 < cfg.ratio) {pos pos' : Int} (h : pos ≤ pos') :
    cfg.groupStart pos ≤ cfg.groupStart pos' := by
  have hdiv := Int.ediv_le_ediv (by omega : (0 : Int) < cfg.ratio) h
  rw [groupStart, groupStart, Int.emod_def, Int.emod_def, Int.sub_sub_self, Int.sub_sub_self]
  exact Int.mul_le_mul_of_nonneg_left hdiv (by omega)

/-- The members of a full group that are not of this step are of the open group. -/
theorem groupStart_le_of_dvd (hratio : 0 < cfg.ratio) {pos stop q : Int}
    (hdvd : (cfg.ratio : Int) ∣ stop + 1) (hq : stop - cfg.ratio < q) (hpos : q < pos)
    (hstop : pos ≤ stop) : cfg.groupStart pos ≤ q := by
  obtain ⟨g, hg⟩ := hdvd
  have hgroup : pos / cfg.ratio = g - 1 := by
    rw [Int.ediv_eq_iff_of_pos (by omega), sub_mul, one_mul, mul_comm g, ← hg]
    omega
  rw [groupStart, Int.emod_def, Int.sub_sub_self, hgroup, mul_sub, mul_one, ← hg]
  omega

/-- The slot of a row that is stored is the place of its position in the ring. -/
theorem Fed.slot_eq (h : cfg.Fed c slots e r k) (hsize : 0 < cfg.stateSize) (hj : j < c.len r)
    (hstored : cfg.Stored slots (c.start r + j)) :
    slots.getD (c.start r + j) 0 / cfg.stateSize = e.block ∧
      slots.getD (c.start r + j) 0 % cfg.stateSize = (e.pos + j) % cfg.stateSize := by
  have hpos : (0 : Int) < cfg.stateSize := by omega
  have hlow := Int.emod_nonneg (e.pos + j) hpos.ne'
  have hhigh := Int.emod_lt_of_pos (e.pos + j) hpos
  rw [Int.ediv_emod_unique hpos, h.slot j hj hstored]
  exact ⟨by rw [mul_comm, add_comm], hlow, hhigh⟩

section Fed

variable (h : cfg.Fed c slots e r k) (hj : j < c.len r)
include h hj

theorem Fed.request_eq :
    c.args.validRequest (c.start r + j) = true ∧ c.args.safeRequest (c.start r + j) = r := by
  have hreq := h.req
  have hr : c.args.tokenToReq (c.start r + j) = r := h.tokenToReq j hj
  have hn : c.args.numRequests = c.numRequests := rfl
  rw [CompressArgs.validRequest, CompressArgs.safeRequest, hr, hn]
  refine ⟨?_, ?_⟩
  · simp [hreq]
  · omega

theorem Fed.queryRowStart_eq : c.args.queryRowStart (c.start r + j) = c.start r := by
  obtain ⟨hvalid, hsafe⟩ := h.request_eq hj
  rw [CompressArgs.queryRowStart, if_pos hvalid, hsafe, CompressCall.start,
    Int.toNat_of_nonneg h.start]
  rfl

theorem Fed.queryRowEnd_eq : c.args.queryRowEnd (c.start r + j) = c.start r + c.len r := by
  obtain ⟨hvalid, hsafe⟩ := h.request_eq hj
  have hstart := h.start
  have hstop := h.stop
  have hloc : c.args.queryStartLoc = c.queryStartLoc := rfl
  rw [CompressArgs.queryRowEnd, if_pos hvalid, hsafe, hloc, CompressCall.len, CompressCall.start]
  omega

theorem Fed.endPosition_eq : c.args.endPosition (c.start r + j) = e.pos + j := h.positions j hj

theorem Fed.chunkStartPosition_eq : c.args.chunkStartPosition (c.start r + j) = e.pos := by
  rw [CompressArgs.chunkStartPosition, h.endPosition_eq hj, h.queryRowStart_eq hj]
  omega

theorem Fed.stateBlock_eq : c.args.stateBlock (c.start r + j) = e.block := by
  obtain ⟨hvalid, hsafe⟩ := h.request_eq hj
  rw [CompressArgs.stateBlock, if_pos hvalid, hsafe]
  exact h.block

/-- A row completes a group if it has a slot for it. -/
theorem Fed.validRow_iff (hshape : cfg.Shaped c) (hpos : 0 ≤ e.pos) :
    c.args.validRow (c.start r + j) = true ↔ 0 ≤ c.compressedSlots (c.start r + j) := by
  have hrows := h.rows
  have hslots : c.args.compressedSlots = c.compressedSlots := rfl
  have hratio' : (c.args.compressRatio : Int) = cfg.ratio := by
    rw [CompressCall.args, hshape.ratio, Int.toNat_natCast]
  have hn : c.args.numRows = c.rows := rfl
  simp only [CompressArgs.validRow, (h.request_eq hj).1, h.queryRowStart_eq hj,
    h.queryRowEnd_eq hj, h.endPosition_eq hj, hslots, hratio', hn, Bool.and_eq_true,
    decide_eq_true_eq]
  refine ⟨fun hvalid => hvalid.2, fun hslot => ⟨⟨⟨⟨⟨?_, trivial⟩, ?_⟩, ?_⟩, ?_⟩, hslot⟩⟩
  · omega
  · omega
  · omega
  · have := Int.le_of_dvd (by omega) (h.groups j hj hslot)
    omega

/-- What is loaded for a member of a group of a row: the value of its position, from the rows
    of the step or from the ring. -/
theorem Fed.loaded_eq {W : Type*} {zero : W} {raw : Int → Nat → W} {m : RowCell → W}
    {x : Int → W} {dim : Nat} (hshape : cfg.Shaped c) (hratio : 0 < cfg.ratio)
    (hblock : 0 ≤ e.block ∧ e.block < cfg.numBlocks)
    (hraw : ∀ i < c.len r, raw (c.start r + i : Nat) dim = x (e.pos + i))
    (hring : InRing cfg.stateSize (fun i => m ⟨e.block, i, dim⟩) x (cfg.groupStart e.pos) e.pos)
    (hvalid : c.args.validRow (c.start r + j) = true)
    (hdvd : (cfg.ratio : Int) ∣ e.pos + j + 1) {q : Int} (hq : 0 ≤ q)
    (hlow : e.pos + j - cfg.ratio < q) (hhigh : q ≤ e.pos + j) :
    c.args.loaded (c.start r + j) zero raw m q dim = x q := by
  have hrows := h.rows
  have hn : c.args.numRows = c.rows := rfl
  rw [CompressArgs.loaded]
  by_cases hold : e.pos ≤ q
  · have hraw' := hraw (q - e.pos).toNat (by omega)
    have huse : c.args.useRaw (c.start r + j) q = true := by
      rw [CompressArgs.useRaw, h.chunkStartPosition_eq hj]
      exact decide_eq_true hold
    have hrow : c.args.rawRow (c.start r + j) q = (c.start r + (q - e.pos).toNat : Nat) := by
      rw [CompressArgs.rawRow, h.queryRowStart_eq hj, h.chunkStartPosition_eq hj]
      omega
    have hmask : c.args.rawMask (c.start r + j) q = true := by
      simp only [CompressArgs.rawMask, hvalid, huse, hrow, h.queryRowStart_eq hj,
        h.queryRowEnd_eq hj, hn, Bool.and_eq_true, decide_eq_true_eq]
      refine ⟨⟨⟨⟨trivial, trivial⟩, ?_⟩, ?_⟩, ?_⟩ <;> omega
    rw [if_pos huse, if_pos hmask, hrow, hraw']
    congr 1
    omega
  · have huse : c.args.useRaw (c.start r + j) q = false := by
      rw [CompressArgs.useRaw, h.chunkStartPosition_eq hj]
      exact decide_eq_false hold
    have hstate : c.args.validStateBlock (c.start r + j) = true := by
      have hblocks : c.args.numStateBlocks = cfg.numBlocks := by
        rw [CompressCall.args, hshape.state]
        rfl
      rw [CompressArgs.validStateBlock, h.stateBlock_eq hj, hblocks]
      simpa using hblock
    have hmask : c.args.stateMask (c.start r + j) q = true := by
      simp [CompressArgs.stateMask, hvalid, huse, hstate]
    have hsize : c.args.stateSize = cfg.stateSize := by
      rw [CompressCall.args, hshape.state]
      rfl
    rw [huse, if_neg Bool.false_ne_true, if_pos hmask, CompressArgs.stateCell,
      h.stateBlock_eq hj, max_eq_left hblock.1, hsize, Int.tmod_eq_emod_of_nonneg hq]
    exact hring q (groupStart_le_of_dvd hratio hdvd hlow (not_le.1 hold) (by omega)) (not_le.1 hold)

end Fed

/-! ## Stores -/

/-- The rows that are stored are in their slots, and the rest is as it was. -/
structure Written {W : Type*} (cfg : RingConfig) (slots : List Int) (width : Nat)
    (rows : Nat → Nat → W) (m m' : RowCell → W) : Prop where
  stored : ∀ row, cfg.Stored slots row → ∀ dim < width,
    m' ⟨slots.getD row 0 / cfg.stateSize, slots.getD row 0 % cfg.stateSize, dim⟩ = rows row dim
  rest : ∀ block token dim, (∀ row, cfg.Stored slots row →
    slots.getD row 0 / cfg.stateSize = block → slots.getD row 0 % cfg.stateSize ≠ token) →
    m' ⟨block, token, dim⟩ = m ⟨block, token, dim⟩

/-- A call that returns has stored its rows. -/
theorem written_of_ok {W : Type*} {c : StoreCall W} {order : List Nat} {m m' : RowCell → W}
    {width : Nat} (h : qsaStoreCacheRows c order m = .ok m')
    (hshape : c.cacheShape = [cfg.numBlocks, cfg.stateSize, 1, width])
    (horder : order.Perm (List.range c.slotMapping.length)) (hown : cfg.OwnSlots c.slotMapping) :
    cfg.Written c.slotMapping width c.rows m m' := by
  obtain ⟨-, rfl⟩ := qsaStoreCacheRows_eq_ok h horder
  have hblocks : c.args.numBlocks = cfg.numBlocks := by rw [StoreCall.args, hshape]; rfl
  have hsize : c.args.pageSize = cfg.stateSize := by rw [StoreCall.args, hshape]; rfl
  have hwidth : c.args.width = width := by rw [StoreCall.args, hshape]; rfl
  have hvalid : ∀ row, c.args.Valid row ↔ cfg.Stored c.slotMapping row := fun row => by
    rw [StoreArgs.Valid, hblocks, hsize]
    rfl
  have hcell : ∀ {row}, cfg.Stored c.slotMapping row → ∀ dim, c.args.cell row dim =
      ⟨c.slotMapping.getD row 0 / cfg.stateSize, c.slotMapping.getD row 0 % cfg.stateSize,
        dim⟩ := by
    intro row hrow dim
    have hslot : c.args.slots row = c.slotMapping.getD row 0 := rfl
    rw [StoreArgs.cell, hsize, hslot, max_eq_left hrow.2.1]
  obtain ⟨hstored, hrest⟩ := StoreArgs.store_spec (a := c.args)
    (fun row row' hrow hrow' => hown row row' ((hvalid row).1 hrow) ((hvalid row').1 hrow'))
    horder m
  refine ⟨fun row hrow dim hdim => ?_, fun block token dim hne => hrest _ ?_⟩
  · rw [← hcell hrow, hstored row ((hvalid row).2 hrow) dim (hwidth ▸ hdim)]
    rfl
  · intro row hrow dim' _ heq
    rw [hvalid] at hrow
    rw [hcell hrow] at heq
    exact hne row hrow (congrArg RowCell.block heq).symm (congrArg RowCell.token heq).symm

/-- The ring of a request holds the members of its open group behind a step, from what it
    holds of them before and from the rows of the step. -/
theorem Fed.ring_write (h : cfg.Fed c slots e r k) (hratio : 0 < cfg.ratio)
    (hsize : 0 < cfg.stateSize) {W : Type*} {rows : Nat → Nat → W} {m m' : RowCell → W}
    {x : Int → W} {width dim : Nat} (hwritten : cfg.Written slots width rows m m')
    (hdim : dim < width) (hrows : ∀ j < c.len r, rows (c.start r + j) dim = x (e.pos + j))
    (hown : ∀ row, cfg.Stored slots row → slots.getD row 0 / cfg.stateSize = e.block →
      c.start r ≤ row ∧ row < c.start r + c.len r)
    (hring : InRing cfg.stateSize (fun i => m ⟨e.block, i, dim⟩) x (cfg.groupStart e.pos) e.pos) :
    InRing cfg.stateSize (fun i => m' ⟨e.block, i, dim⟩) x (cfg.groupStart (e.pos + k))
      (e.pos + k) := by
  have hkept := h.kept
  have hdrafts := h.drafts
  have hopen := cfg.lt_groupStart hratio (e.pos + k)
  have hall : ∀ q, e.pos ≤ q → cfg.groupStart (e.pos + k) ≤ q → q < e.pos + k →
      ∃ j < c.len r, cfg.Stored slots (c.start r + j) ∧ q = e.pos + j := fun q hpos hq hlt =>
    ⟨(q - e.pos).toNat, by omega, h.stored _ (by omega) (by omega), by omega⟩
  refine hring.write ?_ (?_ : e.pos + c.len r ≤ _) (groupStart_mono hratio (by omega)) hall ?_ ?_
  · rintro q ⟨j, hj, -, rfl⟩
    omega
  · omega
  · rintro q ⟨j, hj, hstored, rfl⟩
    obtain ⟨hblock, htoken⟩ := h.slot_eq hsize hj hstored
    rw [← hrows j hj, ← hwritten.stored _ hstored dim hdim, hblock, htoken]
  · intro i hi
    refine hwritten.rest _ _ _ fun row hrow hblock htoken => ?_
    obtain ⟨hlow, hhigh⟩ := hown row hrow hblock
    obtain ⟨j, rfl⟩ := Nat.exists_eq_add_of_le hlow
    have hj : j < c.len r := by omega
    exact hi _ ⟨j, hj, hrow, rfl⟩ ((h.slot_eq hsize hj hrow).2.symm.trans htoken)

/-- A step that returns has rings with room for a group. -/
theorem Shaped.sizes (h : cfg.Shaped c) {keys : RowCell → V} {ropes : RowCell → Int}
    {out : Pooled V} (hok : qsaCompressGroupsWithRatio p c keys ropes = .ok out) :
    0 < cfg.ratio ∧ 0 < cfg.stateSize := by
  obtain ⟨hratio, hsize, -⟩ := qsaCompressGroupsWithRatio_eq_ok hok
  rw [h.ratio] at hratio hsize
  rw [h.state] at hsize
  change (cfg.ratio : Int) ≤ cfg.stateSize at hsize
  omega

/-! ## The invariant -/

/-- The ring of a request holds the members of its open group. -/
structure Keeps (cfg : RingConfig) (keys : RowCell → V) (ropes : RowCell → Int)
    (e : RingEntry V) : Prop where
  block : 0 ≤ e.block ∧ e.block < cfg.numBlocks
  pos : 0 ≤ e.pos
  key : ∀ dim < cfg.headDim, InRing cfg.stateSize (fun i => keys ⟨e.block, i, dim⟩)
    (fun q => e.key q dim) (cfg.groupStart e.pos) e.pos
  rope : cfg.rope = true → ∀ dim < 3, InRing cfg.stateSize (fun i => ropes ⟨e.block, i, dim⟩)
    (fun q => e.rope q dim) (cfg.groupStart e.pos) e.pos

/-- The requests have rings of their own, and these are kept. -/
def Invariant (cfg : RingConfig) (s : RingRun V) : Prop :=
  Kept RingEntry.block (cfg.Keeps s.keys s.ropes) s.entries

variable {s s' : RingRun V} {keys keys' : RowCell → V} {ropes ropes' : RowCell → Int}

/-- A ring that is left keeps what it has. -/
theorem Keeps.congr (h : cfg.Keeps keys ropes e) (hm : ∀ token dim,
    keys' ⟨e.block, token, dim⟩ = keys ⟨e.block, token, dim⟩ ∧
      ropes' ⟨e.block, token, dim⟩ = ropes ⟨e.block, token, dim⟩)
    {key : Int → Nat → V} {rope : Int → Nat → Int}
    (hx : ∀ q < e.pos, key q = e.key q ∧ rope q = e.rope q) :
    cfg.Keeps keys' ropes' { e with key := key, rope := rope } where
  block := h.block
  pos := h.pos
  key dim hdim := (h.key dim hdim).congr (fun _ => (hm _ _).1) fun q hq =>
    congrFun (hx q hq).1 dim
  rope hrope dim hdim := (h.rope hrope dim hdim).congr (fun _ => (hm _ _).2) fun q hq =>
    congrFun (hx q hq).2 dim

/-- A request behind a full group needs nothing of its ring. -/
theorem keeps_of_dvd (hblock : 0 ≤ e.block ∧ e.block < cfg.numBlocks) (hpos : 0 ≤ e.pos)
    (hdvd : (cfg.ratio : Int) ∣ e.pos) : cfg.Keeps keys ropes e := by
  have hstart : cfg.groupStart e.pos = e.pos := by
    rw [groupStart, Int.emod_eq_zero_of_dvd hdvd, sub_zero]
  refine ⟨hblock, hpos, fun dim _ q hq hlt => ?_, fun _ dim _ q hq hlt => ?_⟩ <;>
    exact absurd (hstart ▸ hq) (not_le.2 hlt)

/-- The rows that a step stores in the ring of a request are its own. -/
theorem Invariant.own (h : cfg.Invariant s) (hsize : 0 < cfg.stateSize)
    {place : Nat → Option Nat} {kept : Nat → Nat}
    (hrows : ∀ row, cfg.Stored slots row → ∃ id e r, s.entries id = some e ∧ place id = some r ∧
      c.start r ≤ row ∧ row < c.start r + c.len r)
    (hfed : ∀ id e r, s.entries id = some e → place id = some r → cfg.Fed c slots e r (kept id))
    {id : Nat} (he : s.entries id = some e) (row : Nat) (hrow : cfg.Stored slots row)
    (hblock : slots.getD row 0 / cfg.stateSize = e.block) :
    ∃ r, place id = some r ∧ c.start r ≤ row ∧ row < c.start r + c.len r := by
  obtain ⟨id', e', r, he', hplace, hlow, hhigh⟩ := hrows row hrow
  obtain ⟨j, rfl⟩ := Nat.exists_eq_add_of_le hlow
  have hblock' := ((hfed id' e' r he' hplace).slot_eq hsize (by omega) hrow).1
  obtain rfl := h.apart id id' e e' he he' (hblock.symm.trans hblock')
  exact ⟨r, hplace, hlow, hhigh⟩

/-- A step leaves the ring of a request that is not in it. -/
theorem Keeps.idle (h : cfg.Keeps keys ropes e) {width ropeWidth : Nat}
    {rows : Nat → Nat → V} {ropeRows : Nat → Nat → Int}
    (hkeys : cfg.Written slots width rows keys keys')
    (hropes : cfg.rope = true → cfg.Written slots ropeWidth ropeRows ropes ropes')
    (hnone : ∀ row, cfg.Stored slots row → slots.getD row 0 / cfg.stateSize ≠ e.block) :
    cfg.Keeps keys' ropes' e where
  block := h.block
  pos := h.pos
  key dim hdim := (h.key dim hdim).congr (fun _ => hkeys.rest _ _ _ fun row hrow hblock =>
    absurd hblock (hnone row hrow)) fun _ _ => rfl
  rope hrope dim hdim := (h.rope hrope dim hdim).congr (fun _ => (hropes hrope).rest _ _ _
    fun row hrow hblock => absurd hblock (hnone row hrow)) fun _ _ => rfl

/-- The ring of a request behind a step. -/
theorem Keeps.next (h : cfg.Keeps keys ropes e) (hfed : cfg.Fed c slots e r k)
    (hratio : 0 < cfg.ratio) (hsize : 0 < cfg.stateSize)
    (hkeys : cfg.Written slots cfg.headDim (c.storeKeys slots).rows keys keys')
    (hropes : cfg.rope = true → cfg.Written slots 3 (c.storeRopes slots).rows ropes ropes')
    (hown : ∀ row, cfg.Stored slots row → slots.getD row 0 / cfg.stateSize = e.block →
      c.start r ≤ row ∧ row < c.start r + c.len r) :
    cfg.Keeps keys' ropes' { e with pos := e.pos + k } where
  block := h.block
  pos := Int.add_nonneg h.pos (Int.natCast_nonneg k)
  key dim hdim := hfed.ring_write hratio hsize hkeys hdim
    (fun j hj => hfed.key j hj dim hdim) hown (h.key dim hdim)
  rope hrope dim hdim := hfed.ring_write hratio hsize (hropes hrope) hdim
    (fun j hj => hfed.rope j hj dim hdim) hown (h.rope hrope dim hdim)

/-- Every step keeps the rings of the requests. -/
theorem Invariant.step (h : cfg.Invariant s) {l : RingLabel V} (hstep : cfg.ringStep p s l s') :
    cfg.Invariant s' := by
  cases l with
  | join id e =>
    obtain ⟨hfree, hlow, hhigh, hpos, hdvd, rfl⟩ := hstep
    exact Kept.update h (keeps_of_dvd ⟨hlow, hhigh⟩ hpos hdvd) fun id' e' _ he' => hfree id' e' he'
  | edit id key rope =>
    obtain ⟨e, he, hx, rfl⟩ := hstep
    refine Kept.update h ((h.keeps id e he).congr (fun _ _ => ⟨rfl, rfl⟩) hx) ?_
    exact fun id' e' hne he' hblock => hne (h.apart id' id e' e he' he hblock)
  | release id =>
    obtain rfl := hstep
    exact Kept.erase h id
  | write =>
    obtain ⟨hentries, hm⟩ := hstep
    rw [Invariant, hentries]
    exact Kept.imp h fun id e he hkeeps => hkeeps.congr (hm id e he) fun _ _ => ⟨rfl, rfl⟩
  | batch c slots order ropeOrder place kept =>
    obtain ⟨hshape, ⟨out, hok⟩, horder, hropeOrder, hkeys, hropes, hown, hrows, hfed, hentries⟩ :=
      hstep
    obtain ⟨hratio, hsize⟩ := hshape.sizes hok
    have hkeys := written_of_ok hkeys hshape.state horder hown
    have hropes : cfg.rope = true →
        cfg.Written slots 3 (c.storeRopes slots).rows s.ropes s'.ropes :=
      fun hrope => by
        have hcache : (c.storeRopes slots).cacheShape = [cfg.numBlocks, cfg.stateSize, 1, 3] := by
          rw [CompressCall.storeRopes, hshape.rope, if_pos hrope]
          rfl
        rw [if_pos hrope] at hropes
        exact written_of_ok hropes hcache hropeOrder hown
    rw [Invariant, hentries]
    refine Kept.map h (fun id e => ?_) fun id e he hkeeps => ?_
    · cases place id <;> rfl
    · have hmine := h.own hsize hrows hfed he
      cases hplace : place id with
      | none =>
        refine hkeeps.idle hkeys hropes fun row hrow hblock => ?_
        obtain ⟨r, hr, -⟩ := hmine row hrow hblock
        rw [hplace] at hr
        cases hr
      | some r =>
        refine hkeeps.next (hfed id e r he hplace) hratio hsize hkeys hropes
          fun row hrow hblock => ?_
        obtain ⟨r', hr', hin⟩ := hmine row hrow hblock
        obtain rfl := Option.some.inj (hplace.symm.trans hr')
        exact hin

/-- In every reachable state, the rings of the requests are kept. -/
theorem invariant_of_reachable (hs : (cfg.ringSystem p).Reachable s) : cfg.Invariant s :=
  hs.invariant (fun _ hinit => .of_none hinit) fun _ _ _ h hstep => h.step hstep

/-- Whatever has happened before, a row that completes a group pools the keys of its members,
    and has the position of the first of them; the other rows of a request pool nothing. -/
theorem pooled_of_occurs {order ropeOrder : List Nat} {place : Nat → Option Nat} {kept : Nat → Nat}
    (h : (cfg.ringSystem p).Occurs s (.batch c slots order ropeOrder place kept) s') {q : Nat}
    (he : s.entries q = some e) (hplace : place q = some r) (hj : j < c.len r) :
    ∃ out, qsaCompressGroupsWithRatio p c s.keys s.ropes = .ok out ∧
      (0 ≤ c.compressedSlots (c.start r + j) →
        (∀ dim < cfg.headDim, out.pooled (c.start r + j) dim =
          p.pool cfg.ratio fun g => e.key (e.pos + j - (cfg.ratio - 1 - g : Nat)) dim) ∧
        ∀ dim < 3, out.firstPositions (c.start r + j) dim =
          if cfg.rope then e.rope (e.pos + j - (cfg.ratio - 1 : Nat)) dim
          else e.pos + j - (cfg.ratio - 1 : Nat)) ∧
      (c.compressedSlots (c.start r + j) < 0 →
        (∀ dim, out.pooled (c.start r + j) dim = p.pool cfg.ratio fun _ => p.zero) ∧
        ∀ dim, out.firstPositions (c.start r + j) dim = 0) := by
  obtain ⟨hreach, hshape, ⟨out, hok⟩, -, -, -, -, -, -, hfed, -⟩ := h
  have hkeeps := (invariant_of_reachable hreach).keeps q e he
  have hfed := hfed q e r he hplace
  obtain ⟨hratio, -⟩ := hshape.sizes hok
  have hvalid := hfed.validRow_iff hj hshape hkeeps.pos
  have hargs : c.args.compressRatio = cfg.ratio := by
    rw [CompressCall.args, hshape.ratio, Int.toNat_natCast]
  have hrope : c.args.loadRopePositions = cfg.rope := by
    rw [CompressCall.args, hshape.rope]
    cases cfg.rope <;> rfl
  obtain ⟨-, -, rfl⟩ := qsaCompressGroupsWithRatio_eq_ok hok
  refine ⟨_, hok, fun hslot => ?_, fun hslot => ?_⟩
  · have hdvd := hfed.groups j hj hslot
    have hfull := Int.le_of_dvd (by have := hkeeps.pos; omega) hdvd
    refine ⟨fun dim hdim => ?_, fun dim hdim => ?_⟩
    · dsimp only
      rw [CompressArgs.pooled, hargs]
      refine p.pool_congr fun g hg => ?_
      have hposition : c.args.position (c.start r + j) g =
          e.pos + j - (cfg.ratio - 1 - g : Nat) := by
        rw [CompressArgs.position, hfed.endPosition_eq hj, hargs]
        omega
      rw [hposition]
      exact hfed.loaded_eq hj hshape hratio hkeeps.block (fun i hi => hfed.key i hi dim hdim)
        (hkeeps.key dim hdim) (hvalid.2 hslot) hdvd (by omega) (by omega) (by omega)
    · have hfirst : c.args.firstPosition (c.start r + j) = e.pos + j - (cfg.ratio - 1 : Nat) := by
        rw [CompressArgs.firstPosition, hfed.endPosition_eq hj, hargs]
        omega
      dsimp only
      rw [CompressArgs.positionValues, hrope, hfirst, if_pos (hvalid.2 hslot)]
      split_ifs with hload
      · exact hfed.loaded_eq hj hshape hratio hkeeps.block (fun i hi => hfed.rope i hi dim hdim)
          (hkeeps.rope hload dim hdim) (hvalid.2 hslot) hdvd (by omega) (by omega) (by omega)
      · rfl
  · have hnot : c.args.validRow (c.start r + j) = false :=
      Bool.eq_false_iff.2 fun hrow => absurd (hvalid.1 hrow) (by omega)
    refine ⟨fun dim => ?_, fun dim => ?_⟩
    · dsimp only
      rw [CompressArgs.pooled, hargs]
      exact p.pool_congr fun g _ => CompressArgs.loaded_of_not_valid hnot
    · dsimp only
      rw [CompressArgs.positionValues, CompressArgs.loaded_of_not_valid hnot, hnot]
      simp

end RingConfig

/-- Groups of two keys, in a ring of two. -/
def pairs : RingConfig := ⟨2, 2, 1, 1, false⟩

/-- Groups are summed up. -/
def sums : Pooling Nat Nat where
  zero := 0
  float := id
  start := 0
  add := (· + ·)
  mean _ := id

/-- A request whose keys are `1`, `2` and so on. -/
def countingKeys (pos : Int) : RingEntry Nat := ⟨0, fun q _ => (q + 1).toNat, fun q _ => q, pos⟩

/-- A step with the token of that request at a position. -/
def oneKey (pos : Nat) : CompressCall Nat where
  cuda := true
  rawKeysShape := [1, 1, 1]
  rawPositionsShape := [1, 1, 3]
  stateShape := [1, 2, 1, 1]
  tableShape := [1, 1]
  queryStartShape := [2]
  positionsShape := [1]
  slotsShape := [1]
  ropeShape := none
  keysDtype := .bfloat16
  positionsDtype := .int64
  stateDtype := .bfloat16
  ropeDtype := .int64
  compressRatio := 2
  rawKeys _ _ := pos + 1
  rawPositions _ _ := pos
  tokenToReq := [0]
  queryStartLoc r := r
  logicalPositions _ := pos
  compressedSlots _ := if pos % 2 = 1 then 0 else -1
  stateTable _ := 0

/-- The step of that token. -/
def oneKeyLabel (pos : Nat) : RingLabel Nat :=
  .batch (oneKey pos) [(pos : Int) % 2] [0] [0] (fun id => if id = 0 then some 0 else none)
    fun _ => 1

/-- The rings before the step. -/
def beforeKey (keys : RowCell → Nat) (pos : Nat) : RingRun Nat :=
  ⟨keys, fun _ => 0, Function.update (fun _ => none) 0 (some (countingKeys pos))⟩

theorem fed_oneKey (pos : Nat) :
    pairs.Fed (oneKey pos) [(pos : Int) % 2] (countingKeys pos) 0 1 where
  req := Nat.one_pos
  start := le_rfl
  stop := Int.zero_le_ofNat 1
  rows := le_rfl
  block := rfl
  tokenToReq j hj := by
    obtain rfl : j = 0 := Nat.lt_one_iff.1 hj
    rfl
  positions j hj := by
    obtain rfl : j = 0 := Nat.lt_one_iff.1 hj
    exact (Int.add_zero _).symm
  key j hj _ _ := by
    obtain rfl : j = 0 := Nat.lt_one_iff.1 hj
    simp only [oneKey, countingKeys]
    omega
  rope j hj _ _ := by
    obtain rfl : j = 0 := Nat.lt_one_iff.1 hj
    exact (Int.add_zero _).symm
  groups j hj hslot := by
    obtain rfl : j = 0 := Nat.lt_one_iff.1 hj
    simp only [oneKey] at hslot
    split_ifs at hslot with hodd
    · simp only [pairs, countingKeys]
      omega
    · omega
  slot j hj _ := by
    obtain rfl : j = 0 := Nat.lt_one_iff.1 hj
    simp [pairs, countingKeys, CompressCall.start, oneKey]
  kept := le_rfl
  stored j hj _ := by
    obtain rfl : j = 0 := Nat.lt_one_iff.1 hj
    have hlow := Int.emod_nonneg (pos : Int) (by decide : (2 : Int) ≠ 0)
    have hhigh := Int.emod_lt_of_pos (pos : Int) (by decide : (0 : Int) < 2)
    exact ⟨Nat.one_pos, hlow, hhigh⟩
  drafts := Nat.le_succ 1

theorem step_oneKey {pos : Nat} {keys keys' : RowCell → Nat}
    (h : qsaStoreCacheRows ((oneKey pos).storeKeys [(pos : Int) % 2]) [0] keys = .ok keys') :
    (pairs.ringSystem sums).step (beforeKey keys pos) (oneKeyLabel pos)
      (beforeKey keys' (pos + 1)) := by
  refine ⟨⟨rfl, rfl, rfl⟩, ⟨_, rfl⟩, .refl _, .refl _, h, rfl, fun row row' hrow hrow' _ => ?_,
    fun row hrow => ?_, fun id e r he hplace => ?_, ?_⟩
  · have := hrow.1
    have := hrow'.1
    simp only [List.length_singleton] at *
    omega
  · obtain rfl : row = 0 := Nat.lt_one_iff.1 hrow.1
    exact ⟨0, countingKeys pos, 0, rfl, rfl, le_rfl, Nat.one_pos⟩
  · dsimp only at hplace
    split_ifs at hplace with hid
    subst hid
    obtain rfl := Option.some.inj hplace
    obtain rfl : countingKeys pos = e := Option.some.inj he
    exact fed_oneKey pos
  · funext id
    by_cases hid : id = 0
    · subst hid
      rfl
    · simp [beforeKey, hid]

namespace RingConfig

/-- The second token completes a group, with the first key in the ring. -/
theorem pooled_of_occurs_secondKey :
    ∃ keys, qsaStoreCacheRows ((oneKey 0).storeKeys [0]) [0] (fun _ => 0) = .ok keys ∧
      ∃ out, qsaCompressGroupsWithRatio sums (oneKey 1) keys (fun _ => 0) = .ok out ∧
        out.pooled 0 0 = 1 + 2 := by
  obtain ⟨keys, hkeys⟩ : ∃ keys,
      qsaStoreCacheRows ((oneKey 0).storeKeys [0]) [0] (fun _ => 0) = .ok keys := ⟨_, rfl⟩
  obtain ⟨keys', hkeys'⟩ : ∃ keys',
      qsaStoreCacheRows ((oneKey 1).storeKeys [1]) [0] keys = .ok keys' := ⟨_, rfl⟩
  have hstart : (pairs.ringSystem sums).Reachable ⟨fun _ => 0, fun _ => 0, fun _ => none⟩ :=
    .init fun _ => rfl
  have hjoin : (pairs.ringSystem sums).Reachable (beforeKey (fun _ => 0) 0) :=
    hstart.step (a := .join 0 (countingKeys 0))
      ⟨fun _ _ h => (by cases h), by decide, by decide, by decide, by decide, rfl⟩
  have hoccurs : (pairs.ringSystem sums).Occurs (beforeKey keys 1) (oneKeyLabel 1)
      (beforeKey keys' 2) := ⟨hjoin.step (step_oneKey hkeys), step_oneKey hkeys'⟩
  obtain ⟨out, hok, hgroup, -⟩ := pooled_of_occurs hoccurs (q := 0) (e := countingKeys 1) (r := 0)
    (j := 0) rfl rfl Nat.one_pos
  exact ⟨keys, hkeys, out, hok, (hgroup le_rfl).1 0 Nat.one_pos⟩

end RingConfig

end FlashNext.Qsa
