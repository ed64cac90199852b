import Mathlib.Tactic.NormNum.Prime
import FlashNext.NthAfter
import FlashNext.ProbablePrime

/-!
# The sizes of the heads

`_is_prime_64`, `_nth_prime_after` and `_make_vocab_layout` of `ple_layer.py`: every
head of every layer has a table with a prime number of rows of its own, and the
tables of a layer stand one after the other.

* `isPrime64_of_prime`: the test rejects no prime, so that the search for the next
  one ends (`searchPrime`);
* `nthPrimeAfter_eq`: up to a bound below which the test accepts primes only, the
  `count`-th prime after the start is found;
* `running_makeVocabLayout`: the offsets are the running sums of the sizes;
* `sizes_are_primes`: the sizes of all layers are distinct primes.
-/

namespace FlashNext.Ple

/-! ## The test -/

/-- The primes of the trial division. -/
def trialPrimes : List Nat := [2, 3, 5, 7, 11, 13, 17, 19, 23, 29, 31, 37]

/-- The bases of the strong test. -/
def strongBases : List Nat := [2, 325, 9375, 28178, 450775, 9780504, 1795265022]

/-- `while exponent % 2 == 0: exponent //= 2; shifts += 1`, for a positive exponent. -/
def halve (exponent shifts : Nat) : Nat × Nat :=
  if 0 < exponent ∧ exponent % 2 = 0 then halve (exponent / 2) (shifts + 1) else (exponent, shifts)
termination_by exponent

/-- The squares of a witness, until one of them is `value - 1`: there are `rounds`. -/
def squares (value : Nat) : (rounds : Nat) → (witness : Nat) → Bool
  | 0, _ => false
  | rounds + 1, witness =>
    let witness := witness ^ 2 % value
    if witness = value - 1 then true else squares value rounds witness

/-- The strong test of one base. -/
def passes (value exponent shifts base : Nat) : Bool :=
  if base % value = 0 then true
  else
    let witness := base ^ exponent % value
    if witness = 1 ∨ witness = value - 1 then true else squares value (shifts - 1) witness

/-- `_is_prime_64`. -/
def isPrime64 (value : Int) : Bool :=
  if value < 2 then false
  else
    let value := value.toNat
    match trialPrimes.find? fun prime => value % prime = 0 with
    | some prime => value = prime
    | none =>
      let (exponent, shifts) := halve (value - 1) 0
      strongBases.all (passes value exponent shifts)

/-- Halving takes powers of two out. -/
theorem halve_spec (exponent shifts : Nat) : ∃ s, (halve exponent shifts).2 = shifts + s ∧
    (halve exponent shifts).1 * 2 ^ s = exponent := by
  fun_induction halve exponent shifts with
  | case1 exponent shifts h ih =>
    obtain ⟨s, hs, heq⟩ := ih
    refine ⟨s + 1, by omega, ?_⟩
    rw [Nat.pow_succ, ← Nat.mul_assoc, heq]
    omega
  | case2 exponent shifts h => exact ⟨0, rfl, Nat.mul_one _⟩

/-- The squares of a witness have a `-1` among them if its powers have. -/
theorem squares_of_pow {value witness rounds i : Nat} (hv : 1 < value) (hi : i < rounds)
    (h : (witness : ZMod value) ^ 2 ^ (i + 1) = -1) : squares value rounds witness = true := by
  induction rounds generalizing witness i with
  | zero => exact absurd hi (Nat.not_lt_zero i)
  | succ rounds ih =>
    have hcast : ((witness ^ 2 % value : Nat) : ZMod value) = (witness : ZMod value) ^ 2 := by
      rw [ZMod.natCast_mod, Nat.cast_pow]
    rw [squares]
    split_ifs with hneg
    · rfl
    · cases i with
      | zero =>
        refine absurd (eq_sub_one_of_natCast (by omega) (Nat.mod_lt _ (by omega)) ?_) hneg
        rw [hcast, ← h, Nat.zero_add, pow_one]
      | succ i =>
        refine ih (Nat.lt_of_succ_lt_succ hi) (i := i) ?_
        rw [hcast, ← h, ← pow_mul, ← pow_succ' 2 (i + 1)]

/-- A prime passes the test of every base. -/
theorem passes_of_prime {p exponent shifts base : Nat} (hp : p.Prime)
    (h : exponent * 2 ^ shifts = p - 1) : passes p exponent shifts base = true := by
  have htwo := hp.two_le
  have hcast : ((base ^ exponent % p : Nat) : ZMod p) = (base : ZMod p) ^ exponent := by
    rw [ZMod.natCast_mod, Nat.cast_pow]
  have hlt : base ^ exponent % p < p := Nat.mod_lt _ (by omega)
  rw [passes]
  split_ifs with hzero
  · rfl
  · have hdvd : ¬p ∣ base := fun hd => hzero (Nat.mod_eq_zero_of_dvd hd)
    simp only [Bool.if_true_left, Bool.or_eq_true, decide_eq_true_eq]
    rcases strong_of_prime hp hdvd h with hpow | ⟨i, hi, hpow⟩
    · have hone : base ^ exponent % p % p = 1 % p := by
        rw [← ZMod.natCast_eq_natCast_iff', hcast, hpow, Nat.cast_one]
      rw [Nat.mod_mod, Nat.mod_eq_of_lt (show 1 < p by omega)] at hone
      exact .inl (.inl hone)
    · cases i with
      | zero =>
        refine .inl (.inr (eq_sub_one_of_natCast (by omega) hlt ?_))
        rw [hcast, ← hpow, Nat.pow_zero, pow_one]
      | succ i => exact .inr (squares_of_pow (i := i) hp.one_lt (by omega) (by rw [hcast, hpow]))

/-- The test rejects no prime. -/
theorem isPrime64_of_prime {p : Nat} (hp : p.Prime) : isPrime64 p = true := by
  have htwo := hp.two_le
  rw [isPrime64, if_neg (by omega), Int.toNat_natCast]
  simp only
  split
  · -- A prime of the trial division divides no prime but itself.
    rename_i prime hfind
    have hmod := List.find?_some hfind
    have hmem := List.mem_of_find?_eq_some hfind
    have hdvd : prime ∣ p := Nat.dvd_of_mod_eq_zero (of_decide_eq_true hmod)
    rcases (Nat.dvd_prime hp).1 hdvd with rfl | rfl
    · exact absurd hmem (by decide)
    · exact decide_eq_true rfl
  · obtain ⟨s, hs, heq⟩ := halve_spec (p - 1) 0
    rw [Nat.zero_add] at hs
    exact List.all_eq_true.2 fun base _ => passes_of_prime hp (by rw [hs, heq])

/-- What the test accepts is at least `2`. -/
theorem two_le_of_isPrime64 {value : Int} (h : isPrime64 value = true) : 2 ≤ value := by
  by_contra hlt
  rw [isPrime64, if_pos (not_le.1 hlt)] at h
  exact absurd h Bool.false_ne_true

/-- The test has no false positives below a bound; for 64-bit integers, it is `2 ^ 64`. -/
def NoFalsePositives (bound : Nat) : Prop :=
  ∀ value : Nat, value < bound → isPrime64 value = true → value.Prime

/-- It accepts no number that the trial division finds a factor of. -/
theorem not_dvd_of_isPrime64 {n q : Nat} (h : isPrime64 n = true) (hq : q ∈ trialPrimes)
    (hne : n ∉ trialPrimes) : ¬q ∣ n := by
  intro hdvd
  have htwo := two_le_of_isPrime64 h
  rw [isPrime64, if_neg (by omega), Int.toNat_natCast] at h
  simp only at h
  split at h
  · rename_i prime hfind
    exact hne (of_decide_eq_true h ▸ List.mem_of_find?_eq_some hfind)
  · rename_i hfind
    exact List.find?_eq_none.1 hfind q hq (decide_eq_true (Nat.mod_eq_zero_of_dvd hdvd))

/-- The primes of the trial division are all primes below `41`. -/
theorem mem_trialPrimes_iff {q : Nat} : q ∈ trialPrimes ↔ q.Prime ∧ q < 41 := by
  constructor
  · intro h
    simp only [trialPrimes, List.mem_cons, List.not_mem_nil, or_false] at h
    rcases h with rfl | rfl | rfl | rfl | rfl | rfl | rfl | rfl | rfl | rfl | rfl | rfl <;> norm_num
  · rintro ⟨hq, hlt⟩
    interval_cases q <;> first | decide | exact absurd hq (by norm_num)

/-- Below `41 ^ 2`, the trial division alone rejects what is not a prime. -/
theorem noFalsePositives_trial : NoFalsePositives (41 ^ 2) := by
  intro value hlt h
  by_cases hmem : value ∈ trialPrimes
  · exact (mem_trialPrimes_iff.1 hmem).1
  · have htwo := two_le_of_isPrime64 h
    refine prime_of_trial (by omega) hlt fun q hq hlt => ?_
    exact not_dvd_of_isPrime64 h (mem_trialPrimes_iff.2 ⟨hq, hlt⟩) hmem

/-- The least product of primes that the trial division does not try. -/
example : isPrime64 (41 * 41) = false := by decide +kernel

/-! ## The search -/

theorem exists_odd_prime (n : Nat) : ∃ p, n ≤ p ∧ p.Prime ∧ p % 2 = 1 := by
  obtain ⟨p, hle, hp⟩ := Nat.exists_infinite_primes (max n 3)
  exact ⟨p, by omega, hp, Nat.odd_iff.1 (hp.odd_of_ne_two (by omega))⟩

/-- The next odd prime gets nearer when a candidate is rejected. -/
theorem find_odd_prime_sub_lt {candidate : Nat} (hodd : candidate % 2 = 1)
    (h : ¬isPrime64 candidate = true) :
    Nat.find (exists_odd_prime (candidate + 2)) - (candidate + 2) <
      Nat.find (exists_odd_prime candidate) - candidate := by
  obtain ⟨hle, hp, hmod⟩ := Nat.find_spec (exists_odd_prime candidate)
  have hne : Nat.find (exists_odd_prime candidate) ≠ candidate := fun heq =>
    h (isPrime64_of_prime (heq ▸ hp))
  have hmin := Nat.find_min' (exists_odd_prime (candidate + 2)) ⟨by omega, hp, hmod⟩
  omega

/-- `while not _is_prime_64(candidate): candidate += 2`, from an odd candidate. It
    ends, for the test rejects no prime. -/
def searchPrime (candidate : Nat) (hodd : candidate % 2 = 1) : Nat :=
  if isPrime64 candidate then candidate else searchPrime (candidate + 2) (by omega)
termination_by Nat.find (exists_odd_prime candidate) - candidate
decreasing_by exact find_odd_prime_sub_lt hodd ‹_›

/-- A round of `_nth_prime_after`. -/
def nextPrime (prime : Int) : Int :=
  let candidate := prime + 1
  if h : candidate ≤ 2 then 2
  else searchPrime (if candidate % 2 = 0 then candidate + 1 else candidate).toNat
    (by split_ifs <;> omega)

/-- `_nth_prime_after`: `count` rounds. -/
def nthPrimeAfter (start : Int) : (count : Nat) → Int
  | 0 => start
  | count + 1 => nextPrime (nthPrimeAfter start count)

/-- A number that the test accepts is odd, or `2`. -/
theorem odd_of_isPrime64 {n : Nat} (h : isPrime64 n = true) (htwo : 2 < n) : n % 2 = 1 := by
  by_contra heven
  refine not_dvd_of_isPrime64 (q := 2) h (by decide) (fun hmem => ?_) (by omega)
  have hodd := (mem_trialPrimes_iff.1 hmem).1.odd_of_ne_two htwo.ne'
  exact heven (Nat.odd_iff.1 hodd)

/-- The search finds the first number from the candidate on that the test accepts:
    the even ones are none. -/
theorem searchPrime_isLeast {candidate : Nat} (hodd : candidate % 2 = 1) (hlt : 2 < candidate) :
    IsLeast {j : Nat | isPrime64 j = true ∧ candidate ≤ j} (searchPrime candidate hodd) := by
  fun_induction searchPrime candidate hodd with
  | case1 candidate hodd h => exact ⟨⟨h, le_rfl⟩, fun j hj => hj.2⟩
  | case2 candidate hodd h ih =>
    obtain ⟨⟨hacc, hle⟩, hmin⟩ := ih (by omega)
    refine ⟨⟨hacc, by omega⟩, fun j ⟨hj, hcj⟩ => hmin ⟨hj, ?_⟩⟩
    have hne : candidate ≠ j := fun he => h (he ▸ hj)
    have := odd_of_isPrime64 hj (by omega)
    omega

/-- A round goes to the next number that the test accepts. -/
theorem nextPrime_isLeast (prime : Int) : ∃ k : Nat, nextPrime prime = k ∧
    IsLeast {j : Nat | isPrime64 j = true ∧ prime < j} k := by
  rw [nextPrime]
  by_cases hle : prime + 1 ≤ 2
  · rw [dif_pos hle]
    refine ⟨2, rfl, ⟨isPrime64_of_prime Nat.prime_two, by push_cast; omega⟩, fun j hj => ?_⟩
    exact Int.ofNat_le.1 (two_le_of_isPrime64 hj.1)
  · rw [dif_neg hle]
    refine ⟨_, rfl, ?_⟩
    -- An even candidate, which the search skips, is not accepted.
    have hodd : (if (prime + 1) % 2 = 0 then prime + 1 + 1 else prime + 1).toNat % 2 = 1 := by
      split_ifs <;> omega
    obtain ⟨⟨hacc, hge⟩, hmin⟩ := searchPrime_isLeast hodd (by split_ifs <;> omega)
    refine ⟨⟨hacc, ?_⟩, fun j ⟨hj, hlt⟩ => hmin ⟨hj, ?_⟩⟩
    · split_ifs at hge ⊢ <;> omega
    · have hodd := odd_of_isPrime64 hj (by omega)
      split_ifs <;> omega

theorem infinite_isPrime64 : (Set.ofPred fun n : Nat => isPrime64 n = true).Infinite :=
  Nat.infinite_setOfPred_prime.mono fun _ => isPrime64_of_prime

/-- The rounds go through the numbers that the test accepts. -/
theorem nthPrimeAfter_eq_accepted (start : Int) (count : Nat) :
    nthPrimeAfter start count = nthAfter (fun n => isPrime64 n = true) start count :=
  eq_nthAfter infinite_isPrime64 rfl (fun _ => nextPrime_isLeast _) count

/-- Up to a bound below which the test accepts primes only, the rounds go through
    the primes. -/
theorem nthPrimeAfter_eq {bound : Nat} (hbound : NoFalsePositives bound) {start : Int} {count : Nat}
    (h : nthPrimeAfter start count < bound ∨ nthAfter Nat.Prime start count < bound) :
    nthPrimeAfter start count = nthAfter Nat.Prime start count := by
  have hiff : ∀ n : Nat, (n : Int) < bound → (isPrime64 n = true ↔ n.Prime) := fun n hn =>
    ⟨hbound n (Int.ofNat_lt.1 hn), isPrime64_of_prime⟩
  rw [nthPrimeAfter_eq_accepted] at h ⊢
  rcases h with h | h
  · exact (nthAfter_congr hiff infinite_isPrime64 h).symm
  · exact nthAfter_congr (fun n hn => (hiff n hn).symm) Nat.infinite_setOfPred_prime h

/-! ## The layout -/

/-- `_make_vocab_layout`: the sizes and the offsets of the heads, and the total row
    count. -/
structure VocabLayout where
  sizes : List Int
  offsets : List Int
  offset : Int
  deriving DecidableEq

/-- A head more. -/
def VocabLayout.add (layout : VocabLayout) (size : Int) : VocabLayout :=
  ⟨layout.sizes ++ [size], layout.offsets ++ [layout.offset], layout.offset + size⟩

/-- `_make_vocab_layout`. -/
def makeVocabLayout (ngramVocabSizeBase : Int) (ngramHeads pleDenseLayerId : Nat) : VocabLayout :=
  (List.range ngramHeads).foldl (fun layout localHead =>
    let globalHead := pleDenseLayerId * ngramHeads + localHead
    layout.add (nthPrimeAfter (ngramVocabSizeBase - 1) (globalHead + 1))) ⟨[], [], 0⟩

/-- The offsets of a layout are the running sums of its sizes. -/
structure VocabLayout.Running (layout : VocabLayout) : Prop where
  length : layout.offsets.length = layout.sizes.length
  offsets : ∀ h < layout.sizes.length, layout.offsets[h]? = some (layout.sizes.take h).sum
  total : layout.offset = layout.sizes.sum

/-- A head more is put behind the others. -/
theorem VocabLayout.Running.add {layout : VocabLayout} (h : layout.Running) (size : Int) :
    (layout.add size).Running where
  length := by simp [VocabLayout.add, h.length]
  offsets g hg := by
    rw [VocabLayout.add, List.length_append, List.length_singleton] at hg
    rw [VocabLayout.add]
    rcases Nat.lt_succ_iff_lt_or_eq.1 hg with hlt | rfl
    · rw [List.getElem?_append_left (by rw [h.length]; exact hlt), h.offsets g hlt,
        List.take_append_of_le_length hlt.le]
    · rw [← h.length, List.getElem?_concat_length, h.total, h.length, List.take_left']
      rfl
  total := by simp [VocabLayout.add, h.total]

variable {base : Int} {heads layer : Nat}

/-- The first heads of a layer have their sizes, and the running sums of them. -/
theorem foldl_add (size : Nat → Int) (n : Nat) :
    ((List.range n).foldl (fun layout h => VocabLayout.add layout (size h)) ⟨[], [], 0⟩).Running ∧
    ((List.range n).foldl (fun layout h => VocabLayout.add layout (size h)) ⟨[], [], 0⟩).sizes =
      (List.range n).map size := by
  induction n with
  | zero => exact ⟨⟨rfl, fun h hh => absurd hh (Nat.not_lt_zero h), rfl⟩, rfl⟩
  | succ n ih =>
    rw [List.range_succ, List.foldl_append, List.map_append]
    exact ⟨ih.1.add _, congrArg (· ++ [size n]) ih.2⟩

theorem running_makeVocabLayout : (makeVocabLayout base heads layer).Running :=
  (foldl_add _ heads).1

/-- The sizes of the heads of a layer. -/
theorem sizes_makeVocabLayout : (makeVocabLayout base heads layer).sizes =
    (List.range heads).map fun h => nthPrimeAfter (base - 1) (layer * heads + h + 1) :=
  (foldl_add _ heads).2

theorem getElem?_sizes {h : Nat} {size : Int}
    (hs : (makeVocabLayout base heads layer).sizes[h]? = some size) :
    h < heads ∧ size = nthPrimeAfter (base - 1) (layer * heads + h + 1) := by
  rw [sizes_makeVocabLayout] at hs
  have hlt : h < heads := by simpa using (List.getElem?_eq_some_iff.1 hs).1
  rw [List.getElem?_map, List.getElem?_range hlt, Option.map_some] at hs
  exact ⟨hlt, (Option.some.inj hs).symm⟩

/-- A number that is found is accepted, and comes after the start. -/
theorem nthPrimeAfter_succ_spec (start : Int) (count : Nat) :
    ∃ k : Nat, nthPrimeAfter start (count + 1) = k ∧ isPrime64 k = true ∧ start < k := by
  rw [nthPrimeAfter_eq_accepted]
  exact nthAfter_succ_spec infinite_isPrime64 start count

/-- The sizes of a layer are at least the base, and at least `2`. -/
theorem le_of_mem_sizes {size : Int} (h : size ∈ (makeVocabLayout base heads layer).sizes) :
    base ≤ size ∧ 2 ≤ size := by
  rw [sizes_makeVocabLayout, List.mem_map] at h
  obtain ⟨h, -, rfl⟩ := h
  obtain ⟨k, hk, hacc, hlt⟩ := nthPrimeAfter_succ_spec (base - 1) (layer * heads + h)
  rw [hk]
  exact ⟨by omega, two_le_of_isPrime64 hacc⟩

/-- The sizes of the heads of all layers are distinct. -/
theorem sizes_injective {layer' h h' : Nat} {size : Int}
    (hs : (makeVocabLayout base heads layer).sizes[h]? = some size)
    (hs' : (makeVocabLayout base heads layer').sizes[h']? = some size) :
    layer = layer' ∧ h = h' := by
  obtain ⟨hlt, heq⟩ := getElem?_sizes hs
  obtain ⟨hlt', heq'⟩ := getElem?_sizes hs'
  rw [nthPrimeAfter_eq_accepted] at heq heq'
  have hmono : StrictMono (nthAfter (fun n => isPrime64 n = true) (base - 1)) := fun _ _ =>
    nthAfter_lt_nthAfter infinite_isPrime64
  have hglobal : layer * heads + h = layer' * heads + h' :=
    Nat.succ.inj (hmono.injective (heq.symm.trans heq'))
  -- A global head is one of one layer.
  have hlayer := congrArg (· / heads) hglobal
  simp only [Nat.mul_comm _ heads, Nat.mul_add_div (Nat.zero_lt_of_lt hlt), Nat.div_eq_of_lt hlt,
    Nat.div_eq_of_lt hlt', Nat.add_zero] at hlayer
  subst hlayer
  exact ⟨rfl, Nat.add_left_cancel hglobal⟩

/-- No prime is passed by. -/
theorem nthPrimeAfter_succ_le (start : Int) (count : Nat) {p : Nat} (hp : p.Prime)
    (hlt : nthPrimeAfter start count < p) : nthPrimeAfter start (count + 1) ≤ p := by
  obtain ⟨k, hk, -, hmin⟩ := nextPrime_isLeast (nthPrimeAfter start count)
  rw [nthPrimeAfter, hk]
  exact Int.ofNat_le.2 (hmin ⟨isPrime64_of_prime hp, hlt⟩)

example : makeVocabLayout 3 2 1 = ⟨[7, 11], [0, 7], 18⟩ := by decide +kernel

/-- Every search for a prime ends, the test rejects no prime, and none is passed by; up
    to a bound below which the test accepts primes only, the `count`-th prime after the
    start is found. The sizes of the heads of all layers are distinct numbers from the
    base on, and below the bound they are the primes in their order; the offsets are
    their running sums. -/
theorem sizes_are_primes {bound : Nat} (hbound : NoFalsePositives bound) :
    (∀ start count,
      nthPrimeAfter start count < bound ∨ nthAfter Nat.Prime start count < bound →
      nthPrimeAfter start count = nthAfter Nat.Prime start count) ∧
    (∀ p : Nat, p.Prime → isPrime64 p = true) ∧
    (∀ candidate : Nat, candidate % 2 = 1 →
      ∃ rounds : Nat, isPrime64 (candidate + 2 * rounds) = true) ∧
    (∀ start count (p : Nat), p.Prime → nthPrimeAfter start count < p →
      nthPrimeAfter start (count + 1) ≤ p) ∧
    (∀ base heads layer, (makeVocabLayout base heads layer).Running ∧
      (makeVocabLayout base heads layer).sizes.length = heads ∧
      ∀ (h : Nat) size, (makeVocabLayout base heads layer).sizes[h]? = some size → base ≤ size ∧
        (size < bound → size = nthAfter Nat.Prime (base - 1) (layer * heads + h + 1) ∧
          ∃ p : Nat, p.Prime ∧ size = p)) ∧
    ∀ base heads layer layer' (h h' : Nat) size,
      (makeVocabLayout base heads layer).sizes[h]? = some size →
      (makeVocabLayout base heads layer').sizes[h']? = some size → layer = layer' ∧ h = h' := by
  refine ⟨fun _ _ => nthPrimeAfter_eq hbound, fun _ => isPrime64_of_prime,
    fun candidate hodd => ?_, fun start count _ => nthPrimeAfter_succ_le start count,
    fun base heads layer => ⟨running_makeVocabLayout, ?_, fun h size hs => ?_⟩,
    fun _ _ _ _ _ _ _ => sizes_injective⟩
  · obtain ⟨p, hle, hp, hmod⟩ := exists_odd_prime candidate
    refine ⟨(p - candidate) / 2, ?_⟩
    rw [show (candidate + 2 * ((p - candidate) / 2 : Nat) : Int) = p by omega]
    exact isPrime64_of_prime hp
  · rw [sizes_makeVocabLayout, List.length_map, List.length_range]
  · refine ⟨(le_of_mem_sizes (List.mem_of_getElem? hs)).1, fun hlt => ?_⟩
    obtain ⟨-, rfl⟩ := getElem?_sizes hs
    obtain ⟨k, hk, hprime, -⟩ :=
      nthAfter_succ_spec Nat.infinite_setOfPred_prime (base - 1) (layer * heads + h)
    rw [nthPrimeAfter_eq hbound (.inl hlt)]
    exact ⟨rfl, k, hprime, hk⟩

/-- The fourth prime after `1`. -/
theorem sizes_are_primes_one : nthPrimeAfter 1 4 = nthAfter Nat.Prime 1 4 :=
  (sizes_are_primes noFalsePositives_trial).1 1 4 (.inl (by decide +kernel))

end FlashNext.Ple
