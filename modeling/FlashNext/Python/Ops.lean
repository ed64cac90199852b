import FlashNext.Python.Value

/-!
# Operations on Python values

Equality, the order `>`, membership, indexing with a string, the methods `get`
and `update` of dicts, and iteration, on any values: what the gateway does with
the entries of a file that anyone may have edited. Where Python raises, they
give the exception.

`update_ok_iff` says which documents a dict takes: an object, a list of pairs,
or nothing at all (`Updatable`).
-/

namespace FlashNext.Python

namespace Val

/-! ## Equality and order -/

mutual

/-- `a is b or a == b`, as containers compare their elements. Dicts are compared without
    their order. -/
def eq : Val → Val → Bool
  | .none, .none => true
  | .str a, .str b => a = b
  | .list xs, .list ys => eqList xs ys
  | .dict d, .dict e => d.length = e.length && eqItems d e
  | .bool a, b => eqNum (.bool a) b
  | .int a, b => eqNum (.int a) b
  | .float a, b => eqNum (.float a) b
  | _, _ => false
where
  eqNum (a b : Val) : Bool :=
    match a.num, b.num with
    | some x, some y => x.same y
    | _, _ => false

/-- The equality of lists, element by element. -/
def eqList : List Val → List Val → Bool
  | [], [] => true
  | x :: xs, y :: ys => eq x y && eqList xs ys
  | _, _ => false

/-- Every item of the first dict is an item of the second. -/
def eqItems : List (Key × Val) → List (Key × Val) → Bool
  | [], _ => true
  | (k, v) :: d, e =>
    (match Dict.find e k with
    | some w => eq v w
    | Option.none => false) && eqItems d e

end

mutual

/-- `a > b`: numbers by value, strings and lists lexicographically; no other
    values are ordered. -/
def gt : Val → Val → Except Err Bool
  | .str a, .str b => .ok (b.lex a (· < ·))
  | .list xs, .list ys => gtList xs ys
  | .bool a, b => gtNum (.bool a) b
  | .int a, b => gtNum (.int a) b
  | .float a, b => gtNum (.float a) b
  | _, _ => .error .typeError
where
  gtNum (a b : Val) : Except Err Bool :=
    match a.num, b.num with
    | some x, some y => .ok (y.lt x)
    | _, _ => .error .typeError

/-- The order of lists: that of the first elements that differ. -/
def gtList : List Val → List Val → Except Err Bool
  | [], _ => .ok false
  | _ :: _, [] => .ok true
  | x :: xs, y :: ys => if eq x y then gtList xs ys else gt x y

end

/-! ## Dicts, lists and strings as containers -/

/-- `k in v`. -/
def contains : Val → Str → Except Err Bool
  | .dict d, k => .ok (Dict.get d k).isSome
  | .list xs, k => .ok (xs.any (eq · (.str k)))
  | .str s, k => .ok (s.tails.any (k.isPrefixOf ·))
  | _, _ => .error .typeError

/-- `v[k]`, for a string `k`. -/
def getItem : Val → Str → Except Err Val
  | .dict d, k =>
    match Dict.get d k with
    | some v => .ok v
    | Option.none => .error .keyError
  | _, _ => .error .typeError

/-- `v.get(k, default)`, a method of dicts. -/
def getD : Val → Str → Val → Except Err Val
  | .dict d, k, default => .ok ((Dict.get d k).getD default)
  | _, _, _ => .error .attributeError

/-- The values an iteration over `v` gives. -/
def iter : Val → Except Err (List Val)
  | .list xs => .ok xs
  | .dict d => .ok (d.map (·.1.toVal))
  | .str s => .ok (s.map fun c => .str [c])
  | _ => .error .typeError

/-- The two elements of an iterable of length two, as a key and a value. -/
def pair (v : Val) : Except Err (Key × Val) := do
  match ← v.iter with
  | [k, w] => return (← k.toKey, w)
  | _ => .error .valueError

end Val

/-! ## `dict.update` -/

namespace Dict

/-- `d.update(pairs)`: the items read before a bad one are in the dict. -/
def updatePairs (d : Dict) : List Val → Dict × Option Err
  | [] => (d, none)
  | v :: vs =>
    match v.pair with
    | .ok (k, w) => updatePairs (d.insert k w) vs
    | .error e => (d, some e)

/-- `d.update(v)`. -/
def update (d : Dict) : Val → Dict × Option Err
  | .dict items => (items.foldl (fun d kv => d.insert kv.1 kv.2) d, none)
  | v =>
    match v.iter with
    | .ok vs => updatePairs d vs
    | .error e => (d, some e)

/-- The values that `update` takes: a dict, or an iterable of pairs. -/
def Updatable : Val → Prop
  | .dict _ => True
  | .list vs => ∀ v ∈ vs, ∃ kw, v.pair = .ok kw
  | .str s => s = []
  | _ => False

theorem updatePairs_ok_iff (d : Dict) (vs : List Val) :
    (updatePairs d vs).2 = none ↔ ∀ v ∈ vs, ∃ kw, v.pair = .ok kw := by
  induction vs generalizing d with
  | nil => simp [updatePairs]
  | cons v vs ih =>
    rw [updatePairs]
    cases hv : v.pair with
    | ok kw =>
      rw [List.forall_mem_cons, ih]
      exact ⟨fun h => ⟨⟨kw, hv⟩, h⟩, fun h => h.2⟩
    | error e => simp [hv]

/-- A single character is not a pair. -/
theorem pair_char (c : Nat) : (Val.str [c]).pair = .error .valueError := rfl

/-- `update` succeeds on the updatable values and on no others. -/
theorem update_ok_iff (d : Dict) (v : Val) : (update d v).2 = none ↔ Updatable v := by
  cases v with
  | dict items => simp [update, Updatable]
  | list vs => simpa [update, Val.iter, Updatable] using updatePairs_ok_iff d vs
  | str s =>
    cases s with
    | nil => simp [update, Val.iter, Updatable, updatePairs]
    | cons c s => simp [update, Val.iter, Updatable, updatePairs, pair_char]
  | _ => simp [update, Val.iter, Updatable]

/-! ## Distinct keys -/

/-- No two keys of the dict are the same, as in every dict that Python builds. -/
def Distinct (d : Dict) : Prop := d.Pairwise fun a b => ¬a.1.same b.1

theorem get_eq_find (d : Dict) (k : Str) : get d k = find d (.str k) := by
  simp only [get, find]
  congr 1
  refine congrArg (List.find? · d) (funext fun kv => ?_)
  rw [Bool.eq_iff_iff, same_str_iff, decide_eq_true_iff]

/-- The items after `d[k] = v` are the new one and some with the keys they had. -/
theorem mem_insert {d : Dict} {k : Key} {v : Val} {x : Key × Val} (hx : x ∈ insert d k v) :
    (∃ y ∈ d, x.1 = y.1) ∨ x = (k, v) := by
  induction d with
  | nil => exact .inr (List.mem_singleton.1 hx)
  | cons kv d ih =>
    rw [insert] at hx
    split_ifs at hx with hk
    · rcases List.mem_cons.1 hx with rfl | hx
      · exact .inl ⟨kv, List.mem_cons_self, rfl⟩
      · exact .inl ⟨x, List.mem_cons_of_mem _ hx, rfl⟩
    · rcases List.mem_cons.1 hx with rfl | hx
      · exact .inl ⟨kv, List.mem_cons_self, rfl⟩
      · refine (ih hx).imp_left fun hex => ?_
        obtain ⟨y, hy, h⟩ := hex
        exact ⟨y, List.mem_cons_of_mem _ hy, h⟩

theorem Distinct.insert {d : Dict} (h : d.Distinct) (k : Key) (v : Val) :
    (Dict.insert d k v).Distinct := by
  induction d with
  | nil => exact List.pairwise_singleton _ _
  | cons kv d ih =>
    obtain ⟨k', v'⟩ := kv
    rw [Distinct, List.pairwise_cons] at h
    rw [Dict.insert]
    split_ifs with hk
    · exact List.pairwise_cons.2 ⟨h.1, h.2⟩
    · refine List.pairwise_cons.2 ⟨fun x hx => ?_, ih h.2⟩
      rcases mem_insert hx with hx | rfl
      · obtain ⟨y, hy, hxy⟩ := hx
        rw [hxy]
        exact h.1 y hy
      · exact hk

theorem Distinct.updatePairs {d : Dict} (h : d.Distinct) (vs : List Val) :
    (Dict.updatePairs d vs).1.Distinct := by
  induction vs generalizing d with
  | nil => exact h
  | cons v vs ih =>
    rw [Dict.updatePairs]
    split
    · exact ih (h.insert _ _)
    · exact h

/-- An update keeps the keys distinct. -/
theorem Distinct.update {d : Dict} (h : d.Distinct) (v : Val) : (Dict.update d v).1.Distinct := by
  cases v with
  | dict items =>
    change (items.foldl (fun d kv => Dict.insert d kv.1 kv.2) d).Distinct
    induction items generalizing d with
    | nil => exact h
    | cons kv items ih => exact ih (h.insert _ _)
  | list vs => exact h.updatePairs vs
  | str s => exact h.updatePairs _
  | _ => exact h

theorem find_foldl_of_not_mem {d items : Dict} {j : Key} (h : ∀ x ∈ items, ¬x.1.same j) :
    find (items.foldl (fun d kv => insert d kv.1 kv.2) d) j = find d j := by
  induction items generalizing d with
  | nil => rfl
  | cons kv items ih =>
    rw [List.forall_mem_cons] at h
    rw [List.foldl_cons, ih h.2, find_insert, if_neg h.1]

/-- After an update with a dict, an item of it has its value. -/
theorem get_update_of_some {d items : Dict} (hi : items.Distinct) {k : Str} {v : Val}
    (h : get items k = some v) : get (update d (.dict items)).1 k = some v := by
  change get (items.foldl (fun d kv => Dict.insert d kv.1 kv.2) d) k = some v
  rw [get_eq_find] at h ⊢
  induction items generalizing d with
  | nil => cases h
  | cons kv items ih =>
    rw [Distinct, List.pairwise_cons] at hi
    rw [List.foldl_cons]
    by_cases hk : kv.1.same (.str k)
    · -- No later item has that key.
      obtain rfl : kv.2 = v := by simpa [find, List.find?_cons, hk] using h
      have hlater : ∀ x ∈ items, ¬x.1.same (.str k) := fun x hx hs =>
        hi.1 x hx (Key.same_trans hk (Key.same_comm x.1 _ ▸ hs))
      rw [find_foldl_of_not_mem hlater, find_insert, if_pos hk]
    · exact ih hi.2 (by simpa [find, List.find?_cons, hk] using h)

/-- An update leaves the items that the dict does not have. -/
theorem get_update_of_none {d items : Dict} {k : Str} (h : get items k = none) :
    get (update d (.dict items)).1 k = get d k := by
  change get (items.foldl (fun d kv => Dict.insert d kv.1 kv.2) d) k = get d k
  rw [get_eq_find, find, Option.map_eq_none_iff, List.find?_eq_none] at h
  rw [get_eq_find, get_eq_find, find_foldl_of_not_mem h]

end Dict

end FlashNext.Python
