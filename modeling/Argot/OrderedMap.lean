/-!
# OrderedMap — finite maps that remember insertion order

Each key occurs once.  Writing a key that is there changes its value and keeps its place; writing a new key puts it at
the end.  The list of pairs is the view that everything else is said through.
-/
namespace Argot

/-- A finite map whose pairs stand in the order their keys came in. -/
structure OrderedMap (κ : Type) (ν : Type) where
  toList : List (κ × ν)
  nodup : (toList.map Prod.fst).Nodup

namespace OrderedMap

variable {κ ν : Type}

def empty : OrderedMap κ ν := ⟨[], by simp⟩

instance : Inhabited (OrderedMap κ ν) := ⟨empty⟩

def keys (m : OrderedMap κ ν) : List κ := m.toList.map Prod.fst

def values (m : OrderedMap κ ν) : List ν := m.toList.map Prod.snd

def size (m : OrderedMap κ ν) : Nat := m.toList.length

def isEmpty (m : OrderedMap κ ν) : Bool := m.toList.isEmpty

@[simp] theorem toList_empty : (empty : OrderedMap κ ν).toList = [] := rfl

theorem ext {m m' : OrderedMap κ ν} (h : m.toList = m'.toList) : m = m' := by
  cases m
  cases m'
  cases h
  rfl

variable [DecidableEq κ]

def find (k : κ) : List (κ × ν) → Option ν
  | [] => none
  | (k', v) :: rest => if k' = k then some v else find k rest

/-- The pairs with one value written: in place if the key occurs, else at the end. -/
def write (k : κ) (v : ν) : List (κ × ν) → List (κ × ν)
  | [] => [(k, v)]
  | (k', v') :: rest => if k' = k then (k, v) :: rest else (k', v') :: write k v rest

def drop (k : κ) : List (κ × ν) → List (κ × ν)
  | [] => []
  | (k', v') :: rest => if k' = k then rest else (k', v') :: drop k rest

theorem mem_keys_write {k k' : κ} {v : ν} : ∀ {l : List (κ × ν)},
    k' ∈ (write k v l).map Prod.fst ↔ k' = k ∨ k' ∈ l.map Prod.fst
  | [] => by simp [write]
  | (a, b) :: rest => by
    by_cases h : a = k
    · simp [write, h]
    · simp only [write, h, if_false, List.map_cons, List.mem_cons, mem_keys_write (l := rest)]
      constructor
      · rintro (h | h | h) <;> simp [h]
      · rintro (h | h | h) <;> simp [h]

theorem nodup_write {k : κ} {v : ν} : ∀ {l : List (κ × ν)},
    (l.map Prod.fst).Nodup → ((write k v l).map Prod.fst).Nodup
  | [], _ => by simp [write]
  | (a, b) :: rest, h => by
    rw [List.map_cons, List.nodup_cons] at h
    by_cases ha : a = k
    · simpa [write, ha] using ⟨by simpa [ha] using h.1, h.2⟩
    · simp only [write, ha, if_false, List.map_cons, List.nodup_cons]
      refine ⟨fun hm => ?_, nodup_write h.2⟩
      rcases mem_keys_write.1 hm with hk | hm
      · exact ha hk
      · exact h.1 hm

theorem drop_sublist (k : κ) : ∀ (l : List (κ × ν)), (drop k l).Sublist l
  | [] => .slnil
  | (a, b) :: rest => by
    by_cases ha : a = k
    · simp [drop, ha]
    · simpa [drop, ha] using drop_sublist k rest

def get? (m : OrderedMap κ ν) (k : κ) : Option ν := find k m.toList

def contains (m : OrderedMap κ ν) (k : κ) : Bool := (m.get? k).isSome

def insert (m : OrderedMap κ ν) (k : κ) (v : ν) : OrderedMap κ ν :=
  ⟨write k v m.toList, nodup_write m.nodup⟩

def erase (m : OrderedMap κ ν) (k : κ) : OrderedMap κ ν :=
  ⟨drop k m.toList, m.nodup.sublist ((drop_sublist k m.toList).map Prod.fst)⟩

def insertAll (m : OrderedMap κ ν) (pairs : List (κ × ν)) : OrderedMap κ ν :=
  pairs.foldl (fun acc p => acc.insert p.1 p.2) m

/-- The map of a list of pairs: the last value of a key, at the key's first place. -/
def ofList (pairs : List (κ × ν)) : OrderedMap κ ν :=
  empty.insertAll pairs

@[simp] theorem toList_insert (m : OrderedMap κ ν) (k : κ) (v : ν) : (m.insert k v).toList = write k v m.toList := rfl

@[simp] theorem toList_erase (m : OrderedMap κ ν) (k : κ) : (m.erase k).toList = drop k m.toList := rfl

theorem find_write (k k' : κ) (v : ν) : ∀ (l : List (κ × ν)),
    find k' (write k v l) = if k' = k then some v else find k' l
  | [] => by simp [write, find, eq_comm]
  | (a, b) :: rest => by
    by_cases ha : a = k
    · subst ha
      by_cases hk : k' = a
      · simp [write, find, hk]
      · have : ¬a = k' := fun h => hk h.symm
        simp [write, find, hk, this]
    · by_cases hk : a = k'
      · have : ¬k' = k := fun h => ha (hk.trans h)
        simp [write, find, hk, this]
      · simp [write, find, ha, hk, find_write k k' v rest]

@[simp] theorem get?_empty (k : κ) : (empty : OrderedMap κ ν).get? k = none := rfl

@[simp] theorem get?_insert (m : OrderedMap κ ν) (k k' : κ) (v : ν) :
    (m.insert k v).get? k' = if k' = k then some v else m.get? k' :=
  find_write k k' v m.toList

theorem mem_of_find {k : κ} {v : ν} : ∀ {l : List (κ × ν)}, find k l = some v → (k, v) ∈ l
  | [], h => by cases h
  | (a, b) :: rest, h => by
    by_cases ha : a = k
    · simp only [find, ha, if_true, Option.some.injEq] at h
      rw [ha, h]
      exact List.mem_cons_self
    · simp only [find, ha, if_false] at h
      exact List.mem_cons_of_mem _ (mem_of_find h)

theorem find_eq_none_iff {k : κ} : ∀ {l : List (κ × ν)}, find k l = none ↔ k ∉ l.map Prod.fst
  | [] => by simp [find]
  | (a, b) :: rest => by
    by_cases ha : a = k
    · simp [find, ha]
    · have : ¬k = a := fun h => ha h.symm
      simp only [find, ha, if_false, find_eq_none_iff (l := rest), List.map_cons, List.mem_cons, this, false_or]

theorem find_of_mem {k : κ} {v : ν} : ∀ {l : List (κ × ν)}, (l.map Prod.fst).Nodup → (k, v) ∈ l → find k l = some v
  | [], _, h => by cases h
  | (a, b) :: rest, hn, h => by
    rw [List.map_cons, List.nodup_cons] at hn
    rcases List.mem_cons.1 h with h | h
    · cases h
      simp [find]
    · have ha : ¬a = k := fun ha => hn.1 (ha ▸ List.mem_map.2 ⟨(k, v), h, rfl⟩)
      simpa [find, ha] using find_of_mem hn.2 h

theorem find_drop (k k' : κ) : ∀ (l : List (κ × ν)), (l.map Prod.fst).Nodup →
    find k' (drop k l) = if k' = k then none else find k' l
  | [], _ => by simp [drop, find]
  | (a, b) :: rest, h => by
    rw [List.map_cons, List.nodup_cons] at h
    by_cases ha : a = k
    · subst ha
      by_cases hk : k' = a
      · subst hk
        simpa [drop] using find_eq_none_iff.2 h.1
      · have : ¬a = k' := fun h => hk h.symm
        simp [drop, find, hk, this]
    · by_cases hk : a = k'
      · subst hk
        simp [drop, find, ha]
      · simp [drop, find, ha, hk, find_drop k k' rest h.2]

@[simp] theorem get?_erase (m : OrderedMap κ ν) (k k' : κ) :
    (m.erase k).get? k' = if k' = k then none else m.get? k' :=
  find_drop k k' m.toList m.nodup

theorem get?_eq_some_iff (m : OrderedMap κ ν) (k : κ) (v : ν) : m.get? k = some v ↔ (k, v) ∈ m.toList :=
  ⟨mem_of_find, find_of_mem m.nodup⟩

theorem get?_eq_none_iff (m : OrderedMap κ ν) (k : κ) : m.get? k = none ↔ k ∉ m.keys :=
  find_eq_none_iff

theorem mem_keys_iff (m : OrderedMap κ ν) (k : κ) : k ∈ m.keys ↔ ∃ v, m.get? k = some v := by
  rw [← Option.isSome_iff_exists, ← Option.ne_none_iff_isSome, ne_eq, get?_eq_none_iff, Classical.not_not]

theorem write_of_not_mem {k : κ} {v : ν} : ∀ {l : List (κ × ν)}, k ∉ l.map Prod.fst → write k v l = l ++ [(k, v)]
  | [], _ => rfl
  | (a, b) :: rest, h => by
    rw [List.map_cons, List.mem_cons, not_or] at h
    rw [write, if_neg (Ne.symm h.1), write_of_not_mem h.2]
    rfl

/-- Pairs with new and distinct keys are written at the end, in their order. -/
theorem toList_insertAll : ∀ {pairs : List (κ × ν)} (m : OrderedMap κ ν),
    ((m.toList ++ pairs).map Prod.fst).Nodup → (m.insertAll pairs).toList = m.toList ++ pairs
  | [], m, _ => (List.append_nil _).symm
  | (k, v) :: pairs, m, h => by
    have hk : k ∉ m.toList.map Prod.fst := fun hmem => by
      rw [List.map_append, List.nodup_append] at h
      exact h.2.2 k hmem k (by simp) rfl
    have hinsert : (m.insert k v).toList = m.toList ++ [(k, v)] := write_of_not_mem hk
    change ((m.insert k v).insertAll pairs).toList = _
    rw [toList_insertAll (m.insert k v) (by rw [hinsert]; simpa using h), hinsert, List.append_assoc]
    rfl

/-- **A map is that of its list.** -/
theorem ofList_toList (m : OrderedMap κ ν) : ofList m.toList = m :=
  ext (toList_insertAll .empty m.nodup)

/-- What is written stands between pairs that were there. -/
theorem write_split (k : κ) (v : ν) : ∀ (l : List (κ × ν)), ∃ before after, write k v l = before ++ (k, v) :: after ∧
    (∀ p ∈ before, p ∈ l) ∧ ∀ p ∈ after, p ∈ l
  | [] => ⟨[], [], rfl, fun _ h => h, fun _ h => h⟩
  | (a, b) :: rest => by
    by_cases ha : a = k
    · exact ⟨[], rest, by simp [write, ha], fun _ h => (List.not_mem_nil h).elim, fun _ h => List.mem_cons_of_mem _ h⟩
    · obtain ⟨before, after, hl, hb, haf⟩ := write_split k v rest
      refine ⟨(a, b) :: before, after, by simp [write, ha, hl], fun p hp => ?_, fun p hp =>
        List.mem_cons_of_mem _ (haf p hp)⟩
      rcases List.mem_cons.1 hp with rfl | hp
      · exact List.mem_cons_self
      · exact List.mem_cons_of_mem _ (hb p hp)

/-- A pair that is not dropped stays between pairs that were on its two sides. -/
theorem drop_split {k k' : κ} (v : ν) (hk : k' ≠ k) (post : List (κ × ν)) : ∀ (pre : List (κ × ν)), ∃ before after,
    drop k (pre ++ (k', v) :: post) = before ++ (k', v) :: after ∧ ∀ p ∈ after, p ∈ post
  | [] => ⟨[], drop k post, by simp [drop, hk], fun _ h => (drop_sublist k post).mem h⟩
  | (a, b) :: pre => by
    by_cases ha : a = k
    · exact ⟨pre, post, by simp [drop, ha], fun _ h => h⟩
    · obtain ⟨before, after, hl, haf⟩ := drop_split v hk post pre
      exact ⟨(a, b) :: before, after, by simp [drop, ha, hl], haf⟩

/-- Writing `v` for `k` leaves the pairs with another value alone, unless `k` had that value. -/
theorem filter_write {k : κ} {v : ν} (p : ν → Bool) (hv : p v = false) : ∀ {l : List (κ × ν)},
    (∀ u, find k l = some u → p u = false) → (write k v l).filter (fun q => p q.2) = l.filter (fun q => p q.2)
  | [], _ => by simp [write, hv]
  | (a, b) :: rest, h => by
    by_cases ha : a = k
    · have hb : p b = false := h b (by simp [find, ha])
      simp [write, ha, hv, hb]
    · simp only [write, ha, if_false, List.filter_cons]
      rw [filter_write p hv (l := rest) (fun u hu => h u (by simpa [find, ha] using hu))]

/-- Dropping `k` leaves the pairs with another value than that of `k` alone. -/
theorem filter_drop {k : κ} (p : ν → Bool) : ∀ {l : List (κ × ν)},
    (∀ u, find k l = some u → p u = false) → (drop k l).filter (fun q => p q.2) = l.filter (fun q => p q.2)
  | [], _ => rfl
  | (a, b) :: rest, h => by
    by_cases ha : a = k
    · have hb : p b = false := h b (by simp [find, ha])
      simp [drop, ha, hb]
    · simp only [drop, ha, if_false, List.filter_cons]
      rw [filter_drop p (l := rest) (fun u hu => h u (by simpa [find, ha] using hu))]

/-! ## Writing again, and writing what is there -/

theorem write_write (k : κ) (v v' : ν) : ∀ (l : List (κ × ν)), write k v' (write k v l) = write k v' l
  | [] => by simp [write]
  | (a, b) :: rest => by
    by_cases ha : a = k
    · simp [write, ha]
    · simp [write, ha, write_write k v v' rest]

theorem drop_write (k : κ) (v : ν) : ∀ (l : List (κ × ν)), drop k (write k v l) = drop k l
  | [] => by simp [write, drop]
  | (a, b) :: rest => by
    by_cases ha : a = k
    · simp [write, drop, ha]
    · simp [write, drop, ha, drop_write k v rest]

theorem write_of_find {k : κ} {v : ν} : ∀ {l : List (κ × ν)}, find k l = some v → write k v l = l
  | [], h => by cases h
  | (a, b) :: rest, h => by
    by_cases ha : a = k
    · simp only [find, ha, if_true, Option.some.injEq] at h
      simp [write, ha, h]
    · simp only [find, ha, if_false] at h
      simp [write, ha, write_of_find h]

theorem drop_of_find_eq_none {k : κ} : ∀ {l : List (κ × ν)}, find k l = none → drop k l = l
  | [], _ => rfl
  | (a, b) :: rest, h => by
    by_cases ha : a = k
    · simp [find, ha] at h
    · simp only [find, ha, if_false] at h
      simp [drop, ha, drop_of_find_eq_none h]

theorem insert_insert (m : OrderedMap κ ν) (k : κ) (v v' : ν) : (m.insert k v).insert k v' = m.insert k v' :=
  ext (write_write k v v' m.toList)

theorem erase_insert (m : OrderedMap κ ν) (k : κ) (v : ν) : (m.insert k v).erase k = m.erase k :=
  ext (drop_write k v m.toList)

theorem insert_of_get? {m : OrderedMap κ ν} {k : κ} {v : ν} (h : m.get? k = some v) : m.insert k v = m :=
  ext (write_of_find h)

theorem erase_of_get?_eq_none {m : OrderedMap κ ν} {k : κ} (h : m.get? k = none) : m.erase k = m :=
  ext (drop_of_find_eq_none h)

/-! ## Keys -/

theorem keys_write_of_mem {k : κ} (v : ν) : ∀ {l : List (κ × ν)}, k ∈ l.map Prod.fst →
    (write k v l).map Prod.fst = l.map Prod.fst
  | [], h => by cases h
  | (a, b) :: rest, h => by
    by_cases ha : a = k
    · simp [write, ha]
    · have hrest : k ∈ rest.map Prod.fst := (List.mem_cons.1 h).resolve_left (Ne.symm ha)
      simp [write, ha, keys_write_of_mem v hrest]

/-- A key stays where it is; a new one comes last. -/
theorem keys_insert (m : OrderedMap κ ν) (k : κ) (v : ν) :
    (m.insert k v).keys = if k ∈ m.keys then m.keys else m.keys ++ [k] := by
  unfold keys
  rw [toList_insert]
  split
  · rename_i h
    exact keys_write_of_mem v h
  · rename_i h
    rw [write_of_not_mem h, List.map_append]
    rfl

theorem keys_drop (k : κ) : ∀ {l : List (κ × ν)}, (l.map Prod.fst).Nodup →
    (drop k l).map Prod.fst = (l.map Prod.fst).filter (· ≠ k)
  | [], _ => rfl
  | (a, b) :: rest, h => by
    rw [List.map_cons, List.nodup_cons] at h
    by_cases ha : a = k
    · subst ha
      have hrest : (rest.map Prod.fst).filter (· ≠ a) = rest.map Prod.fst :=
        List.filter_eq_self.2 fun q hq => by
          have hqa : q ≠ a := fun hqa => h.1 (hqa ▸ hq)
          simp [hqa]
      simp only [drop, if_true, List.map_cons, List.filter_cons, ne_eq, not_true_eq_false, decide_false,
        Bool.false_eq_true, if_false]
      exact hrest.symm
    · simp only [drop, ha, if_false, List.map_cons, List.filter_cons, ne_eq, not_false_eq_true, decide_true, if_true]
      rw [keys_drop k h.2]

theorem keys_erase (m : OrderedMap κ ν) (k : κ) : (m.erase k).keys = m.keys.filter (· ≠ k) :=
  keys_drop k m.nodup

/-- Erasing a key that is there takes it away, and no other. -/
theorem count_keys_erase {m : OrderedMap κ ν} {k : κ} (h : k ∈ m.keys) (k' : κ) :
    (m.erase k).keys.count k' + (if k = k' then 1 else 0) ≤ m.keys.count k' := by
  rw [keys_erase]
  by_cases hk : k = k'
  · subst hk
    rw [if_pos rfl, List.count_eq_zero_of_not_mem (by simp)]
    exact List.count_pos_iff.2 h
  · rw [if_neg hk]
    exact List.filter_sublist.count_le k'

/-! ## Maps of lists -/

theorem find_append (k : κ) (l' : List (κ × ν)) : ∀ (l : List (κ × ν)), find k (l ++ l') = (find k l).or (find k l')
  | [] => rfl
  | (a, b) :: rest => by
    by_cases ha : a = k
    · simp [find, ha]
    · simp [find, ha, find_append k l' rest]

theorem find_map_snd {μ : Type} (k : κ) (f : ν → μ) : ∀ (l : List (κ × ν)),
    find k (l.map fun p => (p.1, f p.2)) = (find k l).map f
  | [] => rfl
  | (a, b) :: rest => by
    by_cases ha : a = k
    · simp [find, ha]
    · simp [find, ha, find_map_snd k f rest]

theorem find_reverse {k : κ} {l : List (κ × ν)} (h : (l.map Prod.fst).Nodup) : find k l.reverse = find k l := by
  cases hfind : find k l with
  | none =>
    rwa [find_eq_none_iff, List.map_reverse, List.mem_reverse, ← find_eq_none_iff]
  | some v =>
    refine find_of_mem ?_ (List.mem_reverse.2 (mem_of_find hfind))
    rw [List.map_reverse]
    exact (List.reverse_perm _).nodup_iff.2 h

theorem insertAll_append (m : OrderedMap κ ν) (pairs more : List (κ × ν)) :
    m.insertAll (pairs ++ more) = (m.insertAll pairs).insertAll more :=
  List.foldl_append

theorem get?_insertAll (k : κ) : ∀ (pairs : List (κ × ν)) (m : OrderedMap κ ν),
    (m.insertAll pairs).get? k = (find k pairs.reverse).or (m.get? k)
  | [], _ => rfl
  | (a, b) :: pairs, m => by
    have hpairs : (m.insertAll ((a, b) :: pairs)).get? k = ((m.insert a b).insertAll pairs).get? k := rfl
    rw [hpairs, get?_insertAll k pairs, List.reverse_cons, find_append, Option.or_assoc, get?_insert]
    by_cases hk : k = a
    · simp [find, hk]
    · simp [find, hk, Ne.symm hk]

/-- **The last pair of a key counts.** -/
theorem get?_ofList (k : κ) (pairs : List (κ × ν)) : (ofList pairs).get? k = find k pairs.reverse := by
  unfold ofList
  rw [get?_insertAll, get?_empty, Option.or_none]

theorem mem_of_mem_ofList {p : κ × ν} {pairs : List (κ × ν)} (h : p ∈ (ofList pairs).toList) : p ∈ pairs := by
  have hget : (ofList pairs).get? p.1 = some p.2 := (get?_eq_some_iff _ _ _).2 h
  rw [get?_ofList] at hget
  exact List.mem_reverse.1 (mem_of_find hget)

end OrderedMap
end Argot
