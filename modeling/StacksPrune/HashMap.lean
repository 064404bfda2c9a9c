import Mathlib.Data.List.Sort
import Mathlib.Data.List.Nodup

/-!
# Rust hash maps as entry lists

The pruning pass of `net/prune.rs` reads and builds `std::collections::HashMap`s: the
connection table (`events`, `peers`), the two classifications it builds (organization →
neighbors, IP address → clients), the per-pass weight map of the sampler and the two eviction
counters.  A map is modelled by its entries **in iteration order**, with distinct keys as a
field of the structure, so that no map with a repeated key can be built.

Rust does not specify the iteration order of a map it builds, and neither does the model:
`HashMap.reorder` applies an order chosen from outside (`Oracle` in `StacksPrune.Network`),
and every result of this development holds for every such order.  Inserting under a key that
is present replaces the value in place, as `get_mut` does, and does not move the entry.
-/

namespace StacksPrune

/-- A `HashMap<κ, ν>`, by its entries in the order in which `iter()` visits them. -/
structure HashMap (κ ν : Type) where
  /-- The entries, in iteration order. -/
  entries : List (κ × ν)
  /-- A key has at most one entry. -/
  nodup : (entries.map Prod.fst).Nodup

namespace HashMap

variable {κ ν : Type} [DecidableEq κ]

/-- `HashMap::new()`. -/
def empty : HashMap κ ν := ⟨[], List.nodup_nil⟩

/-- `keys()`, in iteration order. -/
def keys (m : HashMap κ ν) : List κ := m.entries.map Prod.fst

/-- `get(&k)`. -/
def get (m : HashMap κ ν) (k : κ) : Option ν := m.entries.lookup k

/-- `contains_key(&k)`. -/
def containsKey (m : HashMap κ ν) (k : κ) : Bool := (m.get k).isSome

lemma keys_map_replace (l : List (κ × ν)) (k : κ) (v : ν) :
    (l.map fun e => if e.1 = k then (k, v) else e).map Prod.fst = l.map Prod.fst := by
  induction l with
  | nil => rfl
  | cons e l ih => by_cases h : e.1 = k <;> simp [h, ih]

lemma not_mem_keys_of_get_eq_none {m : HashMap κ ν} {k : κ} (h : m.get k = none) :
    k ∉ m.keys := by
  simp only [get, List.lookup_eq_none_iff, bne_iff_ne, ne_eq] at h
  simp only [keys, List.mem_map, not_exists, not_and]
  exact fun e he hk => h e he hk.symm

/-- `insert(k, v)`: in place when `k` is present, otherwise a new last entry. -/
def insert (m : HashMap κ ν) (k : κ) (v : ν) : HashMap κ ν :=
  match h : m.get k with
  | some _ => ⟨m.entries.map fun e => if e.1 = k then (k, v) else e,
      (keys_map_replace m.entries k v).symm ▸ m.nodup⟩
  | none => ⟨m.entries ++ [(k, v)], by
      rw [List.map_append]
      exact List.nodup_append.2 ⟨m.nodup, List.nodup_singleton _,
        List.disjoint_singleton.2 (not_mem_keys_of_get_eq_none h)⟩⟩

/-- `retain(p)`: the entries that satisfy `p`, in their order. -/
def retain (m : HashMap κ ν) (p : κ → ν → Bool) : HashMap κ ν :=
  ⟨m.entries.filter fun e => p e.1 e.2, ((List.filter_sublist _).map _).nodup m.nodup⟩

/-- `remove(&k)`. -/
def remove (m : HashMap κ ν) (k : κ) : HashMap κ ν := m.retain fun k' _ => k' ≠ k

/-- The same map visited in the order `σ` chooses, which may be any permutation. -/
def reorder (m : HashMap κ ν) (σ : List (κ × ν) → List (κ × ν)) (hσ : ∀ l, (σ l).Perm l) :
    HashMap κ ν :=
  ⟨σ m.entries, ((hσ _).map Prod.fst).nodup_iff.2 m.nodup⟩

/-! ### Lookup -/

lemma lookup_eq_some_iff_mem {l : List (κ × ν)} (hl : (l.map Prod.fst).Nodup) {k : κ} {v : ν} :
    l.lookup k = some v ↔ (k, v) ∈ l := by
  induction l with
  | nil => simp
  | cons e l ih =>
    obtain ⟨k', v'⟩ := e
    simp only [List.map_cons, List.nodup_cons, List.mem_map, not_exists, not_and] at hl
    by_cases hk : k = k'
    · subst hk
      simp only [List.lookup_cons_self, Option.some.injEq, List.mem_cons, Prod.mk.injEq,
        true_and]
      exact ⟨fun h => .inl h.symm, fun h => h.elim Eq.symm fun h' => absurd rfl (hl.1 _ h')⟩
    · simp [List.lookup_cons, beq_eq_false_iff_ne.2 hk, hk, ih hl.2]

theorem get_eq_some_iff (m : HashMap κ ν) {k : κ} {v : ν} :
    m.get k = some v ↔ (k, v) ∈ m.entries :=
  lookup_eq_some_iff_mem m.nodup

/-- A key has one value. -/
theorem eq_of_mem_entries {m : HashMap κ ν} {k : κ} {v v' : ν} (h : (k, v) ∈ m.entries)
    (h' : (k, v') ∈ m.entries) : v = v' :=
  Option.some.inj (((get_eq_some_iff m).2 h).symm.trans ((get_eq_some_iff m).2 h'))

theorem get_eq_none_iff (m : HashMap κ ν) {k : κ} : m.get k = none ↔ k ∉ m.keys := by
  refine ⟨not_mem_keys_of_get_eq_none, fun h => ?_⟩
  simp only [get, List.lookup_eq_none_iff, bne_iff_ne, ne_eq]
  exact fun e he hk => h (List.mem_map.2 ⟨e, he, hk.symm⟩)

/-- Two maps with the same entries up to order agree on every key. -/
theorem get_eq_of_perm {m m' : HashMap κ ν} (h : m.entries.Perm m'.entries) (k : κ) :
    m.get k = m'.get k :=
  Option.ext fun v => by simp only [Option.mem_def, get_eq_some_iff, h.mem_iff]

@[simp] theorem get_empty (k : κ) : (empty : HashMap κ ν).get k = none := rfl

@[simp] theorem get_reorder (m : HashMap κ ν) (σ : List (κ × ν) → List (κ × ν))
    (hσ : ∀ l, (σ l).Perm l) (k : κ) : (m.reorder σ hσ).get k = m.get k :=
  get_eq_of_perm (hσ _) k

lemma lookup_map_replace (l : List (κ × ν)) (k : κ) (v : ν) (j : κ) :
    (l.map fun e => if e.1 = k then (k, v) else e).lookup j =
      if j = k then (l.lookup k).map fun _ => v else l.lookup j := by
  induction l with
  | nil => simp
  | cons e l ih =>
    obtain ⟨k', v'⟩ := e
    by_cases hj : j = k <;> by_cases hk : k' = k <;>
      simp_all [List.lookup_cons, beq_eq_false_iff_ne.2, Ne.symm]

@[simp] theorem get_insert (m : HashMap κ ν) (k : κ) (v : ν) (j : κ) :
    (m.insert k v).get j = if j = k then some v else m.get j := by
  unfold insert
  split
  · next w hw =>
    simp only [get] at hw ⊢
    rw [lookup_map_replace, hw]
    rfl
  · next hn =>
    simp only [get] at hn ⊢
    by_cases hj : j = k
    · subst hj; simp [List.lookup_append, hn]
    · simp [List.lookup_append, List.lookup_cons, beq_eq_false_iff_ne.2 hj, hj]

theorem get_insert_of_ne (m : HashMap κ ν) (v : ν) {j k : κ} (h : j ≠ k) :
    (m.insert k v).get j = m.get j := by
  rw [get_insert, if_neg h]

@[simp] theorem get_retain (m : HashMap κ ν) (p : κ → ν → Bool) (k : κ) :
    (m.retain p).get k = (m.get k).filter (p k) := by
  refine Option.ext fun v => ?_
  simp only [Option.mem_def, Option.filter_eq_some, get_eq_some_iff]
  simp [retain]

@[simp] theorem keys_insert_of_mem (m : HashMap κ ν) {k : κ} (hk : k ∈ m.keys) (v : ν) :
    (m.insert k v).keys = m.keys := by
  unfold insert
  split
  · exact keys_map_replace _ _ _
  · next hn => exact absurd hk ((get_eq_none_iff m).1 hn)

theorem mem_keys_iff (m : HashMap κ ν) {k : κ} : k ∈ m.keys ↔ (m.get k).isSome := by
  rw [← not_iff_not, ← get_eq_none_iff]
  simp

omit [DecidableEq κ] in
theorem keys_nodup (m : HashMap κ ν) : m.keys.Nodup := m.nodup

/-- A function of the value at each key, over the keys, is that function over the entries. -/
theorem map_get_keys {α : Type} (m : HashMap κ ν) (f : Option ν → α) :
    m.keys.map (fun k => f (m.get k)) = m.entries.map fun e => f (some e.2) := by
  rw [keys, List.map_map]
  exact List.map_congr_left fun e he => congrArg f ((get_eq_some_iff m).2 he)

/-- A loop over the entries that yields something only at the entry of `k` yields what that
entry gives. -/
theorem flatMap_entries_eq_get {β : Type} (m : HashMap κ ν) (k : κ) (g : ν → List β) :
    (m.entries.flatMap fun e => if e.1 = k then g e.2 else []) = ((m.get k).map g).getD [] := by
  obtain ⟨l, hl⟩ := m
  simp only [get]
  induction l with
  | nil => rfl
  | cons e l ih =>
    obtain ⟨k', v⟩ := e
    simp only [List.map_cons, List.nodup_cons] at hl
    rw [List.flatMap_cons, ih hl.2]
    by_cases h : k' = k
    · subst h
      have hn : l.lookup k' = none := (get_eq_none_iff ⟨l, hl.2⟩).2 hl.1
      simp [hn]
    · simp [List.lookup_cons, h, beq_eq_false_iff_ne.2 (Ne.symm h)]

/-- `iter_mut()` applying `f` to every value: the entries keep their keys and their order. -/
def mapValues {ν' : Type} (m : HashMap κ ν) (f : ν → ν') : HashMap κ ν' :=
  ⟨m.entries.map fun e => (e.1, f e.2), by rw [List.map_map]; exact m.nodup⟩

lemma lookup_map_values {ν' : Type} (f : ν → ν') (k : κ) :
    ∀ l : List (κ × ν), (l.map fun e => (e.1, f e.2)).lookup k = (l.lookup k).map f
  | [] => rfl
  | (k', v) :: l => by
    by_cases h : k = k'
    · subst h
      simp [List.lookup_cons]
    · simp [List.lookup_cons, beq_eq_false_iff_ne.2 h, lookup_map_values f k l]

@[simp] theorem get_mapValues {ν' : Type} (m : HashMap κ ν) (f : ν → ν') (k : κ) :
    (m.mapValues f).get k = (m.get k).map f :=
  lookup_map_values f k m.entries

/-! ### Maps of lists

The classifications are maps whose values are lists; `values` joins them in iteration order. -/

section Lists

variable {α : Type}

/-- All the elements stored in a map of lists, in iteration order. -/
def values (m : HashMap κ (List α)) : List α := m.entries.flatMap Prod.snd

/-- `if m.contains_key(&k) { m.get_mut(&k).unwrap().push(x) } else { m.insert(k, vec![x]) }`,
the idiom by which both classifications grow (lines 112-117 and 296-301). -/
def push (m : HashMap κ (List α)) (k : κ) (x : α) : HashMap κ (List α) :=
  match m.get k with
  | some l => m.insert k (l ++ [x])
  | none => m.insert k [x]

@[simp] theorem get_push (m : HashMap κ (List α)) (k : κ) (x : α) (j : κ) :
    (m.push k x).get j = if j = k then some ((m.get k).getD [] ++ [x]) else m.get j := by
  unfold push
  split <;> simp_all

/-- Replacing the list under a present key replaces it in place in `values`. -/
theorem values_insert (m : HashMap κ (List α)) {k : κ} {l : List α} (hk : m.get k = some l)
    (l' : List α) :
    ∃ pre post, m.values = pre ++ l ++ post ∧ (m.insert k l').values = pre ++ l' ++ post := by
  obtain ⟨s, t, hst, hs⟩ := List.lookup_eq_some_iff.1 hk
  have hs' : ∀ e ∈ s, e.1 ≠ k := fun e he h => by simpa [h] using hs e he
  have ht : ∀ e ∈ t, e.1 ≠ k := by
    have := m.nodup
    rw [hst] at this
    simp only [List.map_append, List.map_cons, List.nodup_append, List.nodup_cons] at this
    exact fun e he h => this.2.1.1 (List.mem_map.2 ⟨e, he, h⟩)
  have hrepl : ∀ u : List (κ × List α), (∀ e ∈ u, e.1 ≠ k) →
      (u.map fun e => if e.1 = k then (k, l') else e) = u := fun u hu =>
    (List.map_congr_left fun e he => if_neg (hu e he)).trans (List.map_id u)
  refine ⟨s.flatMap Prod.snd, t.flatMap Prod.snd, ?_, ?_⟩
  · simp [values, hst]
  · unfold insert
    split
    · simp [values, hst, hrepl s hs', hrepl t ht]
    · next hn => simp [hk] at hn

theorem values_push_perm (m : HashMap κ (List α)) (k : κ) (x : α) :
    (m.push k x).values.Perm (m.values ++ [x]) := by
  unfold push
  split
  · next l hl =>
    obtain ⟨pre, post, h, h'⟩ := values_insert m hl (l ++ [x])
    rw [h, h']
    simp only [List.append_assoc, List.cons_append, List.singleton_append]
    exact ((List.perm_append_singleton x post).symm.append_left l).append_left pre
  · next hn =>
    unfold insert
    split
    · next hs => simp [hn] at hs
    · simp [values]

omit [DecidableEq κ] in
theorem values_mapValues {β : Type} (m : HashMap κ (List α)) (f : List α → List β) :
    (m.mapValues f).values = m.entries.flatMap fun e => f e.2 :=
  List.flatMap_map _ _ _

omit [DecidableEq κ] in
@[simp] theorem values_reorder_perm (m : HashMap κ (List α))
    (σ : List (κ × List α) → List (κ × List α)) (hσ : ∀ l, (σ l).Perm l) :
    (m.reorder σ hσ).values.Perm m.values :=
  (hσ _).flatMap_right _

end Lists

end HashMap

end StacksPrune
