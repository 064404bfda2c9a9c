import StacksPrune.Network
import Mathlib.Algebra.Order.Field.Rat
import Mathlib.Algebra.BigOperators.Group.List
import Mathlib.Tactic.Linarith
import Mathlib.Tactic.NormNum

/-!
# The two weighted samplers

`sample_org_by_neighbor_count` (lines 160-180) sums the counts on `usize`, draws `s` uniformly
from `[0, total)` and walks the weight map, returning the organization whose interval
`[offset, offset + count)` holds `s`.  The sum is checked: counts that add up past `2^64`
panic (`sampleOrgByNeighborCount_overflows`).  Below that, every draw finds an organization
and each organization owns exactly `count` draws (`sampleOrgByNeighborCount_exact`), so it is
chosen with probability `count / total`.

`sample_drop_probability` (lines 61-80) builds cumulative `f64` thresholds and returns the first
key whose threshold is `≤` the point.  `F64` reads the finite values exactly and keeps the
infinities and NaN that a zero sum makes.  With a positive sum the thresholds increase, so the
test is decided by the first threshold alone: the first key is returned above it and the last
key below it (`sampleDropProbability_eq`), and no key in between is ever returned
(`sampleDropProbability_never_middle`).  With every weight zero each threshold is NaN and the
last key is returned (`sampleDropProbability_of_zero`).  The function has no caller in the
excerpt.
-/

namespace StacksPrune

/-! ### Sampling an organization by neighbor count -/

/-- The loop of lines 162-165: the counts summed on `usize`.  `none` is the panic when the sum
overflows. -/
def weightTotal (org_weights : List (UInt32 × Nat)) : Option Nat :=
  org_weights.foldlM (fun total e => checkedAdd total e.2) 0

/-- The walk of lines 168-178 over the weight map in iteration order, for the draw `sample`,
from the running `offset`.  `offset + count` is a `usize` sum, computed in the test of line 174
or at line 177.  `none` is its overflow or the `unreachable!()` of line 179. -/
def sampleWalk : List (UInt32 × Nat) → Nat → Nat → Option UInt32
  | [], _, _ => none
  | (org, count) :: rest, sample, offset =>
    if count = 0 then sampleWalk rest sample offset
    else match checkedAdd offset count with
      | none => none
      | some next =>
        if offset ≤ sample ∧ sample < next then some org
        else sampleWalk rest sample next

/-- `sample_org_by_neighbor_count(org_weights)` over the entries of `org_weights` in iteration
order, where `gen_range n` is the value of `thread_rng().gen_range(0, n)`.  `none` is a panic:
the `usize` total overflows, `gen_range` meets the empty range when the counts sum to `0`, or
the walk panics. -/
def sampleOrgByNeighborCount (org_weights : List (UInt32 × Nat)) (gen_range : Nat → Nat) :
    Option UInt32 :=
  match weightTotal org_weights with
  | none => none
  | some total => if total = 0 then none else sampleWalk org_weights (gen_range total) 0

lemma checkedAdd_of_lt {a b : Nat} (h : a + b < 2 ^ 64) : checkedAdd a b = some (a + b) :=
  if_pos h

lemma foldlM_checkedAdd (l : List (UInt32 × Nat)) :
    ∀ t, t < 2 ^ 64 → l.foldlM (fun total e => checkedAdd total e.2) t =
      if t + (l.map Prod.snd).sum < 2 ^ 64 then some (t + (l.map Prod.snd).sum) else none := by
  induction l with
  | nil => intro t ht; rw [List.map_nil, List.sum_nil, Nat.add_zero, if_pos ht]; rfl
  | cons e l ih =>
    intro t ht
    simp only [List.foldlM_cons, List.map_cons, List.sum_cons]
    by_cases h : t + e.2 < 2 ^ 64
    · rw [checkedAdd_of_lt h, Option.bind_eq_bind, Option.some_bind, ih _ h, Nat.add_assoc]
    · rw [show checkedAdd t e.2 = none from if_neg h, if_neg (by omega)]
      rfl

/-- The total is the sum of the counts when it fits in a `usize`, and a panic otherwise. -/
lemma weightTotal_eq (org_weights : List (UInt32 × Nat)) :
    weightTotal org_weights = if (org_weights.map Prod.snd).sum < 2 ^ 64
      then some (org_weights.map Prod.snd).sum else none := by
  simpa using foldlM_checkedAdd org_weights 0 (Nat.two_pow_pos 64)

/-- With a total that fits, the function is the walk for the draw. -/
lemma sampleOrgByNeighborCount_of_fit {org_weights : List (UInt32 × Nat)} {gen_range : Nat → Nat}
    (h_pos : 0 < (org_weights.map Prod.snd).sum) (h_fit : (org_weights.map Prod.snd).sum < 2 ^ 64) :
    sampleOrgByNeighborCount org_weights gen_range =
      sampleWalk org_weights (gen_range (org_weights.map Prod.snd).sum) 0 := by
  rw [sampleOrgByNeighborCount, weightTotal_eq, if_pos h_fit]
  exact if_neg (Nat.pos_iff_ne_zero.1 h_pos)

/-- Counts of `2^64 - 1` and `1`: the `usize` total overflows, and every draw panics. -/
theorem sampleOrgByNeighborCount_overflows :
    ([((1 : UInt32), 2 ^ 64 - 1), (2, 1)].map Prod.fst).Nodup ∧
      0 < ([((1 : UInt32), 2 ^ 64 - 1), (2, 1)].map Prod.snd).sum ∧
      ∀ s, sampleOrgByNeighborCount [(1, 2 ^ 64 - 1), (2, 1)] (fun _ => s) = none :=
  ⟨by decide, by decide, fun _ => rfl⟩

/-- The number of draws an organization owns: its count, summed over its entries. -/
def orgWeight (org_weights : List (UInt32 × Nat)) (o : UInt32) : Nat :=
  ((org_weights.filter fun e => e.1 = o).map Prod.snd).sum

@[simp] lemma orgWeight_nil (o : UInt32) : orgWeight [] o = 0 := rfl

@[simp] lemma orgWeight_cons (org o : UInt32) (count : Nat) (rest : List (UInt32 × Nat)) :
    orgWeight ((org, count) :: rest) o = (if org = o then count else 0) + orgWeight rest o := by
  by_cases h : org = o <;> simp [orgWeight, List.filter_cons, h]

lemma orgWeight_eq_lookup {org_weights : List (UInt32 × Nat)}
    (h : (org_weights.map Prod.fst).Nodup) (o : UInt32) :
    orgWeight org_weights o = (org_weights.lookup o).getD 0 := by
  induction org_weights with
  | nil => rfl
  | cons e rest ih =>
    obtain ⟨org, count⟩ := e
    simp only [List.map_cons, List.nodup_cons, List.mem_map, not_exists, not_and] at h
    by_cases ho : o = org
    · subst ho
      have : orgWeight rest o = 0 := by
        rw [ih h.2, (List.lookup_eq_none_iff.2 fun e he => bne_iff_ne.2 fun h' =>
          h.1 e he h'.symm)]
        rfl
      simp [this]
    · simp [ih h.2, List.lookup_cons, beq_eq_false_iff_ne.2 ho, Ne.symm ho]

/-- The walk returns an organization with a nonzero count. -/
theorem sampleWalk_mem {l : List (UInt32 × Nat)} {sample offset : Nat} {o : UInt32}
    (h : sampleWalk l sample offset = some o) : ∃ count, (o, count) ∈ l ∧ 0 < count := by
  induction l generalizing offset with
  | nil => simp [sampleWalk] at h
  | cons e rest ih =>
    obtain ⟨org, count⟩ := e
    simp only [sampleWalk] at h
    split_ifs at h with h0
    · obtain ⟨c, hc, hpos⟩ := ih h
      exact ⟨c, List.mem_cons_of_mem _ hc, hpos⟩
    · split at h
      · cases h
      · split_ifs at h
        · cases h
          exact ⟨count, List.mem_cons_self _ _, Nat.pos_of_ne_zero h0⟩
        · obtain ⟨c, hc, hpos⟩ := ih h
          exact ⟨c, List.mem_cons_of_mem _ hc, hpos⟩

/-- While the offset and the counts left fit in a `usize`, the walk's step past a nonzero count
is an exact sum. -/
lemma sampleWalk_cons_of_fit {org : UInt32} {count : Nat} {rest : List (UInt32 × Nat)}
    {sample offset : Nat} (h0 : count ≠ 0)
    (hfit : offset + (((org, count) :: rest).map Prod.snd).sum < 2 ^ 64) :
    sampleWalk ((org, count) :: rest) sample offset =
      if offset ≤ sample ∧ sample < offset + count then some org
      else sampleWalk rest sample (offset + count) := by
  simp only [List.map_cons, List.sum_cons] at hfit
  rw [sampleWalk, if_neg h0, checkedAdd_of_lt (by omega)]

/-- Every draw below the total finds an organization. -/
lemma sampleWalk_isSome (l : List (UInt32 × Nat)) {sample offset : Nat} (h1 : offset ≤ sample)
    (h2 : sample < offset + (l.map Prod.snd).sum)
    (hfit : offset + (l.map Prod.snd).sum < 2 ^ 64) : (sampleWalk l sample offset).isSome := by
  induction l generalizing offset with
  | nil => simp at h2; omega
  | cons e rest ih =>
    obtain ⟨org, count⟩ := e
    simp only [List.map_cons, List.sum_cons] at h2
    by_cases h0 : count = 0
    · subst h0
      simp only [List.map_cons, List.sum_cons, Nat.zero_add] at hfit
      rw [sampleWalk, if_pos rfl]
      exact ih h1 (by omega) hfit
    · rw [sampleWalk_cons_of_fit h0 hfit]
      simp only [List.map_cons, List.sum_cons] at hfit
      split_ifs with h3
      · rfl
      · exact ih (by omega) (by omega) (by omega)

/-- Of the draws in `[offset, offset + total)`, an organization owns exactly its weight. -/
lemma sampleWalk_count (l : List (UInt32 × Nat)) (offset : Nat) (o : UInt32)
    (hfit : offset + (l.map Prod.snd).sum < 2 ^ 64) :
    ((List.range' offset (l.map Prod.snd).sum).filter
      fun s => sampleWalk l s offset = some o).length = orgWeight l o := by
  induction l generalizing offset with
  | nil => rfl
  | cons e rest ih =>
    obtain ⟨org, count⟩ := e
    have hstep : ∀ s, sampleWalk ((org, count) :: rest) s offset =
        if offset ≤ s ∧ s < offset + count then some org
        else sampleWalk rest s (offset + count) := fun s => by
      by_cases h0 : count = 0
      · subst h0; rw [sampleWalk, if_pos rfl, if_neg (by omega), Nat.add_zero]
      · exact sampleWalk_cons_of_fit h0 hfit
    simp only [List.map_cons, List.sum_cons, orgWeight_cons] at hfit ⊢
    rw [Nat.add_comm count, ← List.range'_append_1, List.filter_append, List.length_append]
    have hlow : ((List.range' offset count).filter
        fun s => sampleWalk ((org, count) :: rest) s offset = some o).length =
        if org = o then count else 0 := by
      rw [List.filter_congr fun s hs => show decide (sampleWalk ((org, count) :: rest) s offset =
          some o) = decide (org = o) by
        rw [List.mem_range'_1] at hs
        simp [hstep, hs.1, hs.2]]
      split_ifs with ho <;> simp [ho]
    have hhigh : ((List.range' (offset + count) (rest.map Prod.snd).sum).filter
        fun s => sampleWalk ((org, count) :: rest) s offset = some o) =
        (List.range' (offset + count) (rest.map Prod.snd).sum).filter
          fun s => sampleWalk rest s (offset + count) = some o :=
      List.filter_congr fun s hs => by
        rw [List.mem_range'_1] at hs
        simp [hstep, show ¬ s < offset + count by omega]
    rw [hlow, hhigh, ih _ (by omega)]

/-- A weight map with distinct organizations and a positive total that fits in a `usize`: every
draw in `[0, total)` returns an organization, and each organization is returned by exactly as
many draws as its count. -/
theorem sampleOrgByNeighborCount_exact (org_weights : List (UInt32 × Nat))
    (h_nodup : (org_weights.map Prod.fst).Nodup) (h_pos : 0 < (org_weights.map Prod.snd).sum)
    (h_fit : (org_weights.map Prod.snd).sum < 2 ^ 64) :
    (∀ s < (org_weights.map Prod.snd).sum,
        ∃ o, sampleOrgByNeighborCount org_weights (fun _ => s) = some o) ∧
      ∀ o, ((List.range (org_weights.map Prod.snd).sum).filter
          fun s => sampleOrgByNeighborCount org_weights (fun _ => s) = some o).length =
        (org_weights.lookup o).getD 0 := by
  have hsample : ∀ s, sampleOrgByNeighborCount org_weights (fun _ => s) =
      sampleWalk org_weights s 0 := fun s => sampleOrgByNeighborCount_of_fit h_pos h_fit
  refine ⟨fun s hs => ?_, fun o => ?_⟩
  · rw [hsample]
    exact Option.isSome_iff_exists.1
      (sampleWalk_isSome _ (Nat.zero_le s) (by omega) (by omega))
  · simp only [hsample, List.range_eq_range']
    rw [sampleWalk_count _ _ _ (by omega), orgWeight_eq_lookup h_nodup]

theorem sampleOrgByNeighborCount_exact_one_three :
    ([(1, 1), (2, 3)].map Prod.fst : List UInt32).Nodup ∧
      0 < ([((1 : UInt32), 1), (2, 3)].map Prod.snd).sum ∧
      ([((1 : UInt32), 1), (2, 3)].map Prod.snd).sum < 2 ^ 64 ∧
      ((∀ s < ([((1 : UInt32), 1), (2, 3)].map Prod.snd).sum,
        ∃ o, sampleOrgByNeighborCount [(1, 1), (2, 3)] (fun _ => s) = some o) ∧
      ∀ o, ((List.range ([((1 : UInt32), 1), (2, 3)].map Prod.snd).sum).filter
          fun s => sampleOrgByNeighborCount [(1, 1), (2, 3)] (fun _ => s) = some o).length =
        ([((1 : UInt32), 1), (2, 3)].lookup o).getD 0) :=
  ⟨by decide, by decide, by decide,
    sampleOrgByNeighborCount_exact _ (by decide) (by decide) (by decide)⟩

/-- The organization a panic-free draw returns has a positive count in the map. -/
theorem sampleOrgByNeighborCount_mem {org_weights : List (UInt32 × Nat)}
    {gen_range : Nat → Nat} {o : UInt32}
    (h : sampleOrgByNeighborCount org_weights gen_range = some o) :
    ∃ count, (o, count) ∈ org_weights ∧ 0 < count := by
  unfold sampleOrgByNeighborCount at h
  split at h
  · cases h
  · split_ifs at h
    exact sampleWalk_mem h

/-- A draw below a positive total that fits in a `usize` never panics. -/
theorem sampleOrgByNeighborCount_isSome {org_weights : List (UInt32 × Nat)}
    {gen_range : Nat → Nat} (h_pos : 0 < (org_weights.map Prod.snd).sum)
    (h_fit : (org_weights.map Prod.snd).sum < 2 ^ 64)
    (h_lt : gen_range (org_weights.map Prod.snd).sum < (org_weights.map Prod.snd).sum) :
    (sampleOrgByNeighborCount org_weights gen_range).isSome := by
  rw [sampleOrgByNeighborCount_of_fit h_pos h_fit]
  exact sampleWalk_isSome _ (Nat.zero_le _) (by omega) (by omega)

/-! ### Sampling a drop probability -/

/-- An `f64` whose finite values are read as exact rationals, together with the values that a
division by zero makes: an infinity of either sign (`neg` is the sign bit), and NaN. -/
inductive F64
  | num (q : ℚ)
  | inf (neg : Bool)
  | nan
deriving DecidableEq

namespace F64

/-- IEEE addition: NaN absorbs everything, infinities of opposite signs give NaN, and an infinity
absorbs a finite value. -/
def add : F64 → F64 → F64
  | num a, num b => num (a + b)
  | nan, _ => nan
  | _, nan => nan
  | inf s, inf t => if s = t then inf s else nan
  | inf s, num _ => inf s
  | num _, inf t => inf t

/-- `v / sum` for finite operands.  A zero divisor gives the infinity of `v`'s sign, and NaN for
`0 / 0`; the divisor is never `-0.0`, since it is a sum started at `0.0`. -/
def divNum (v sum : ℚ) : F64 :=
  if sum = 0 then (if v = 0 then nan else inf (decide (v < 0))) else num (v / sum)

/-- `point >= p` for a finite `point`: false against NaN and `+∞`, true against `-∞`. -/
def ge (point : ℚ) : F64 → Bool
  | num q => decide (q ≤ point)
  | inf neg => neg
  | nan => false

@[simp] lemma num_add_num (a b : ℚ) : (num a).add (num b) = num (a + b) := rfl

@[simp] lemma nan_add (x : F64) : nan.add x = nan := by cases x <;> rfl

lemma divNum_of_ne {v sum : ℚ} (h : sum ≠ 0) : divNum v sum = num (v / sum) := if_neg h

@[simp] lemma divNum_zero_zero : divNum 0 0 = nan := rfl

end F64

/-- The thresholds of lines 69-72: the entry `(k, v)` gets `v / sum + off`, then `off` grows
by `v / sum`. -/
def normalizedDist (sum : ℚ) : List (NeighborKey × ℚ) → F64 → List (NeighborKey × F64)
  | [], _ => []
  | (k, v) :: rest, off =>
    (k, (F64.divNum v sum).add off) :: normalizedDist sum rest (off.add (F64.divNum v sum))

/-- `sample_drop_probability(point, drop_prob)` over the entries of `drop_prob` in iteration
order, with the `f64` arithmetic read exactly apart from division by zero.  `none` is the panic
of `normalized_dist[normalized_dist.len()-1]` on an empty map. -/
def sampleDropProbability (point : ℚ) (drop_prob : List (NeighborKey × ℚ)) :
    Option NeighborKey :=
  let sum := (drop_prob.map Prod.snd).sum
  let normalized_dist := normalizedDist sum drop_prob (.num 0)
  match normalized_dist.find? fun e => F64.ge point e.2 with
  | some (nk, _) => some nk
  | none => normalized_dist.getLast?.map Prod.fst

/-- With a positive sum and weights that are not negative, every threshold is finite and at
least the offset it starts from. -/
lemma normalizedDist_ge {sum : ℚ} (hsum : 0 < sum) :
    ∀ (l : List (NeighborKey × ℚ)) (off : ℚ), (∀ e ∈ l, 0 ≤ e.2) →
      ∀ e ∈ normalizedDist sum l (.num off), ∃ q, e.2 = .num q ∧ off ≤ q
  | [], _, _, e, he => by simp [normalizedDist] at he
  | (k, v) :: rest, off, hl, e, he => by
    have hv : 0 ≤ v / sum := div_nonneg (hl (k, v) (List.mem_cons_self _ _)) hsum.le
    simp only [normalizedDist, F64.divNum_of_ne hsum.ne', F64.num_add_num, List.mem_cons] at he
    rcases he with rfl | he
    · exact ⟨_, rfl, by linarith⟩
    · obtain ⟨q, hq, hle⟩ := normalizedDist_ge hsum rest (off + v / sum)
        (fun e he => hl e (List.mem_cons_of_mem _ he)) e he
      exact ⟨q, hq, by linarith⟩

/-- With every weight zero, every threshold is NaN. -/
lemma normalizedDist_nan_of_zero :
    ∀ (l : List (NeighborKey × ℚ)) (off : F64), (∀ e ∈ l, e.2 = 0) →
      ∀ e ∈ normalizedDist 0 l off, e.2 = .nan
  | [], _, _, e, he => by simp [normalizedDist] at he
  | (k, v) :: rest, off, hl, e, he => by
    obtain rfl : v = 0 := hl (k, v) (List.mem_cons_self _ _)
    simp only [normalizedDist, F64.divNum_zero_zero, F64.nan_add, List.mem_cons] at he
    rcases he with rfl | he
    · rfl
    · exact normalizedDist_nan_of_zero rest _ (fun e he => hl e (List.mem_cons_of_mem _ he)) e he

lemma normalizedDist_map_fst (sum : ℚ) :
    ∀ (l : List (NeighborKey × ℚ)) (off : F64),
      (normalizedDist sum l off).map Prod.fst = l.map Prod.fst
  | [], _ => rfl
  | (k, v) :: rest, off => by
    simp [normalizedDist, normalizedDist_map_fst sum rest]

lemma normalizedDist_getLast?_fst (sum : ℚ) (l : List (NeighborKey × ℚ)) (off : F64) :
    (normalizedDist sum l off).getLast?.map Prod.fst = l.getLast?.map Prod.fst := by
  rw [← List.getLast?_map, ← List.getLast?_map, normalizedDist_map_fst]

/-- With weights that are not negative and a positive sum, the first key is returned at or
above its normalized weight, and the last key below it. -/
theorem sampleDropProbability_eq (point : ℚ) (k : NeighborKey) (v : ℚ)
    (rest : List (NeighborKey × ℚ)) (h_nonneg : ∀ e ∈ (k, v) :: rest, 0 ≤ e.2)
    (h_sum : 0 < (((k, v) :: rest).map Prod.snd).sum) :
    sampleDropProbability point ((k, v) :: rest) =
      if v / (((k, v) :: rest).map Prod.snd).sum ≤ point then some k
      else (((k, v) :: rest).getLast?).map Prod.fst := by
  set sum := (((k, v) :: rest).map Prod.snd).sum with hsum_def
  unfold sampleDropProbability
  simp only [← hsum_def]
  split_ifs with hp
  · simp [normalizedDist, F64.divNum_of_ne h_sum.ne', F64.ge, hp]
  · have hnone : (normalizedDist sum ((k, v) :: rest) (.num 0)).find?
        (fun e => F64.ge point e.2) = none := by
      rw [List.find?_eq_none]
      intro e he
      obtain ⟨q, hq, hle⟩ := normalizedDist_ge h_sum ((k, v) :: rest) 0 h_nonneg e he
      simp only [normalizedDist, F64.divNum_of_ne h_sum.ne', F64.num_add_num, List.mem_cons] at he
      rcases he with rfl | he
      · simpa [F64.ge] using hp
      · obtain ⟨q', hq', hle'⟩ := normalizedDist_ge h_sum rest (0 + v / sum)
          (fun e he => h_nonneg e (List.mem_cons_of_mem _ he)) e he
        simp only [hq', F64.ge, decide_eq_true_eq, not_le]
        linarith [not_le.1 hp]
    rw [hnone, normalizedDist_getLast?_fst]

/-- With every weight zero, every threshold is `0 / 0`, which no point reaches: the last key is
returned whatever the point. -/
theorem sampleDropProbability_of_zero (point : ℚ) (drop_prob : List (NeighborKey × ℚ))
    (h_zero : ∀ e ∈ drop_prob, e.2 = 0) :
    sampleDropProbability point drop_prob = drop_prob.getLast?.map Prod.fst := by
  have hsum : (drop_prob.map Prod.snd).sum = 0 :=
    List.sum_eq_zero fun x hx => by
      obtain ⟨e, he, rfl⟩ := List.mem_map.1 hx
      exact h_zero e he
  have hnone : (normalizedDist 0 drop_prob (.num 0)).find? (fun e => F64.ge point e.2) = none :=
    List.find?_eq_none.2 fun e he => by
      rw [normalizedDist_nan_of_zero drop_prob _ h_zero e he]
      exact Bool.false_ne_true
  unfold sampleDropProbability
  simp only [hsum, hnone, normalizedDist_getLast?_fst]

/-- Three keys of equal weight. -/
def dropKeys : List NeighborKey :=
  [1, 2, 3].map fun port => ⟨0, ⟨List.replicate 16 0, rfl⟩, port⟩

/-- The drop map `{k₁: 1, k₂: 1, k₃: 1}`. -/
def dropThree : List (NeighborKey × ℚ) := dropKeys.map fun k => (k, 1)

/-- On three keys of equal weight the middle key is returned for no point at all, where a
sampler proportional to the weights returns it on a third of `[0, 1)`. -/
theorem sampleDropProbability_never_middle :
    dropKeys.Nodup ∧ ∀ point : ℚ, sampleDropProbability point dropThree ≠ some (dropKeys.get ⟨1, by decide⟩) := by
  refine ⟨by decide, fun point => ?_⟩
  rw [show dropThree = (dropKeys.get ⟨0, by decide⟩, 1) ::
    [(dropKeys.get ⟨1, by decide⟩, 1), (dropKeys.get ⟨2, by decide⟩, 1)] from rfl,
    sampleDropProbability_eq _ _ _ _ (by simp) (by norm_num)]
  split_ifs <;> simp <;> decide

end StacksPrune
