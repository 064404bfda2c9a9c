import StacksPrune.Network

/-!
# Ranking neighbors: the comparator and the sort

`compare_neighbor_uptime_health` (lines 131-157) is meant to order two connections by the
geometric bucket of their uptime, then by health.  Its uptimes are `u64` subtractions
`now - first_contact_time`, which panic when the clock is behind a first contact
(`compareNeighborUptimeHealth_eq_none_iff`).  Its second test reads
`uptime_bucket_1 > uptime_bucket_1`, which never holds, so a pair whose buckets differ in the
other direction falls through to the health scores: the comparator is not the lexicographic
order of (bucket, health), and it is not even antisymmetric
(`compareNeighborUptimeHealth_not_lex`).

`sortBy` is `slice::sort_by`, and `sortByM` the same sort with a comparator that can panic.  A
sort that does not panic gives what `sortBy` gives (`sortByM_eq_some`), and each member is
compared at least once, so the sort of an organization's list panics exactly when it has two
members or more and the clock is behind one of their first contacts
(`sortNeighborInfos_eq_none_iff`).  The inbound pruner's comparator is a total preorder, and for
it `sortBy` sorts (`sortBy_firstContact_sorted`).
-/

namespace StacksPrune

/-! ### The uptime bucket -/

/-- `⌊log₂ n⌋` by halving, at most `fuel` times; `Nat.log2` computed so that `decide` can run
it. -/
def log2Floor : Nat → Nat → Nat
  | 0, _ => 0
  | fuel + 1, n => if 2 ≤ n then log2Floor fuel (n / 2) + 1 else 0

lemma log2Floor_eq_log2 : ∀ (fuel n : Nat), n ≤ fuel → log2Floor fuel n = Nat.log2 n
  | 0, n, h => by rw [Nat.le_zero.1 h, log2Floor, Nat.log2]; simp
  | fuel + 1, n, h => by
    rw [log2Floor, Nat.log2]
    split_ifs with h2
    · rw [log2Floor_eq_log2 fuel (n / 2) (by omega)]
    · rfl

/-- The bucket of an uptime, `fmax!(0.0, uptime.log2().round()) as u64` (line 136) over the
reals: `0` for `uptime = 0`, and otherwise the `b` with `2^(b - 1/2) ≤ uptime < 2^(b + 1/2)`,
that is `⌊log₂ (2 · uptime²)⌋ / 2` (`uptimeBucket_spec`).  The floating-point rounding of
`log2` is not modelled. -/
def uptimeBucket (uptime : Nat) : Nat :=
  log2Floor (2 * uptime * uptime) (2 * uptime * uptime) / 2

/-- The bucket is `round (log₂ uptime)`: `2^(2b) ≤ 2 · uptime² < 2^(2b + 2)`. -/
theorem uptimeBucket_spec {uptime : Nat} (h : 0 < uptime) :
    2 ^ (2 * uptimeBucket uptime) ≤ 2 * uptime * uptime ∧
      2 * uptime * uptime < 2 ^ (2 * uptimeBucket uptime + 2) := by
  have hn : 2 * uptime * uptime ≠ 0 := Nat.mul_ne_zero (Nat.mul_ne_zero two_ne_zero h.ne') h.ne'
  have hlo := Nat.log2_self_le hn
  have hhi := @Nat.lt_log2_self (2 * uptime * uptime)
  rw [uptimeBucket, log2Floor_eq_log2 _ _ le_rfl]
  set L := Nat.log2 (2 * uptime * uptime)
  constructor
  · exact le_trans (Nat.pow_le_pow_right Nat.zero_lt_two (by omega)) hlo
  · exact lt_of_lt_of_le hhi (Nat.pow_le_pow_right Nat.zero_lt_two (by omega))

/-! ### The comparator -/

/-- `compare_neighbor_uptime_health(stats1, stats2)` at the clock value `now`, with its second
test as written.  `none` is the panic of the `u64` subtraction `now - first_contact_time`
(lines 133-134) when the clock is behind a first contact. -/
def compareNeighborUptimeHealth (now : Nat) (stats1 stats2 : NeighborStats) : Option Ordering := do
  let uptime_1 ← checkedSub now stats1.firstContactTime
  let uptime_2 ← checkedSub now stats2.firstContactTime
  let uptime_bucket_1 := uptimeBucket uptime_1
  let uptime_bucket_2 := uptimeBucket uptime_2
  pure <|
    if uptime_bucket_1 < uptime_bucket_2 then .lt
    else if uptime_bucket_1 > uptime_bucket_1 then .gt
    else if stats1.healthScore < stats2.healthScore then .lt
    else if stats1.healthScore > stats2.healthScore then .gt
    else .eq

/-- The comparator panics exactly when the clock is behind one of the two first contacts. -/
theorem compareNeighborUptimeHealth_eq_none_iff {now : Nat} {stats1 stats2 : NeighborStats} :
    compareNeighborUptimeHealth now stats1 stats2 = none ↔
      now < stats1.firstContactTime ∨ now < stats2.firstContactTime := by
  by_cases h1 : stats1.firstContactTime ≤ now <;> by_cases h2 : stats2.firstContactTime ≤ now <;>
    simp [compareNeighborUptimeHealth, checkedSub, h1, h2] <;> omega

/-- The order the comparator is documented to be: by uptime bucket, then by health. -/
def uptimeHealthLex (now : Nat) (stats1 stats2 : NeighborStats) : Ordering :=
  (compare (uptimeBucket (now - stats1.firstContactTime))
      (uptimeBucket (now - stats2.firstContactTime))).then
    (compare stats1.healthScore stats2.healthScore)

/-! ### The sort -/

/-- `slice::sort_by(compare)`.  Rust's stable merge sort runs, on a slice of up to twenty
elements, the insertion sort that inserts `v[i]` into the sorted `v[i+1..]` for `i` from
`len - 2` down to `0`, moving it past every `y` with `compare(y, v[i]) == Less`: this is
`List.insertionSort` with `r x y := compare y x ≠ Less`.  For a comparator that is a total
preorder every stable sort gives this result; longer slices sorted with an inconsistent
comparator may come out in another order in Rust. -/
def sortBy {α : Type} (compare : α → α → Ordering) (v : List α) : List α :=
  v.insertionSort fun x y => compare y x ≠ .lt

theorem sortBy_perm {α : Type} (compare : α → α → Ordering) (v : List α) :
    (sortBy compare v).Perm v :=
  List.perm_insertionSort _ v

/-- One insertion of `sortBy` with a comparator that can panic: `a` moves past every `b` with
`compare(b, a) == Less`, and a panicking comparison ends the sort. -/
def orderedInsertM {α : Type} (compare : α → α → Option Ordering) (a : α) :
    List α → Option (List α)
  | [] => some [a]
  | b :: l => compare b a >>= fun o =>
    if o ≠ .lt then some (a :: b :: l) else (orderedInsertM compare a l).map (b :: ·)

/-- `slice::sort_by(compare)` with a comparator that can panic, making the comparisons of
`sortBy` in the same order. -/
def sortByM {α : Type} (compare : α → α → Option Ordering) : List α → Option (List α)
  | [] => some []
  | a :: l => sortByM compare l >>= orderedInsertM compare a

section SortByM

variable {α : Type} {compare : α → α → Option Ordering}

/-- The comparator that `sortByM` reads when no comparison panics, with a panic read as
`Equal`. -/
def compareOrEq (compare : α → α → Option Ordering) (a b : α) : Ordering :=
  (compare a b).getD .eq

lemma orderedInsertM_eq_some {a : α} :
    ∀ {l s : List α}, orderedInsertM compare a l = some s →
      s = l.orderedInsert (fun x y => compareOrEq compare y x ≠ .lt) a
  | [], s, h => by cases h; rfl
  | b :: l, s, h => by
    simp only [orderedInsertM, Option.bind_eq_bind, Option.bind_eq_some] at h
    obtain ⟨o, ho, h⟩ := h
    simp only [List.orderedInsert, compareOrEq, ho, Option.getD_some]
    split_ifs at h ⊢
    · exact (Option.some.inj h).symm
    · obtain ⟨s', hs', rfl⟩ := Option.map_eq_some'.1 h
      rw [orderedInsertM_eq_some hs']
      rfl

/-- A sort that does not panic gives what `sortBy` gives with the comparisons it made. -/
theorem sortByM_eq_some : ∀ {v s : List α}, sortByM compare v = some s →
    s = sortBy (compareOrEq compare) v
  | [], s, h => by cases h; rfl
  | a :: l, s, h => by
    obtain ⟨s', hs', h⟩ := Option.bind_eq_some.1 h
    rw [orderedInsertM_eq_some h, sortByM_eq_some hs']
    rfl

lemma orderedInsertM_isSome {a : α} :
    ∀ {l : List α}, (∀ b ∈ l, (compare b a).isSome) → (orderedInsertM compare a l).isSome
  | [], _ => rfl
  | b :: l, h => by
    obtain ⟨o, ho⟩ := Option.isSome_iff_exists.1 (h b (List.mem_cons_self _ _))
    simp only [orderedInsertM, ho, Option.bind_eq_bind, Option.some_bind]
    split_ifs
    · rfl
    · rw [Option.isSome_map']
      exact orderedInsertM_isSome fun b hb => h b (List.mem_cons_of_mem _ hb)

/-- A sort whose comparisons among the members never panic does not panic. -/
theorem sortByM_isSome :
    ∀ {v : List α}, (∀ a ∈ v, ∀ b ∈ v, (compare a b).isSome) → (sortByM compare v).isSome
  | [], _ => rfl
  | a :: l, h => by
    obtain ⟨s, hs⟩ := Option.isSome_iff_exists.1
      (sortByM_isSome fun x hx y hy =>
        h x (List.mem_cons_of_mem _ hx) y (List.mem_cons_of_mem _ hy))
    have hperm : s.Perm l := by
      rw [sortByM_eq_some hs]
      exact sortBy_perm _ l
    rw [sortByM, hs, Option.bind_eq_bind, Option.some_bind]
    exact orderedInsertM_isSome fun b hb =>
      h b (List.mem_cons_of_mem _ (hperm.subset hb)) a (List.mem_cons_self _ _)

/-- A member whose every comparison panics makes the sort of two or more members panic: each
member is compared at least once. -/
theorem sortByM_eq_none {x : α} (hbad : ∀ y, compare x y = none ∧ compare y x = none) :
    ∀ {v : List α}, x ∈ v → 2 ≤ v.length → sortByM compare v = none
  | [], hx, _ => absurd hx (List.not_mem_nil _)
  | a :: l, hx, hlen => by
    rw [sortByM]
    cases hs : sortByM compare l with
    | none => rfl
    | some s =>
      have hperm : s.Perm l := by
        rw [sortByM_eq_some hs]
        exact sortBy_perm _ l
      rw [Option.bind_eq_bind, Option.some_bind]
      rcases List.mem_cons.1 hx with rfl | hx
      · rcases s with _ | ⟨b, s'⟩
        · have := hperm.length_eq
          simp only [List.length_nil, List.length_cons] at this hlen
          omega
        · simp [orderedInsertM, (hbad b).2]
      · obtain ⟨c, rfl⟩ : ∃ c, l = [c] := by
          rcases l with _ | ⟨c, _ | ⟨d, l⟩⟩
          · simp at hx
          · exact ⟨c, rfl⟩
          · simp [sortByM_eq_none hbad hx (by simp)] at hs
        obtain rfl : x = c := List.mem_singleton.1 hx
        obtain rfl : s = [x] := Option.some.inj hs.symm
        simp [orderedInsertM, (hbad a).1]

end SortByM

/-- The sort of each organization's list (line 205), which compares the stats only. -/
def sortNeighborInfos (now : Nat) (neighbor_infos : List NeighborInfo) :
    Option (List NeighborInfo) :=
  sortByM (fun a b => compareNeighborUptimeHealth now a.2 b.2) neighbor_infos

/-- What the sort of an organization's list gives when it does not panic. -/
def sortedNeighborInfos (now : Nat) (neighbor_infos : List NeighborInfo) : List NeighborInfo :=
  sortBy (compareOrEq fun a b => compareNeighborUptimeHealth now a.2 b.2) neighbor_infos

lemma sortNeighborInfos_eq_some {now : Nat} {l s : List NeighborInfo}
    (h : sortNeighborInfos now l = some s) : s = sortedNeighborInfos now l :=
  sortByM_eq_some h

lemma sortedNeighborInfos_perm (now : Nat) (l : List NeighborInfo) :
    (sortedNeighborInfos now l).Perm l :=
  sortBy_perm _ l

/-- The sort of an organization's list panics exactly when it has two or more members and the
clock is behind one's first contact. -/
theorem sortNeighborInfos_eq_none_iff {now : Nat} {l : List NeighborInfo} :
    sortNeighborInfos now l = none ↔ 2 ≤ l.length ∧ ∃ x ∈ l, now < x.2.firstContactTime := by
  constructor
  · intro h
    refine ⟨?_, ?_⟩
    · rcases l with _ | ⟨a, _ | ⟨b, l⟩⟩
      · cases h
      · cases h
      · simp
    · by_contra hall
      push_neg at hall
      have := @sortByM_isSome _ (fun a b : NeighborInfo => compareNeighborUptimeHealth now a.2 b.2)
        l fun a ha b hb => Option.ne_none_iff_isSome.1 fun hn => by
          rcases compareNeighborUptimeHealth_eq_none_iff.1 hn with h' | h'
          · exact absurd (hall a ha) (not_le.2 h')
          · exact absurd (hall b hb) (not_le.2 h')
      rw [show sortByM _ l = none from h] at this
      cases this
  · rintro ⟨hlen, x, hx, hlt⟩
    exact @sortByM_eq_none _ (fun a b : NeighborInfo => compareNeighborUptimeHealth now a.2 b.2) x
      (fun _ => ⟨compareNeighborUptimeHealth_eq_none_iff.2 (.inl hlt),
        compareNeighborUptimeHealth_eq_none_iff.2 (.inr hlt)⟩) l hx hlen

/-- With the clock at or past every first contact, the sort does not panic. -/
lemma sortNeighborInfos_of_le {now : Nat} {l : List NeighborInfo}
    (h : ∀ x ∈ l, x.2.firstContactTime ≤ now) :
    sortNeighborInfos now l = some (sortedNeighborInfos now l) := by
  obtain ⟨s, hs⟩ := Option.ne_none_iff_exists'.1 fun hn => by
    obtain ⟨-, x, hx, hlt⟩ := sortNeighborInfos_eq_none_iff.1 hn
    exact absurd (h x hx) (not_le.2 hlt)
  rw [hs, sortNeighborInfos_eq_some hs]

/-- The inbound pruner's comparator (lines 310-320): by `first_contact_time`. -/
def compareFirstContact (a b : ClientInfo) : Ordering :=
  if a.2.2.firstContactTime < b.2.2.firstContactTime then .lt
  else if a.2.2.firstContactTime > b.2.2.firstContactTime then .gt
  else .eq

lemma compareFirstContact_ne_lt {a b : ClientInfo} :
    compareFirstContact b a ≠ .lt ↔ a.2.2.firstContactTime ≤ b.2.2.firstContactTime := by
  unfold compareFirstContact
  split_ifs <;> simp <;> omega

/-- Sorting by first contact leaves the list oldest first. -/
theorem sortBy_firstContact_sorted (l : List ClientInfo) :
    (sortBy compareFirstContact l).Sorted
      fun a b => a.2.2.firstContactTime ≤ b.2.2.firstContactTime := by
  let r : ClientInfo → ClientInfo → Prop := fun x y => compareFirstContact y x ≠ .lt
  haveI : IsTotal ClientInfo r :=
    ⟨fun a b => by simp only [r, compareFirstContact_ne_lt]; omega⟩
  haveI : IsTrans ClientInfo r :=
    ⟨fun a b c => by simp only [r, compareFirstContact_ne_lt]; omega⟩
  exact (List.sorted_insertionSort r l).imp compareFirstContact_ne_lt.1

/-! ### The comparator is not the documented order -/

/-- A connection up for four seconds, with health `0`. -/
def statsOld : NeighborStats := ⟨true, 0, 0⟩

/-- A connection up for one second, with health `1`. -/
def statsNew : NeighborStats := ⟨true, 3, 1⟩

/-- A key for the two connections. -/
def keyZero : NeighborKey := ⟨0, ⟨List.replicate 16 0, rfl⟩, 0⟩

/-- At `now = 4` the older connection is in bucket 2 and the newer one in bucket 0.  The
comparator ranks the older one first, where the lexicographic order ranks it last; it ranks each
of the two before the other; and the sort of `[new, old]` puts the bucket-2 connection before
the bucket-0 one. -/
theorem compareNeighborUptimeHealth_not_lex :
    compareNeighborUptimeHealth 4 statsOld statsNew = some .lt ∧
      uptimeHealthLex 4 statsOld statsNew = .gt ∧
      compareNeighborUptimeHealth 4 statsNew statsOld = some .lt ∧
      (sortNeighborInfos 4 [(keyZero, statsNew), (keyZero, statsOld)]).map (List.map Prod.snd) =
        some [statsOld, statsNew] := by
  decide

end StacksPrune
