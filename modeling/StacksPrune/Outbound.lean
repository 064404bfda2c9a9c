import StacksPrune.Rank
import StacksPrune.Sample
import StacksPrune.Distribution

/-!
# The outbound diversity pruner

`prune_frontier_outbound_orgs` (lines 185-276) runs when there are more outbound connections
than `soft_num_neighbors`.  It classifies them by organization, sorts each organization's list
with `compare_neighbor_uptime_health`, and then

* **hard-trims** (lines 210-235): for each organization over `soft_max_neighbors_per_org`, it
  pushes the keys of the first `len - cap` members, stopping once the outbound count would reach
  `soft_num_neighbors`, and then calls `remove(0)` on the organization's list `ret.len()` times,
  where `ret` holds what *every* organization pushed so far;
* **samples** (lines 243-272): while the count is above target, it draws an organization with
  probability proportional to the length of its list and moves the front member to `ret`.

Panics are `none`: a `remove(0)` on an empty list, an index out of bounds, an underflowing `u64`
subtraction (the comparator's among them, when the clock is behind a first contact), an
overflowing `usize` sum of weights, `gen_range` on an empty range, or `unreachable!()`.  The sort
loop that does not panic is `sortedOrgs` (`sortOrgs_eq_some`), and it does not panic while the
clock is at or past every first contact (`sortOrgs_of_le`).
-/

namespace StacksPrune

/-! ### The loops -/

/-- `for _ in 0..n { v.remove(0); }`: `none` is the panic of `remove(0)` on an empty vector. -/
def removeFront {α : Type} : Nat → List α → Option (List α)
  | 0, l => some l
  | _ + 1, [] => none
  | n + 1, _ :: l => removeFront n l

@[simp] theorem removeFront_eq_some_iff {α : Type} :
    ∀ {n : Nat} {l l' : List α}, removeFront n l = some l' ↔ n ≤ l.length ∧ l' = l.drop n
  | 0, l, l' => by simp [removeFront, eq_comm]
  | n + 1, [], l' => by simp [removeFront]
  | n + 1, x :: l, l' => by simp [removeFront, removeFront_eq_some_iff]

/-- The inner loop of the hard trim (lines 217-228), over `neighbor_infos[0..n]`: push the key,
then stop once `num_outbound - ret.len() <= soft_num_neighbors`.  `none` is the panic of that
`u64` subtraction. -/
def trimOrg (num_outbound soft_num_neighbors : Nat) :
    List NeighborInfo → List NeighborKey → Option (List NeighborKey)
  | [], ret => some ret
  | (neighbor_key, _) :: rest, ret =>
    let ret := ret ++ [neighbor_key]
    match checkedSub num_outbound ret.length with
    | none => none
    | some d =>
      if d ≤ soft_num_neighbors then some ret
      else trimOrg num_outbound soft_num_neighbors rest ret

/-- The hard trim (lines 212-235), over the organizations in `orgs` order.  After pushing, the
organization's list loses its first `ret.len()` members: the keys pushed for every organization
so far, not only its own. -/
def hardTrim (num_outbound soft_num_neighbors soft_max_neighbors_per_org : Nat) :
    List UInt32 → HashMap UInt32 (List NeighborInfo) → List NeighborKey →
      Option (HashMap UInt32 (List NeighborInfo) × List NeighborKey)
  | [], org_neighbors, ret => some (org_neighbors, ret)
  | org :: orgs, org_neighbors, ret =>
    match org_neighbors.get org with
    | none => hardTrim num_outbound soft_num_neighbors soft_max_neighbors_per_org orgs
        org_neighbors ret
    | some neighbor_infos =>
      if soft_max_neighbors_per_org < neighbor_infos.length then do
        let ret ← trimOrg num_outbound soft_num_neighbors
          (neighbor_infos.take (neighbor_infos.length - soft_max_neighbors_per_org)) ret
        let neighbor_infos ← removeFront ret.length neighbor_infos
        hardTrim num_outbound soft_num_neighbors soft_max_neighbors_per_org orgs
          (org_neighbors.insert org neighbor_infos) ret
      else hardTrim num_outbound soft_num_neighbors soft_max_neighbors_per_org orgs
        org_neighbors ret

/-- The weight map of lines 246-251, in the order `org_neighbors` is visited: every organization
whose list is not empty, with the length of its list. -/
def weightedSample (org_neighbors : HashMap UInt32 (List NeighborInfo)) : List (UInt32 × Nat) :=
  org_neighbors.entries.filterMap fun e => if 0 < e.2.length then some (e.1, e.2.length) else none

/-- The `k`-th round of the sampling loop (lines 245-272): `none` is a panic, `some none` that
the loop stops, and `some (some (org_neighbors, ret))` the state after the round. -/
def sampleRound (nd : Oracle) (num_outbound soft_num_neighbors k : Nat)
    (org_neighbors : HashMap UInt32 (List NeighborInfo)) (ret : List NeighborKey) :
    Option (Option (HashMap UInt32 (List NeighborInfo) × List NeighborKey)) :=
  match checkedSub num_outbound ret.length with
  | none => none
  | some d =>
    if d ≤ soft_num_neighbors then some none
    else
      let weighted_sample := nd.sampleOrder k (weightedSample org_neighbors)
      if weighted_sample.length = 0 then some none
      else
        match sampleOrgByNeighborCount weighted_sample (nd.genRange k) with
        | none => none
        | some prune_org =>
          match org_neighbors.get prune_org with
          | none => none
          | some [] => none
          | some ((neighbor_key, _) :: rest) =>
            some (some (org_neighbors.insert prune_org rest, ret ++ [neighbor_key]))

/-- The sampling loop from round `k` on.  A round that does not stop moves one member out of
`org_neighbors`, so `org_neighbors.values.length` rounds are always enough
(`samplePhase_fuel`); `fuel` counts the rounds still allowed. -/
def samplePhase (nd : Oracle) (num_outbound soft_num_neighbors : Nat) :
    Nat → Nat → HashMap UInt32 (List NeighborInfo) → List NeighborKey → Option (List NeighborKey)
  | fuel, k, org_neighbors, ret =>
    match sampleRound nd num_outbound soft_num_neighbors k org_neighbors ret with
    | none => none
    | some none => some ret
    | some (some (org_neighbors, ret')) =>
      match fuel with
      | 0 => some ret
      | fuel + 1 => samplePhase nd num_outbound soft_num_neighbors fuel (k + 1) org_neighbors ret'

/-- One turn of the sort loop of lines 195-208: the organization's list, if it has one, sorted.
`none` is a panic of the comparator. -/
def sortOrg (now : Nat) (org_neighbors : HashMap UInt32 (List NeighborInfo)) (org : UInt32) :
    Option (HashMap UInt32 (List NeighborInfo)) :=
  match org_neighbors.get org with
  | some neighbor_infos => (sortNeighborInfos now neighbor_infos).map (org_neighbors.insert org)
  | none => some org_neighbors

/-- The sort loop of lines 195-208: each organization's list, sorted. -/
def sortOrgs (now : Nat) (orgs : List UInt32) (org_neighbors : HashMap UInt32 (List NeighborInfo)) :
    Option (HashMap UInt32 (List NeighborInfo)) :=
  orgs.foldlM (sortOrg now) org_neighbors

/-- One turn of the sort loop when the sort does not panic. -/
def sortedOrg (now : Nat) (org_neighbors : HashMap UInt32 (List NeighborInfo)) (org : UInt32) :
    HashMap UInt32 (List NeighborInfo) :=
  match org_neighbors.get org with
  | some neighbor_infos => org_neighbors.insert org (sortedNeighborInfos now neighbor_infos)
  | none => org_neighbors

/-- What the sort loop gives when no sort panics. -/
def sortedOrgs (now : Nat) (orgs : List UInt32)
    (org_neighbors : HashMap UInt32 (List NeighborInfo)) : HashMap UInt32 (List NeighborInfo) :=
  orgs.foldl (sortedOrg now) org_neighbors

/-- `prune_frontier_outbound_orgs(local_peer, preserve)`: `none` is a panic.  The map built by
`org_neighbor_distribution` is visited in the oracle's order.  The test of line 237 is the loop
guard of line 245 with the same answer, so it is the first test of `samplePhase`. -/
def pruneFrontierOutboundOrgs (net : PeerNetwork) (preserve : List Nat) (nd : Oracle) :
    Option (Except NetError (List NeighborKey)) :=
  let num_outbound := countOutboundConversations net.peers
  if num_outbound ≤ net.softNumNeighbors then some (.ok [])
  else
    match orgNeighborDistribution net preserve with
    | .error e => some (.error e)
    | .ok org_neighbors =>
      let org_neighbors := org_neighbors.reorder nd.orgOrder nd.orgOrder_perm
      let orgs := org_neighbors.keys
      Option.map .ok do
        let org_neighbors ← sortOrgs nd.now orgs org_neighbors
        let (org_neighbors, ret) ← hardTrim num_outbound net.softNumNeighbors
          net.softMaxNeighborsPerOrg orgs org_neighbors []
        samplePhase nd num_outbound net.softNumNeighbors org_neighbors.values.length 0
          org_neighbors ret

/-! ### What one round can do -/

section Rounds

variable {num_outbound soft cap : Nat}

lemma trimOrg_eq_some :
    ∀ {infos : List NeighborInfo} {ret ret' : List NeighborKey},
      trimOrg num_outbound soft infos ret = some ret' →
        ∃ k ≤ infos.length, ret' = ret ++ (infos.take k).map Prod.fst
  | [], ret, ret', h => by cases h; exact ⟨0, le_rfl, by simp⟩
  | (nk, st) :: rest, ret, ret', h => by
    simp only [trimOrg] at h
    split at h
    · cases h
    · split_ifs at h
      · cases h; exact ⟨1, by simp, by simp⟩
      · obtain ⟨k, hk, rfl⟩ := trimOrg_eq_some h
        exact ⟨k + 1, by simpa using hk, by simp⟩

/-- While the organization's members all fit in the outbound budget, the inner loop pushes all
of them. -/
lemma trimOrg_of_le :
    ∀ {infos : List NeighborInfo} {ret : List NeighborKey},
      ret.length + infos.length + soft ≤ num_outbound →
        trimOrg num_outbound soft infos ret = some (ret ++ infos.map Prod.fst)
  | [], ret, _ => by simp [trimOrg]
  | (nk, st) :: rest, ret, h => by
    simp only [List.length_cons] at h
    have hsub : checkedSub num_outbound (ret ++ [nk]).length =
        some (num_outbound - (ret.length + 1)) := by simp; omega
    simp only [trimOrg, hsub]
    split_ifs with hle
    · obtain rfl : rest = [] := List.eq_nil_of_length_eq_zero (by omega)
      simp
    · rw [trimOrg_of_le (by simp; omega)]
      simp

/-- One organization of the hard trim: skipped, or trimmed and cut. -/
lemma hardTrim_cons {org : UInt32} {orgs : List UInt32} {m : HashMap UInt32 (List NeighborInfo)}
    {ret : List NeighborKey} {res : HashMap UInt32 (List NeighborInfo) × List NeighborKey}
    (h : hardTrim num_outbound soft cap (org :: orgs) m ret = some res) :
    ((∀ infos, m.get org = some infos → infos.length ≤ cap) ∧
        hardTrim num_outbound soft cap orgs m ret = some res) ∨
      ∃ infos ret₁ infos₁, m.get org = some infos ∧ cap < infos.length ∧
        trimOrg num_outbound soft (infos.take (infos.length - cap)) ret = some ret₁ ∧
        removeFront ret₁.length infos = some infos₁ ∧
        hardTrim num_outbound soft cap orgs (m.insert org infos₁) ret₁ = some res := by
  simp only [hardTrim] at h
  split at h
  · next hget => exact .inl ⟨fun infos h' => by simp [hget] at h', h⟩
  · next infos hget =>
    split_ifs at h with hcap
    · obtain ⟨ret₁, h₁, h⟩ := Option.bind_eq_some.1 h
      obtain ⟨infos₁, h₂, h⟩ := Option.bind_eq_some.1 h
      exact .inr ⟨infos, ret₁, infos₁, hget, hcap, h₁, h₂, h⟩
    · exact .inl ⟨fun infos' h' => by rw [hget] at h'; cases h'; omega, h⟩

variable {nd : Oracle} {k : Nat} {m m' : HashMap UInt32 (List NeighborInfo)}
  {ret ret' : List NeighborKey}

/-- A weight map with no entry: every list is empty. -/
lemma values_eq_nil_of_weightedSample (h : weightedSample m = []) : m.values = [] := by
  rw [weightedSample, List.filterMap_eq_nil_iff] at h
  rw [HashMap.values, List.flatMap_eq_nil_iff]
  intro e he
  have := h e he
  simp only [ite_eq_right_iff, reduceCtorEq, imp_false, not_lt, Nat.le_zero] at this
  exact List.eq_nil_of_length_eq_zero this

/-- What a round can do.  It needs `ret` to fit in the outbound count; then it stops, at the
target or with no member left, or it moves the first member of some organization's list to
`ret`. -/
lemma sampleRound_eq_some {o : Option (HashMap UInt32 (List NeighborInfo) × List NeighborKey)}
    (h : sampleRound nd num_outbound soft k m ret = some o) :
    ret.length ≤ num_outbound ∧
      ((o = none ∧ (num_outbound ≤ ret.length + soft ∨ m.values = [])) ∨
        (ret.length + soft < num_outbound ∧ ∃ org nk st rest,
          m.get org = some ((nk, st) :: rest) ∧ o = some (m.insert org rest, ret ++ [nk]))) := by
  unfold sampleRound at h
  dsimp only at h
  split at h
  · cases h
  · next d hd =>
    obtain ⟨hle, rfl⟩ := checkedSub_eq_some_iff.1 hd
    refine ⟨hle, ?_⟩
    split_ifs at h with hs hlen
    · cases h
      exact .inl ⟨rfl, .inl (by omega)⟩
    · cases h
      refine .inl ⟨rfl, .inr (values_eq_nil_of_weightedSample (List.eq_nil_of_length_eq_zero ?_))⟩
      rwa [← (nd.sampleOrder_perm k _).length_eq]
    · split at h
      · cases h
      · split at h
        · cases h
        · cases h
        · next org _ _ nk st rest hget =>
          cases h
          exact .inr ⟨by omega, org, nk, st, rest, hget, rfl⟩

/-- A round that goes on moves the first member of some organization's list to `ret`. -/
lemma sampleRound_continue (h : sampleRound nd num_outbound soft k m ret = some (some (m', ret'))) :
    ∃ org nk st rest, m.get org = some ((nk, st) :: rest) ∧ m' = m.insert org rest ∧
      ret' = ret ++ [nk] := by
  obtain ⟨-, ⟨h0, -⟩ | ⟨-, org, nk, st, rest, hget, ho⟩⟩ := sampleRound_eq_some h
  · cases h0
  · obtain ⟨rfl, rfl⟩ := Prod.mk.inj (Option.some.inj ho)
    exact ⟨org, nk, st, rest, hget, rfl, rfl⟩

/-- The sampling loop stops with `ret`, or goes on after a round. -/
lemma samplePhase_eq_some {fuel : Nat} {r : List NeighborKey}
    (h : samplePhase nd num_outbound soft fuel k m ret = some r) :
    r = ret ∨ ∃ fuel' m' ret', fuel = fuel' + 1 ∧
      sampleRound nd num_outbound soft k m ret = some (some (m', ret')) ∧
      samplePhase nd num_outbound soft fuel' (k + 1) m' ret' = some r := by
  unfold samplePhase at h
  split at h
  · cases h
  · exact .inl (Option.some.inj h).symm
  · next m' ret' hr =>
    split at h
    · exact .inl (Option.some.inj h).symm
    · next fuel' => exact .inr ⟨fuel', m', ret', rfl, hr, h⟩

lemma values_length_insert_tail {org : UInt32} {x : NeighborInfo} {rest : List NeighborInfo}
    (h : m.get org = some (x :: rest)) :
    (m.insert org rest).values.length + 1 = m.values.length := by
  obtain ⟨pre, post, hv, hv'⟩ := HashMap.values_insert m h rest
  rw [hv, hv']
  simp only [List.length_append, List.length_cons]
  omega

/-- More fuel than members left changes nothing: the fuel bound is never reached. -/
theorem samplePhase_fuel :
    ∀ {fuel k : Nat} {m : HashMap UInt32 (List NeighborInfo)} {ret : List NeighborKey},
      m.values.length ≤ fuel →
        samplePhase nd num_outbound soft (fuel + 1) k m ret =
          samplePhase nd num_outbound soft fuel k m ret
  | fuel, k, m, ret, h => by
    conv_lhs => rw [samplePhase]
    conv_rhs => rw [samplePhase]
    rcases hr : sampleRound nd num_outbound soft k m ret with _ | _ | ⟨m', ret'⟩
    · rfl
    · rfl
    · obtain ⟨org, nk, st, rest, hget, rfl, rfl⟩ := sampleRound_continue hr
      have hlen := values_length_insert_tail hget
      cases fuel with
      | zero => omega
      | succ fuel => exact samplePhase_fuel (by omega)

end Rounds

/-! ### The sort loop -/

lemma sortOrg_eq_some {now : Nat} {m m' : HashMap UInt32 (List NeighborInfo)} {org : UInt32}
    (h : sortOrg now m org = some m') : m' = sortedOrg now m org := by
  unfold sortOrg at h
  unfold sortedOrg
  split at h
  · next l hg =>
    obtain ⟨s, hs, rfl⟩ := Option.map_eq_some'.1 h
    rw [sortNeighborInfos_eq_some hs]
  · exact (Option.some.inj h).symm

/-- With the clock at or past the first contacts of the organization's members, the turn does
not panic. -/
lemma sortOrg_of_le {now : Nat} {m : HashMap UInt32 (List NeighborInfo)} {org : UInt32}
    (h : ∀ l, m.get org = some l → ∀ x ∈ l, x.2.firstContactTime ≤ now) :
    sortOrg now m org = some (sortedOrg now m org) := by
  unfold sortOrg sortedOrg
  split
  · next l hg => rw [sortNeighborInfos_of_le (h l hg)]; rfl
  · rfl

/-- Sorting an organization's list moves its members only within the list. -/
lemma sortedOrg_values_perm (now : Nat) (m : HashMap UInt32 (List NeighborInfo)) (org : UInt32) :
    (sortedOrg now m org).values.Perm m.values := by
  unfold sortedOrg
  split
  · next l hg =>
    obtain ⟨pre, post, hv, hv'⟩ := HashMap.values_insert m hg (sortedNeighborInfos now l)
    rw [hv, hv']
    exact ((sortedNeighborInfos_perm now l).append_left pre).append_right post
  · exact .refl _

lemma sortedOrg_get (now : Nat) (m : HashMap UInt32 (List NeighborInfo)) (org o : UInt32) :
    (sortedOrg now m org).get o =
      if o = org then (m.get o).map (sortedNeighborInfos now) else m.get o := by
  unfold sortedOrg
  split
  · next l hg =>
    rw [HashMap.get_insert]
    split_ifs with ho
    · rw [ho, hg]; rfl
    · rfl
  · next hg => split_ifs with ho <;> simp [ho, hg]

/-- Each organization of `orgs` has its list sorted once. -/
lemma sortedOrgs_get (now : Nat) :
    ∀ {orgs : List UInt32} {m : HashMap UInt32 (List NeighborInfo)}, orgs.Nodup → ∀ o,
      (sortedOrgs now orgs m).get o =
        if o ∈ orgs then (m.get o).map (sortedNeighborInfos now) else m.get o
  | [], m, _, o => by simp [sortedOrgs]
  | org :: orgs, m, h, o => by
    obtain ⟨horg, h⟩ := List.nodup_cons.1 h
    rw [sortedOrgs, List.foldl_cons, ← sortedOrgs, sortedOrgs_get now h, sortedOrg_get]
    by_cases ho : o = org
    · subst ho
      simp [horg]
    · simp [ho]

/-- Sorting moves members only within their lists. -/
lemma sortedOrgs_values_perm (now : Nat) :
    ∀ (orgs : List UInt32) (m : HashMap UInt32 (List NeighborInfo)),
      (sortedOrgs now orgs m).values.Perm m.values
  | [], _ => .refl _
  | org :: orgs, m => (sortedOrgs_values_perm now orgs _).trans (sortedOrg_values_perm now m org)

/-- A sort loop that does not panic gives `sortedOrgs`. -/
lemma sortOrgs_eq_some {now : Nat} :
    ∀ {orgs : List UInt32} {m T : HashMap UInt32 (List NeighborInfo)},
      sortOrgs now orgs m = some T → T = sortedOrgs now orgs m
  | [], m, T, h => (Option.some.inj h).symm
  | org :: orgs, m, T, h => by
    obtain ⟨m', h₁, h₂⟩ := Option.bind_eq_some.1 h
    rw [sortOrgs_eq_some h₂, sortOrg_eq_some h₁]
    rfl

/-- With the clock at or past every member's first contact, the sort loop does not panic. -/
lemma sortOrgs_of_le {now : Nat} :
    ∀ (orgs : List UInt32) {m : HashMap UInt32 (List NeighborInfo)},
      (∀ x ∈ m.values, x.2.firstContactTime ≤ now) →
        sortOrgs now orgs m = some (sortedOrgs now orgs m)
  | [], _, _ => rfl
  | org :: orgs, m, h => by
    have hturn : sortOrg now m org = some (sortedOrg now m org) :=
      sortOrg_of_le fun l hg x hx => by
        obtain ⟨pre, post, hv, -⟩ := HashMap.values_insert m hg l
        exact h x (by simp [hv, hx])
    show (sortOrg now m org >>= sortOrgs now orgs) = _
    rw [hturn, Option.bind_eq_bind, Option.some_bind, sortOrgs_of_le orgs
      fun x hx => h x ((sortedOrg_values_perm now m org).subset hx)]
    rfl

/-- One organization whose sort panics makes the sort loop panic. -/
lemma sortOrgs_eq_none {now : Nat} {o : UInt32} {l : List NeighborInfo}
    (hl : sortNeighborInfos now l = none) :
    ∀ {orgs : List UInt32} {m : HashMap UInt32 (List NeighborInfo)}, orgs.Nodup → o ∈ orgs →
      m.get o = some l → sortOrgs now orgs m = none
  | [], _, _, ho, _ => absurd ho (List.not_mem_nil _)
  | org :: orgs, m, hnd, ho, hg => by
    obtain ⟨horg, hnd⟩ := List.nodup_cons.1 hnd
    show (sortOrg now m org >>= sortOrgs now orgs) = none
    rcases List.mem_cons.1 ho with rfl | ho
    · simp only [sortOrg, hg, hl, Option.map_none', Option.bind_eq_bind, Option.none_bind]
    · cases h₁ : sortOrg now m org with
      | none => rfl
      | some m' =>
        refine sortOrgs_eq_none hl hnd ho ?_
        rw [sortOrg_eq_some h₁, sortedOrg_get, if_neg (ne_of_mem_of_not_mem ho horg), hg]

/-- After a sort loop that does not panic, the sort of every organization it visited did not
panic. -/
lemma sortNeighborInfos_of_sortOrgs {now : Nat} {orgs : List UInt32}
    {m T : HashMap UInt32 (List NeighborInfo)} (hnd : orgs.Nodup)
    (h : sortOrgs now orgs m = some T) {o : UInt32} (ho : o ∈ orgs) {l : List NeighborInfo}
    (hg : m.get o = some l) : sortNeighborInfos now l = some (sortedNeighborInfos now l) := by
  cases hs : sortNeighborInfos now l with
  | none => rw [sortOrgs_eq_none hs hnd ho hg] at h; cases h
  | some s => rw [sortNeighborInfos_eq_some hs]

/-! ### Small tables -/

/-- The host `::b`. -/
def hostAddr (b : UInt8) : PeerAddress := ⟨List.replicate 15 0 ++ [b], by simp⟩

/-- The neighbor key of the host `::b`. -/
def hostKey (b : UInt8) : NeighborKey := ⟨0, hostAddr b, 20444⟩

/-- An outbound conversation with the host `::b`, first contacted at time 0, of health 0. -/
def hostConvo (b : UInt8) : ConversationP2P := ⟨0, hostAddr b, 20444, ⟨true, 0, 0⟩⟩

/-- A peer database that puts the host `::b` in the organization `b / 10`. -/
def orgByTens : PeerDB :=
  ⟨fun _ addr _ => .ok (some ⟨((addr.bytes.getLastD 0).toNat / 10).toUInt32⟩)⟩

lemma hostKey_injective : Function.Injective hostKey := fun a b h => by
  simpa [hostKey, hostAddr] using h

/-- Outbound connections to the hosts `hosts`, with event ids `0, 1, …`, and the given outbound
limits. -/
def outboundNet (hosts : List UInt8) (h : hosts.Nodup) (soft_num_neighbors cap : Nat) :
    PeerNetwork where
  events := ⟨hosts.enum.map fun p => (hostKey p.2, p.1), by
    rw [List.map_map, show Prod.fst ∘ (fun p : Nat × UInt8 => (hostKey p.2, p.1)) =
      hostKey ∘ Prod.snd from rfl, ← List.map_map, List.enum_map_snd]
    exact h.map hostKey_injective⟩
  peers := ⟨hosts.enum.map fun p => (p.1, hostConvo p.2), by
    rw [List.map_map, show Prod.fst ∘ (fun p : Nat × UInt8 => (p.1, hostConvo p.2)) =
      Prod.fst from rfl, List.enum_map_fst]
    exact List.nodup_range _⟩
  peerdb := orgByTens
  softNumNeighbors := soft_num_neighbors
  softMaxNeighborsPerOrg := cap
  softNumClients := 0
  softMaxClientsPerHost := 0
  pruneInboundCounts := HashMap.empty
  pruneOutboundCounts := HashMap.empty

/-- Two organizations of three outbound connections, a cap of one and a target of five. -/
def overshootNet : PeerNetwork := outboundNet [10, 11, 12, 20, 21, 22] (by decide) 5 1

/-- On `overshootNet` one connection is to go.  The first organization's trim pushes `::10` and
stops at the target, but the `break` leaves only that organization's loop: the second one pushes
`::20` as well. -/
theorem pruneFrontierOutboundOrgs_overshoots :
    pruneFrontierOutboundOrgs overshootNet [] topOracle = some (.ok [hostKey 10, hostKey 20]) ∧
      min (countOutboundConversations overshootNet.peers - overshootNet.softNumNeighbors)
        (outboundPool overshootNet []).length = 1 :=
  ⟨rfl, rfl⟩

/-- Two organizations of three outbound connections, a cap of two and a target of two. -/
def skipNet : PeerNetwork := outboundNet [10, 11, 12, 20, 21, 22] (by decide) 2 2

/-- On `skipNet` the second organization's sorted list is `::20, ::21, ::22`.  Its trim pushes
`::20` and then removes `ret.len() = 2` members, so `::21` leaves the list without being pruned,
and sampling later prunes `::22`, ranked after it. -/
theorem pruneFrontierOutboundOrgs_skips_member :
    pruneFrontierOutboundOrgs skipNet [] topOracle =
        some (.ok [hostKey 10, hostKey 20, hostKey 22, hostKey 11]) ∧
      (sortNeighborInfos topOracle.now (orgMembers skipNet [] 2)).map (List.map Prod.fst) =
        some [hostKey 20, hostKey 21, hostKey 22] :=
  ⟨rfl, rfl⟩

/-- Five organizations of four outbound connections, a target of ten and a cap of three. -/
def fiveOrgNet : PeerNetwork :=
  outboundNet [10, 11, 12, 13, 20, 21, 22, 23, 30, 31, 32, 33, 40, 41, 42, 43, 50, 51, 52, 53]
    (by decide) 10 3

end StacksPrune
