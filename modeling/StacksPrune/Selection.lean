import StacksPrune.Outbound
import Mathlib.Algebra.BigOperators.Group.List
import Mathlib.Algebra.Order.BigOperators.Group.List

/-!
# What the outbound pruner selects

These facts hold of every run of `prune_frontier_outbound_orgs` that returns, for every table,
preserve set, peer database, limit and oracle.  The two loops are run once each, by
`hardTrim_preserves` and `samplePhase_preserves`: whatever one organization's trim or one
sampling round keeps holds of the loop's result.

* `pruneFrontierOutboundOrgs_subperm`: the keys returned are an injective choice from the
  classified outbound neighbors.  The invariant `SelectionInv` says that the members selected so
  far and the members still listed are, together, among those classified.  It survives a hard
  trim of one organization only because the organization's list loses at least as many members
  as it pushed; `SelectionInv.move` is the one step lemma for both phases.
* `pruneFrontierOutboundOrgs_org_cap`: when the organizations' excess over the cap fits in the
  outbound budget, every organization ends at or below the cap.  The budget then never stops
  the hard trim early (`hardTrim_full`), so each organization pushes its whole excess.
* `pruneFrontierOutboundOrgs_of_hardTrim`: with the clock at or past every classified first
  contact, the sort never panics (`sortOrgs_table_of_le`); it panics when the clock is behind a
  member of an organization of two or more (`pruneFrontierOutboundOrgs_eq_none_of_clock`).  With
  fewer than `2^64` outbound connections the sampling loop never panics either
  (`samplePhase_isSome`): its weights sum to the members listed (`weightedSample_sum`).  Every
  other panic of the pass is in the hard trim.  Once it returns, the sampling loop stops exactly
  at the target or when no member is left (`samplePhase_length`): the outbound count misses the
  target only through the hard trim.
* `pruneFrontierOutboundOrgs_returns`: under the same two conditions, the hard trim panics only
  when the keys pushed before an organization's `remove(0)` loop outnumber its members; when
  every organization over the cap has at least as many members as the total excess, the pass
  returns `Ok`.
* `pruneFrontierOutboundOrgs_length_le`: the hard trim misses it by at most one key for each
  organization over the cap after the first.  Each organization's loop raises
  `max(|ret|, num_outbound - soft_num_neighbors - 1)` by at most one (`trimOrg_length_le`).
* `PrefixInv`: each organization's selected members are the first ones of its sorted list.
  Every sampling round keeps it (`PrefixInv.sample`); the hard trim keeps it while at most one
  organization is over the cap (`hardTrim_prefixInv`), since it reaches that organization with
  `ret` still empty.
-/

namespace StacksPrune

/-- The selection invariant: `ret` holds the keys of members `sel` that have left their lists,
and `sel` together with the members still listed are among `pool`, each at most as often. -/
def SelectionInv (pool : List NeighborInfo) (m : HashMap UInt32 (List NeighborInfo))
    (ret : List NeighborKey) : Prop :=
  ∃ sel : List NeighborInfo, ret = sel.map Prod.fst ∧ (sel ++ m.values).Subperm pool

namespace SelectionInv

variable {pool : List NeighborInfo} {m : HashMap UInt32 (List NeighborInfo)}
  {ret : List NeighborKey}

lemma init (m : HashMap UInt32 (List NeighborInfo)) : SelectionInv m.values m [] :=
  ⟨[], rfl, List.Subperm.refl _⟩

/-- Pushing the first `k` members of a list while dropping its first `j ≥ k`: the hard trim of
one organization, and, with `k = j = 1`, one round of sampling. -/
lemma move (h : SelectionInv pool m ret) {org : UInt32} {infos : List NeighborInfo}
    (hget : m.get org = some infos) {k j : Nat} (hkj : k ≤ j) :
    SelectionInv pool (m.insert org (infos.drop j)) (ret ++ (infos.take k).map Prod.fst) := by
  obtain ⟨sel, rfl, hsub⟩ := h
  obtain ⟨pre, post, hv, hv'⟩ := HashMap.values_insert m hget (infos.drop j)
  refine ⟨sel ++ infos.take k, by simp, ?_⟩
  rw [hv'] at *
  rw [hv] at hsub
  have hperm : (sel ++ infos.take k ++ (pre ++ infos.drop j ++ post)).Perm
      (sel ++ (pre ++ (infos.take k ++ infos.drop j) ++ post)) := by
    simp only [List.append_assoc]
    exact (List.perm_append_comm_assoc _ _ _).append_left sel
  have hsubl : (infos.take k ++ infos.drop j).Sublist infos := by
    conv_rhs => rw [← List.take_append_drop k infos]
    exact (List.Sublist.refl _).append (List.drop_sublist_drop_left _ hkj)
  exact hperm.subperm.trans
    ((((hsubl.append_left pre).append_right post).append_left sel).subperm.trans hsub)

lemma subperm (h : SelectionInv pool m ret) : ret.Subperm (pool.map Prod.fst) := by
  obtain ⟨sel, rfl, hsub⟩ := h
  obtain ⟨l, hp, hs⟩ := (List.sublist_append_left sel m.values).subperm.trans hsub
  exact ⟨l.map Prod.fst, hp.map Prod.fst, hs.map Prod.fst⟩

end SelectionInv

section Runs

variable {num_outbound soft cap : Nat} {pool : List NeighborInfo}

/-- Every invariant that the hard trim of one organization keeps holds after the whole trim. -/
lemma hardTrim_preserves (P : HashMap UInt32 (List NeighborInfo) → List NeighborKey → Prop)
    (hmove : ∀ {m ret org infos ret₁ infos₁}, m.get org = some infos →
      trimOrg num_outbound soft (infos.take (infos.length - cap)) ret = some ret₁ →
      removeFront ret₁.length infos = some infos₁ → P m ret → P (m.insert org infos₁) ret₁)
    {orgs : List UInt32} {m : HashMap UInt32 (List NeighborInfo)} {ret : List NeighborKey}
    {res : HashMap UInt32 (List NeighborInfo) × List NeighborKey} (hp : P m ret)
    (h : hardTrim num_outbound soft cap orgs m ret = some res) : P res.1 res.2 := by
  induction orgs generalizing m ret with
  | nil => cases h; exact hp
  | cons org orgs ih =>
    rcases hardTrim_cons h with ⟨-, h⟩ | ⟨infos, ret₁, infos₁, hget, -, h₁, h₂, h⟩
    · exact ih hp h
    · exact ih (hmove hget h₁ h₂ hp) h

/-- Every invariant that a round moving one member keeps holds of the sampling loop's result. -/
lemma samplePhase_preserves {nd : Oracle}
    (P : HashMap UInt32 (List NeighborInfo) → List NeighborKey → Prop)
    (hmove : ∀ {m ret org nk st rest}, ret.length + soft < num_outbound →
      m.get org = some ((nk, st) :: rest) → P m ret → P (m.insert org rest) (ret ++ [nk]))
    {fuel k : Nat} {m : HashMap UInt32 (List NeighborInfo)} {ret r : List NeighborKey}
    (hp : P m ret) (h : samplePhase nd num_outbound soft fuel k m ret = some r) : ∃ m', P m' r := by
  induction fuel generalizing k m ret with
  | zero =>
    obtain rfl | ⟨_, _, _, ⟨⟩, -⟩ := samplePhase_eq_some h
    exact ⟨m, hp⟩
  | succ fuel ih =>
    obtain rfl | ⟨_, m', ret', ⟨⟩, hr, h⟩ := samplePhase_eq_some h
    · exact ⟨m, hp⟩
    · obtain ⟨-, ⟨⟨⟩, -⟩ | ⟨hgo, org, nk, st, rest, hget, ho⟩⟩ := sampleRound_eq_some hr
      obtain ⟨rfl, rfl⟩ := Prod.mk.inj (Option.some.inj ho)
      exact ih (hmove hgo hget hp) h

lemma hardTrim_selectionInv {orgs : List UInt32} {m : HashMap UInt32 (List NeighborInfo)}
    {ret : List NeighborKey} {res : HashMap UInt32 (List NeighborInfo) × List NeighborKey}
    (hinv : SelectionInv pool m ret) (h : hardTrim num_outbound soft cap orgs m ret = some res) :
    SelectionInv pool res.1 res.2 := by
  refine hardTrim_preserves (SelectionInv pool) (fun hget h₁ h₂ hinv => ?_) hinv h
  obtain ⟨k, -, rfl⟩ := trimOrg_eq_some h₁
  obtain ⟨-, rfl⟩ := removeFront_eq_some_iff.1 h₂
  rw [List.take_take]
  refine hinv.move hget ?_
  simp only [List.length_append, List.length_map, List.length_take]
  omega

lemma samplePhase_subperm {nd : Oracle} {fuel k : Nat} {m : HashMap UInt32 (List NeighborInfo)}
    {ret r : List NeighborKey} (hinv : SelectionInv pool m ret)
    (h : samplePhase nd num_outbound soft fuel k m ret = some r) : r.Subperm (pool.map Prod.fst) :=
  (samplePhase_preserves (SelectionInv pool)
    (fun _ hget hinv => by simpa using hinv.move hget (le_refl 1)) hinv h).elim
    fun _ hinv => hinv.subperm

lemma hardTrim_extends {orgs : List UInt32} {m : HashMap UInt32 (List NeighborInfo)}
    {ret : List NeighborKey} {res : HashMap UInt32 (List NeighborInfo) × List NeighborKey}
    (h : hardTrim num_outbound soft cap orgs m ret = some res) : ret <+: res.2 :=
  hardTrim_preserves (fun _ r => ret <+: r) (fun _ h₁ _ hp => by
    obtain ⟨k, -, rfl⟩ := trimOrg_eq_some h₁
    exact hp.trans (List.prefix_append _ _)) (List.prefix_refl ret) h

lemma samplePhase_extends {nd : Oracle} {fuel k : Nat} {m : HashMap UInt32 (List NeighborInfo)}
    {ret r : List NeighborKey} (h : samplePhase nd num_outbound soft fuel k m ret = some r) :
    ret <+: r :=
  (samplePhase_preserves (fun _ r => ret <+: r) (fun _ _ hp => hp.trans (List.prefix_append _ _))
    (List.prefix_refl ret) h).elim fun _ h => h

/-- The excess of an organization's list over the cap. -/
def orgExcess (cap : Nat) (infos : Option (List NeighborInfo)) : Nat := (infos.getD []).length - cap

/-- While the excess of the organizations still to trim fits in the budget, the hard trim pushes
every organization's whole excess. -/
lemma hardTrim_full {orgs : List UInt32} {m : HashMap UInt32 (List NeighborInfo)}
    {ret : List NeighborKey} {res : HashMap UInt32 (List NeighborInfo) × List NeighborKey}
    (hnd : orgs.Nodup)
    (hbud : ret.length + (orgs.map fun o => orgExcess cap (m.get o)).sum + soft ≤ num_outbound)
    (h : hardTrim num_outbound soft cap orgs m ret = some res) :
    ∀ o ∈ orgs, ∀ x ∈ ((m.get o).getD []).take (orgExcess cap (m.get o)), x.1 ∈ res.2 := by
  induction orgs generalizing m ret with
  | nil => exact fun o ho => absurd ho (List.not_mem_nil o)
  | cons org orgs ih =>
    intro o ho
    obtain ⟨horg, hnd⟩ := List.nodup_cons.1 hnd
    simp only [List.map_cons, List.sum_cons] at hbud
    rcases hardTrim_cons h with ⟨hle, h⟩ | ⟨infos, ret₁, infos₁, hget, hcap, h₁, h₂, h⟩
    · have h0 : orgExcess cap (m.get org) = 0 := by
        cases hg : m.get org with
        | none => exact Nat.zero_sub cap
        | some infos => exact Nat.sub_eq_zero_of_le (hle infos hg)
      rcases List.mem_cons.1 ho with rfl | ho
      · simp [h0]
      · exact ih hnd (by omega) h o ho
    · have hex : orgExcess cap (m.get org) = infos.length - cap := by simp [orgExcess, hget]
      rw [hex] at hbud
      have htake : (infos.take (infos.length - cap)).length = infos.length - cap := by simp
      have htrim : trimOrg num_outbound soft (infos.take (infos.length - cap)) ret =
          some (ret ++ (infos.take (infos.length - cap)).map Prod.fst) := trimOrg_of_le (by omega)
      obtain rfl := Option.some.inj (h₁.symm.trans htrim)
      have hsame : ∀ o ∈ orgs, (m.insert org infos₁).get o = m.get o := fun o ho =>
        HashMap.get_insert_of_ne _ _ (ne_of_mem_of_not_mem ho horg)
      rcases List.mem_cons.1 ho with rfl | ho
      · intro x hx
        rw [hex, hget] at hx
        exact (hardTrim_extends h).subset
          (List.mem_append_right _ (List.mem_map_of_mem Prod.fst hx))
      · intro x hx
        rw [← hsame o ho] at hx
        refine ih hnd ?_ h o ho x hx
        rw [List.map_congr_left fun o ho => congrArg (orgExcess cap) (hsame o ho)]
        simp only [List.length_append, List.length_map, htake]
        omega

end Runs

/-! ### The table the trims start from -/

/-- The table of lines 192-208: the classification in the oracle's order, each list sorted. -/
def sortedTable (nd : Oracle) (D : HashMap UInt32 (List NeighborInfo)) :
    HashMap UInt32 (List NeighborInfo) :=
  sortedOrgs nd.now (D.reorder nd.orgOrder nd.orgOrder_perm).keys
    (D.reorder nd.orgOrder nd.orgOrder_perm)

lemma sortedTable_get (nd : Oracle) (D : HashMap UInt32 (List NeighborInfo)) (o : UInt32) :
    (sortedTable nd D).get o = (D.get o).map (sortedNeighborInfos nd.now) := by
  rw [sortedTable, sortedOrgs_get _ (HashMap.keys_nodup _), HashMap.get_reorder]
  split_ifs with ho
  · rfl
  · have hn : D.get o = none := by simpa using (HashMap.get_eq_none_iff _).2 ho
    simp [hn]

lemma sortedTable_values_perm (nd : Oracle) (D : HashMap UInt32 (List NeighborInfo)) :
    (sortedTable nd D).values.Perm D.values :=
  (sortedOrgs_values_perm _ _ _).trans (HashMap.values_reorder_perm _ _ _)

/-- The sort loop of the pass, when it does not panic, gives the sorted table; it does not panic
while the clock is at or past every classified first contact. -/
lemma sortOrgs_table {nd : Oracle} {D T : HashMap UInt32 (List NeighborInfo)}
    (h : sortOrgs nd.now (D.reorder nd.orgOrder nd.orgOrder_perm).keys
      (D.reorder nd.orgOrder nd.orgOrder_perm) = some T) : T = sortedTable nd D :=
  sortOrgs_eq_some h

lemma sortOrgs_table_of_le {nd : Oracle} {D : HashMap UInt32 (List NeighborInfo)}
    (h : ∀ x ∈ D.values, x.2.firstContactTime ≤ nd.now) :
    sortOrgs nd.now (D.reorder nd.orgOrder nd.orgOrder_perm).keys
      (D.reorder nd.orgOrder nd.orgOrder_perm) = some (sortedTable nd D) :=
  sortOrgs_of_le _ fun x hx => h x ((HashMap.values_reorder_perm _ _ _).subset hx)

lemma orgExcess_map_sort (now cap : Nat) (infos : Option (List NeighborInfo)) :
    orgExcess cap (infos.map (sortedNeighborInfos now)) = orgExcess cap infos := by
  cases infos <;> simp [orgExcess, (sortedNeighborInfos_perm _ _).length_eq]

/-- Sorting leaves the hard-trim demand, summed over the organizations, as it was. -/
lemma sortedOrgs_demand (now cap : Nat) (m : HashMap UInt32 (List NeighborInfo)) :
    (m.keys.map fun o => orgExcess cap ((sortedOrgs now m.keys m).get o)).sum =
      (m.entries.map fun e => e.2.length - cap).sum := by
  refine congrArg List.sum
    ((List.map_congr_left fun o ho => ?_).trans (m.map_get_keys (orgExcess cap)))
  rw [sortedOrgs_get now m.keys_nodup, if_pos ho, orgExcess_map_sort]

/-- The hard-trim demand of the sorted table is that of the classification. -/
lemma sortedTable_demand (nd : Oracle) (D : HashMap UInt32 (List NeighborInfo)) (cap : Nat) :
    ((D.reorder nd.orgOrder nd.orgOrder_perm).keys.map fun o =>
        orgExcess cap ((sortedTable nd D).get o)).sum =
      (D.entries.map fun e => e.2.length - cap).sum :=
  (sortedOrgs_demand _ _ _).trans ((nd.orgOrder_perm D.entries).map _).sum_eq

/-! The pass, by its three outcomes. -/

section Pass

variable {net : PeerNetwork} {preserve : List Nat} {nd : Oracle}

lemma pruneFrontierOutboundOrgs_of_le
    (hle : countOutboundConversations net.peers ≤ net.softNumNeighbors) :
    pruneFrontierOutboundOrgs net preserve nd = some (.ok []) := by
  unfold pruneFrontierOutboundOrgs
  exact if_pos hle

lemma pruneFrontierOutboundOrgs_of_error {e : NetError}
    (h_over : net.softNumNeighbors < countOutboundConversations net.peers)
    (hD : orgNeighborDistribution net preserve = .error e) :
    pruneFrontierOutboundOrgs net preserve nd = some (.error e) := by
  unfold pruneFrontierOutboundOrgs
  dsimp only
  rw [if_neg (Nat.not_le_of_lt h_over), hD]

/-- Above the target, with a classification, the pass is the sort loop, the hard trim and then
the sampling loop. -/
lemma pruneFrontierOutboundOrgs_of_lt {D : HashMap UInt32 (List NeighborInfo)}
    (h_over : net.softNumNeighbors < countOutboundConversations net.peers)
    (hD : orgNeighborDistribution net preserve = .ok D) :
    pruneFrontierOutboundOrgs net preserve nd =
      ((sortOrgs nd.now (D.reorder nd.orgOrder nd.orgOrder_perm).keys
          (D.reorder nd.orgOrder nd.orgOrder_perm)).bind fun T =>
        (hardTrim (countOutboundConversations net.peers) net.softNumNeighbors
          net.softMaxNeighborsPerOrg (D.reorder nd.orgOrder nd.orgOrder_perm).keys T []).bind
        fun p => samplePhase nd (countOutboundConversations net.peers) net.softNumNeighbors
          p.1.values.length 0 p.1 p.2).map .ok := by
  unfold pruneFrontierOutboundOrgs
  dsimp only
  rw [if_neg (Nat.not_le_of_lt h_over), hD]
  rfl

/-- With the clock at or past every classified first contact, the pass above the target is the
hard trim of the sorted table and then the sampling loop. -/
lemma pruneFrontierOutboundOrgs_of_sorted {D : HashMap UInt32 (List NeighborInfo)}
    (h_over : net.softNumNeighbors < countOutboundConversations net.peers)
    (hD : orgNeighborDistribution net preserve = .ok D)
    (h_clock : ∀ x ∈ D.values, x.2.firstContactTime ≤ nd.now) :
    pruneFrontierOutboundOrgs net preserve nd =
      ((hardTrim (countOutboundConversations net.peers) net.softNumNeighbors
          net.softMaxNeighborsPerOrg (D.reorder nd.orgOrder nd.orgOrder_perm).keys
          (sortedTable nd D) []).bind fun p =>
        samplePhase nd (countOutboundConversations net.peers) net.softNumNeighbors
          p.1.values.length 0 p.1 p.2).map .ok := by
  rw [pruneFrontierOutboundOrgs_of_lt h_over hD, sortOrgs_table_of_le h_clock, Option.some_bind]

/-- A run that returns: below the target with nothing, or above it with a classification, a sort
loop, a hard trim of the sorted table and a sampling loop that all return. -/
lemma pruneFrontierOutboundOrgs_eq_ok {ret : List NeighborKey}
    (h : pruneFrontierOutboundOrgs net preserve nd = some (.ok ret)) :
    (countOutboundConversations net.peers ≤ net.softNumNeighbors ∧ ret = []) ∨
      (net.softNumNeighbors < countOutboundConversations net.peers ∧
        ∃ D m r, orgNeighborDistribution net preserve = .ok D ∧
          hardTrim (countOutboundConversations net.peers) net.softNumNeighbors
            net.softMaxNeighborsPerOrg (D.reorder nd.orgOrder nd.orgOrder_perm).keys
            (sortedTable nd D) [] = some (m, r) ∧
          samplePhase nd (countOutboundConversations net.peers) net.softNumNeighbors
            m.values.length 0 m r = some ret) := by
  by_cases hle : countOutboundConversations net.peers ≤ net.softNumNeighbors
  · rw [pruneFrontierOutboundOrgs_of_le hle] at h
    cases h
    exact .inl ⟨hle, rfl⟩
  · have h_over := Nat.lt_of_not_le hle
    refine .inr ⟨h_over, ?_⟩
    rcases hD : orgNeighborDistribution net preserve with e | D
    · rw [pruneFrontierOutboundOrgs_of_error h_over hD] at h
      cases h
    · rw [pruneFrontierOutboundOrgs_of_lt h_over hD] at h
      obtain ⟨r, hr, hret⟩ := Option.map_eq_some'.1 h
      cases hret
      obtain ⟨T, hT, hr⟩ := Option.bind_eq_some.1 hr
      obtain rfl := sortOrgs_table hT
      obtain ⟨⟨m, r'⟩, h1, h2⟩ := Option.bind_eq_some.1 hr
      exact ⟨D, m, r', rfl, h1, h2⟩

/-- A run that returns above the target sorted every organization's list without a panic. -/
lemma pruneFrontierOutboundOrgs_sorts {D : HashMap UInt32 (List NeighborInfo)}
    {ret : List NeighborKey} (h_over : net.softNumNeighbors < countOutboundConversations net.peers)
    (hD : orgNeighborDistribution net preserve = .ok D)
    (h : pruneFrontierOutboundOrgs net preserve nd = some (.ok ret)) (o : UInt32) :
    sortNeighborInfos nd.now ((D.get o).getD []) =
      some (sortedNeighborInfos nd.now ((D.get o).getD [])) := by
  rw [pruneFrontierOutboundOrgs_of_lt h_over hD] at h
  obtain ⟨r, hr, -⟩ := Option.map_eq_some'.1 h
  obtain ⟨T, hT, -⟩ := Option.bind_eq_some.1 hr
  cases hg : D.get o with
  | none => rfl
  | some l =>
    refine sortNeighborInfos_of_sortOrgs (HashMap.keys_nodup _) hT ?_ (by rwa [HashMap.get_reorder])
    rw [HashMap.mem_keys_iff, HashMap.get_reorder, hg]
    rfl

/-- Above the target the pass panics when an organization with two members or more has one
whose first contact is after the clock: its sort subtracts `first_contact_time` from `now` on
`u64` (lines 133-134). -/
lemma pruneFrontierOutboundOrgs_eq_none_of_clock {D : HashMap UInt32 (List NeighborInfo)}
    {o : UInt32} {l : List NeighborInfo}
    (h_over : net.softNumNeighbors < countOutboundConversations net.peers)
    (hD : orgNeighborDistribution net preserve = .ok D) (hg : D.get o = some l)
    (hlen : 2 ≤ l.length) {x : NeighborInfo} (hx : x ∈ l) (hlt : nd.now < x.2.firstContactTime) :
    pruneFrontierOutboundOrgs net preserve nd = none := by
  have ho : o ∈ (D.reorder nd.orgOrder nd.orgOrder_perm).keys := by
    rw [HashMap.mem_keys_iff, HashMap.get_reorder, hg]
    rfl
  rw [pruneFrontierOutboundOrgs_of_lt h_over hD,
    sortOrgs_eq_none (sortNeighborInfos_eq_none_iff.2 ⟨hlen, x, hx, hlt⟩) (HashMap.keys_nodup _) ho
      (by rwa [HashMap.get_reorder])]
  rfl

end Pass

/-! ### The results -/

/-- The keys the outbound pruner returns are drawn from the classified outbound neighbors, none
more often than it is classified. -/
theorem pruneFrontierOutboundOrgs_subperm {net : PeerNetwork} {preserve : List Nat}
    {nd : Oracle} {ret : List NeighborKey}
    (h : pruneFrontierOutboundOrgs net preserve nd = some (.ok ret)) :
    ret.Subperm (outboundPool net preserve) := by
  rcases pruneFrontierOutboundOrgs_eq_ok h with ⟨-, rfl⟩ | ⟨-, D, m, r, hD, h1, h2⟩
  · exact List.nil_subperm
  · have hinv := hardTrim_selectionInv (SelectionInv.init (sortedTable nd D)) h1
    exact (samplePhase_subperm hinv h2).trans
      (((sortedTable_values_perm nd D).map Prod.fst).trans
        (orgNeighborDistribution_values hD)).subperm

lemma length_filter_le_of_take {α : Type} {p : α → Bool} {L : List α} {n : Nat}
    (h : ∀ x ∈ L.take n, p x = false) : (L.filter p).length ≤ L.length - n := by
  conv_lhs => rw [← List.take_append_drop n L]
  rw [List.filter_append, List.filter_eq_nil_iff.2 fun x hx => by simp [h x hx], List.nil_append]
  exact (List.length_filter_le _ _).trans (List.length_drop n L).le

/-- When the organizations' excess over the cap fits in the outbound budget, every organization
keeps at most `soft_max_neighbors_per_org` of its classified members. -/
theorem pruneFrontierOutboundOrgs_org_cap {net : PeerNetwork} {preserve : List Nat}
    {nd : Oracle} {D : HashMap UInt32 (List NeighborInfo)} {ret : List NeighborKey}
    (h_over : net.softNumNeighbors < countOutboundConversations net.peers)
    (h_dist : orgNeighborDistribution net preserve = .ok D)
    (h_demand : (D.entries.map fun e => e.2.length - net.softMaxNeighborsPerOrg).sum ≤
      countOutboundConversations net.peers - net.softNumNeighbors)
    (h_ok : pruneFrontierOutboundOrgs net preserve nd = some (.ok ret)) (o : UInt32) :
    (((D.get o).getD []).filter fun x => x.1 ∉ ret).length ≤ net.softMaxNeighborsPerOrg := by
  rcases pruneFrontierOutboundOrgs_eq_ok h_ok with ⟨hle, -⟩ | ⟨-, D', m, r, hD, h1, h2⟩
  · omega
  · obtain rfl : D = D' := Except.ok.inj (h_dist.symm.trans hD)
    have hfull := hardTrim_full (HashMap.keys_nodup _)
      (by simp only [List.length_nil, sortedTable_demand]; omega) h1
    cases hg : D.get o with
    | none => simp
    | some l =>
      have ho : o ∈ (D.reorder nd.orgOrder nd.orgOrder_perm).keys := by
        rw [HashMap.mem_keys_iff, HashMap.get_reorder, hg]
        rfl
      have hsel := hfull o ho
      rw [sortedTable_get, hg] at hsel
      simp only [Option.getD_some]
      calc (l.filter fun x => x.1 ∉ ret).length
          = ((sortedNeighborInfos nd.now l).filter fun x => x.1 ∉ ret).length :=
            ((sortedNeighborInfos_perm _ l).symm.filter _).length_eq
        _ ≤ (sortedNeighborInfos nd.now l).length -
              ((sortedNeighborInfos nd.now l).length - net.softMaxNeighborsPerOrg) :=
            length_filter_le_of_take fun x hx => by
              simpa using (samplePhase_extends h2).subset (hsel x hx)
        _ ≤ net.softMaxNeighborsPerOrg := by omega

/-- The classification of `skipNet`: the hosts `::10` to `::12` in organization 1, and `::20`
to `::22` in organization 2. -/
def skipTable : HashMap UInt32 (List NeighborInfo) :=
  ⟨[(1, [10, 11, 12].map fun b => (hostKey b, ⟨true, 0, 0⟩)),
    (2, [20, 21, 22].map fun b => (hostKey b, ⟨true, 0, 0⟩))], by decide⟩

theorem pruneFrontierOutboundOrgs_org_cap_skipNet :
    skipNet.softNumNeighbors < countOutboundConversations skipNet.peers ∧
      orgNeighborDistribution skipNet [] = .ok skipTable ∧
      (skipTable.entries.map fun e => e.2.length - skipNet.softMaxNeighborsPerOrg).sum ≤
        countOutboundConversations skipNet.peers - skipNet.softNumNeighbors ∧
      pruneFrontierOutboundOrgs skipNet [] topOracle =
        some (.ok [hostKey 10, hostKey 20, hostKey 22, hostKey 11]) ∧
      (((skipTable.get 2).getD []).filter fun x =>
        x.1 ∉ [hostKey 10, hostKey 20, hostKey 22, hostKey 11]).length ≤
          skipNet.softMaxNeighborsPerOrg :=
  have h_over : skipNet.softNumNeighbors < countOutboundConversations skipNet.peers := by decide
  have h_dist : orgNeighborDistribution skipNet [] = .ok skipTable := rfl
  have h_demand : (skipTable.entries.map fun e => e.2.length - skipNet.softMaxNeighborsPerOrg).sum ≤
      countOutboundConversations skipNet.peers - skipNet.softNumNeighbors := by decide
  have h_ok : pruneFrontierOutboundOrgs skipNet [] topOracle =
      some (.ok [hostKey 10, hostKey 20, hostKey 22, hostKey 11]) := rfl
  ⟨h_over, h_dist, h_demand, h_ok, pruneFrontierOutboundOrgs_org_cap h_over h_dist h_demand h_ok 2⟩

/-! ### The sampling loop never panics -/

section Sampling

variable {nd : Oracle} {num_outbound soft : Nat}

lemma mem_weightedSample {m : HashMap UInt32 (List NeighborInfo)} {org : UInt32} {c : Nat}
    (h : (org, c) ∈ weightedSample m) : ∃ l, m.get org = some l ∧ l.length = c ∧ 0 < c := by
  obtain ⟨⟨o, l⟩, he, hc⟩ := List.mem_filterMap.1 h
  dsimp only at hc
  split_ifs at hc with hpos
  cases hc
  exact ⟨l, (HashMap.get_eq_some_iff m).2 he, rfl, hpos⟩

/-- The weights sum to the number of members listed. -/
lemma weightedSample_sum (m : HashMap UInt32 (List NeighborInfo)) :
    ((weightedSample m).map Prod.snd).sum = m.values.length := by
  unfold weightedSample HashMap.values
  induction m.entries with
  | nil => rfl
  | cons e l ih =>
    rw [List.filterMap_cons, List.flatMap_cons, List.length_append, ← ih]
    split_ifs with hpos
    · simp only [List.map_cons, List.sum_cons]
    · simp only [Nat.eq_zero_of_not_pos hpos, Nat.zero_add]

/-- While `ret` is no longer than the outbound count and the members listed fit in a `usize`,
a round does not panic: the subtraction does not underflow, the weights of a nonempty weight map
are positive and their sum does not overflow, and the organization drawn has a nonempty list. -/
lemma sampleRound_isSome {k : Nat} {m : HashMap UInt32 (List NeighborInfo)}
    {ret : List NeighborKey} (h : ret.length ≤ num_outbound) (hfit : m.values.length < 2 ^ 64) :
    (sampleRound nd num_outbound soft k m ret).isSome := by
  unfold sampleRound
  rw [(checkedSub_eq_some_iff).2 ⟨h, rfl⟩]
  dsimp only
  split_ifs with hd hlen
  · rfl
  · rfl
  · have hperm := nd.sampleOrder_perm k (weightedSample m)
    have hsum : ((nd.sampleOrder k (weightedSample m)).map Prod.snd).sum = m.values.length :=
      ((hperm.map Prod.snd).sum_eq).trans (weightedSample_sum m)
    obtain ⟨x, hx⟩ := List.exists_mem_of_length_pos (Nat.pos_of_ne_zero hlen)
    obtain ⟨-, -, -, hx0⟩ := mem_weightedSample (hperm.subset hx)
    have hpos : 0 < ((nd.sampleOrder k (weightedSample m)).map Prod.snd).sum :=
      lt_of_lt_of_le hx0 (List.le_sum_of_mem (List.mem_map_of_mem Prod.snd hx))
    obtain ⟨org, horg⟩ := Option.isSome_iff_exists.1
      (sampleOrgByNeighborCount_isSome hpos (hsum ▸ hfit) (nd.genRange_lt k _ hpos))
    obtain ⟨count, hmem, -⟩ := sampleOrgByNeighborCount_mem horg
    obtain ⟨l, hget, rfl, hc⟩ := mem_weightedSample (hperm.subset hmem)
    rw [horg]
    dsimp only
    rw [hget]
    cases l with
    | nil => exact absurd hc (lt_irrefl 0)
    | cons x rest => rfl

/-- A round that stops finds `ret` at or past the target, or no member left. -/
lemma sampleRound_stop_length {k : Nat} {m : HashMap UInt32 (List NeighborInfo)}
    {ret : List NeighborKey} (hr : sampleRound nd num_outbound soft k m ret = some none) :
    ret.length = max ret.length (min (num_outbound - soft) (ret.length + m.values.length)) := by
  obtain ⟨-, ⟨-, hle | hnil⟩ | ⟨-, -, -, -, -, -, ⟨⟩⟩⟩ := sampleRound_eq_some hr
  · omega
  · rw [hnil, List.length_nil]
    omega

/-- From a state that fits in the outbound count, with a round for every member left, the
sampling loop, when it returns, stops exactly at the target, or when no member is left, or at
once when `ret` is already at or past the target. -/
lemma samplePhase_length {fuel k : Nat} {m : HashMap UInt32 (List NeighborInfo)}
    {ret r : List NeighborKey} (hfuel : m.values.length ≤ fuel)
    (h : ret.length + m.values.length ≤ num_outbound)
    (hr : samplePhase nd num_outbound soft fuel k m ret = some r) :
    r.length = max ret.length (min (num_outbound - soft) (ret.length + m.values.length)) := by
  induction fuel generalizing k m ret with
  | zero =>
    obtain rfl | ⟨_, _, _, h0, -⟩ := samplePhase_eq_some hr
    · omega
    · cases h0
  | succ fuel ih =>
    rw [samplePhase] at hr
    rcases hs : sampleRound nd num_outbound soft k m ret with _ | _ | ⟨m', ret'⟩ <;>
      rw [hs] at hr
    · cases hr
    · cases hr
      exact sampleRound_stop_length hs
    · obtain ⟨-, ⟨⟨⟩, -⟩ | ⟨hgo, org, nk, st, rest, hget, ho⟩⟩ := sampleRound_eq_some hs
      obtain ⟨rfl, rfl⟩ := Prod.mk.inj (Option.some.inj ho)
      have hlen := values_length_insert_tail hget
      have hrl := ih (by omega) (by simp only [List.length_append, List.length_singleton]; omega) hr
      simp only [List.length_append, List.length_singleton] at hrl
      omega

/-- From a state that fits in the outbound count, with a round for every member left and fewer
than `2^64` outbound connections, the sampling loop does not panic. -/
lemma samplePhase_isSome {fuel k : Nat} {m : HashMap UInt32 (List NeighborInfo)}
    {ret : List NeighborKey} (hfuel : m.values.length ≤ fuel)
    (h : ret.length + m.values.length ≤ num_outbound) (hfit : num_outbound < 2 ^ 64) :
    (samplePhase nd num_outbound soft fuel k m ret).isSome := by
  induction fuel generalizing k m ret with
  | zero =>
    rw [samplePhase]
    obtain ⟨o, hs⟩ := Option.isSome_iff_exists.1
      (@sampleRound_isSome nd num_outbound soft k m ret (by omega) (by omega))
    rw [hs]
    rcases o with _ | _ <;> rfl
  | succ fuel ih =>
    rw [samplePhase]
    obtain ⟨o, hs⟩ := Option.isSome_iff_exists.1
      (@sampleRound_isSome nd num_outbound soft k m ret (by omega) (by omega))
    rw [hs]
    obtain ⟨-, ⟨rfl, -⟩ | ⟨-, org, nk, st, rest, hget, rfl⟩⟩ := sampleRound_eq_some hs
    · rfl
    · have hlen := values_length_insert_tail hget
      exact ih (by omega) (by simp only [List.length_append, List.length_singleton]; omega)

end Sampling

/-- On a table whose event ids are distinct, the classified members fit in the outbound count. -/
lemma values_length_le_count {net : PeerNetwork} {preserve : List Nat}
    {D : HashMap UInt32 (List NeighborInfo)} (hids : (net.events.entries.map Prod.snd).Nodup)
    (hD : orgNeighborDistribution net preserve = .ok D) :
    D.values.length ≤ countOutboundConversations net.peers := by
  rw [← List.length_map _ Prod.fst, (orgNeighborDistribution_values hD).length_eq]
  exact outboundPool_length_le hids

/-- The members the hard trim selected and those still listed fit in the outbound count. -/
lemma hardTrim_fit {net : PeerNetwork} {preserve : List Nat} {nd : Oracle}
    {D m : HashMap UInt32 (List NeighborInfo)} {r : List NeighborKey}
    (hids : (net.events.entries.map Prod.snd).Nodup)
    (hD : orgNeighborDistribution net preserve = .ok D)
    (hht : hardTrim (countOutboundConversations net.peers) net.softNumNeighbors
      net.softMaxNeighborsPerOrg (D.reorder nd.orgOrder nd.orgOrder_perm).keys
      (sortedTable nd D) [] = some (m, r)) :
    r.length + m.values.length ≤ countOutboundConversations net.peers := by
  obtain ⟨sel, rfl, hsub⟩ := hardTrim_selectionInv (SelectionInv.init (sortedTable nd D)) hht
  calc (sel.map Prod.fst).length + m.values.length
      = (sel ++ m.values).length := by simp
    _ ≤ (sortedTable nd D).values.length := hsub.length_le
    _ = D.values.length := (sortedTable_values_perm nd D).length_eq
    _ ≤ countOutboundConversations net.peers := values_length_le_count hids hD

/-- With fewer than `2^64` outbound connections, the sampling loop after a hard trim that returns
does not panic, and it stops exactly at the target, or when no member is left, or at once when
the hard trim already went past the target. -/
lemma samplePhase_after_hardTrim {net : PeerNetwork} {preserve : List Nat} {nd : Oracle}
    {D m : HashMap UInt32 (List NeighborInfo)} {r : List NeighborKey}
    (hids : (net.events.entries.map Prod.snd).Nodup)
    (hD : orgNeighborDistribution net preserve = .ok D)
    (hht : hardTrim (countOutboundConversations net.peers) net.softNumNeighbors
      net.softMaxNeighborsPerOrg (D.reorder nd.orgOrder nd.orgOrder_perm).keys
      (sortedTable nd D) [] = some (m, r))
    (h_count : countOutboundConversations net.peers < 2 ^ 64) :
    ∃ ret, samplePhase nd (countOutboundConversations net.peers) net.softNumNeighbors
        m.values.length 0 m r = some ret ∧
      ret.length = max r.length (min (countOutboundConversations net.peers -
        net.softNumNeighbors) (r.length + m.values.length)) := by
  have hfit := hardTrim_fit hids hD hht
  have hs : (samplePhase nd (countOutboundConversations net.peers) net.softNumNeighbors
      m.values.length 0 m r).isSome := samplePhase_isSome le_rfl hfit h_count
  obtain ⟨ret, hret⟩ := Option.isSome_iff_exists.1 hs
  exact ⟨ret, hret, samplePhase_length le_rfl hfit hret⟩

/-- On a table whose event ids are distinct and above the target, with the clock at or past
every classified first contact and fewer than `2^64` outbound connections, once the hard trim
returns `(m, r)` the outbound pruner returns: the sort and the sampling loop never panic, and the
loop stops exactly at `num_outbound - soft_num_neighbors` keys, or when no member is left, or at
once when the hard trim already went past the target.  Under these conditions every panic of the
pass is in the hard trim. -/
theorem pruneFrontierOutboundOrgs_of_hardTrim {net : PeerNetwork} {preserve : List Nat}
    {nd : Oracle} {D m : HashMap UInt32 (List NeighborInfo)} {r : List NeighborKey}
    (hids : (net.events.entries.map Prod.snd).Nodup)
    (h_over : net.softNumNeighbors < countOutboundConversations net.peers)
    (hD : orgNeighborDistribution net preserve = .ok D)
    (h_clock : ∀ x ∈ D.values, x.2.firstContactTime ≤ nd.now)
    (h_count : countOutboundConversations net.peers < 2 ^ 64)
    (hht : hardTrim (countOutboundConversations net.peers) net.softNumNeighbors
      net.softMaxNeighborsPerOrg (D.reorder nd.orgOrder nd.orgOrder_perm).keys
      (sortedTable nd D) [] = some (m, r)) :
    ∃ ret, pruneFrontierOutboundOrgs net preserve nd = some (.ok ret) ∧
      ret.length = max r.length (min (countOutboundConversations net.peers -
        net.softNumNeighbors) (r.length + m.values.length)) := by
  obtain ⟨ret, hret, hlen⟩ := samplePhase_after_hardTrim hids hD hht h_count
  refine ⟨ret, ?_, hlen⟩
  rw [pruneFrontierOutboundOrgs_of_sorted h_over hD h_clock, hht, Option.some_bind, hret]
  rfl

theorem pruneFrontierOutboundOrgs_of_hardTrim_skipNet :
    (skipNet.events.entries.map Prod.snd).Nodup ∧
      skipNet.softNumNeighbors < countOutboundConversations skipNet.peers ∧
      orgNeighborDistribution skipNet [] = .ok skipTable ∧
      (∀ x ∈ skipTable.values, x.2.firstContactTime ≤ topOracle.now) ∧
      countOutboundConversations skipNet.peers < 2 ^ 64 ∧
      ∃ m r, hardTrim (countOutboundConversations skipNet.peers) skipNet.softNumNeighbors
          skipNet.softMaxNeighborsPerOrg
          (skipTable.reorder topOracle.orgOrder topOracle.orgOrder_perm).keys
          (sortedTable topOracle skipTable) [] = some (m, r) ∧
        ∃ ret, pruneFrontierOutboundOrgs skipNet [] topOracle = some (.ok ret) ∧
          ret.length = max r.length (min (countOutboundConversations skipNet.peers -
            skipNet.softNumNeighbors) (r.length + m.values.length)) :=
  have hids : (skipNet.events.entries.map Prod.snd).Nodup := by decide
  have h_over : skipNet.softNumNeighbors < countOutboundConversations skipNet.peers := by decide
  have hD : orgNeighborDistribution skipNet [] = .ok skipTable := rfl
  have h_clock : ∀ x ∈ skipTable.values, x.2.firstContactTime ≤ topOracle.now := by decide
  have h_count : countOutboundConversations skipNet.peers < 2 ^ 64 := by decide
  ⟨hids, h_over, hD, h_clock, h_count, _, _, rfl,
    @pruneFrontierOutboundOrgs_of_hardTrim skipNet [] topOracle skipTable _ _ hids h_over hD
      h_clock h_count rfl⟩

/-! ### When the pass returns -/

section Returns

variable {num_outbound soft cap : Nat}

/-- The inner loop returns while the members to push fit in the outbound count. -/
lemma trimOrg_isSome {infos : List NeighborInfo} {ret : List NeighborKey}
    (h : ret.length + infos.length ≤ num_outbound) :
    (trimOrg num_outbound soft infos ret).isSome := by
  induction infos generalizing ret with
  | nil => rfl
  | cons x rest ih =>
    obtain ⟨nk, st⟩ := x
    simp only [List.length_cons] at h
    simp only [trimOrg]
    rw [(checkedSub_eq_some_iff).2 ⟨by simp only [List.length_append, List.length_singleton]; omega,
      rfl⟩]
    dsimp only
    split_ifs
    · rfl
    · exact ih (by simp only [List.length_append, List.length_singleton]; omega)

/-- The hard trim returns when the keys pushed so far and the excess still to push stay within a
bound `B ≤ num_outbound` that every organization over the cap reaches: each `remove(0)` loop then
finds as many members as `ret` has keys. -/
lemma hardTrim_isSome {B : Nat} (hB : B ≤ num_outbound) {orgs : List UInt32}
    {m : HashMap UInt32 (List NeighborInfo)} {ret : List NeighborKey} (hnd : orgs.Nodup)
    (hlen : ret.length + (orgs.map fun o => orgExcess cap (m.get o)).sum ≤ B)
    (hfit : ∀ o ∈ orgs, ∀ infos, m.get o = some infos → cap < infos.length → B ≤ infos.length) :
    (hardTrim num_outbound soft cap orgs m ret).isSome := by
  induction orgs generalizing m ret with
  | nil => rfl
  | cons org orgs ih =>
    obtain ⟨horg, hnd⟩ := List.nodup_cons.1 hnd
    simp only [List.map_cons, List.sum_cons] at hlen
    have hsame : ∀ v, ∀ o ∈ orgs, (m.insert org v).get o = m.get o := fun v o ho =>
      HashMap.get_insert_of_ne _ _ (ne_of_mem_of_not_mem ho horg)
    have hfit' := fun o ho => hfit o (List.mem_cons_of_mem org ho)
    unfold hardTrim
    cases hget : m.get org with
    | none =>
      rw [hget, show orgExcess cap none = 0 from Nat.zero_sub cap] at hlen
      exact ih hnd (by omega) hfit'
    | some infos =>
      rw [hget, show orgExcess cap (some infos) = infos.length - cap from rfl] at hlen
      dsimp only
      split_ifs with hcap
      · have hinfos := hfit org (List.mem_cons_self org orgs) infos hget hcap
        have ht : (trimOrg num_outbound soft (infos.take (infos.length - cap)) ret).isSome :=
          trimOrg_isSome (by simp only [List.length_take]; omega)
        obtain ⟨ret₁, h₁⟩ := Option.isSome_iff_exists.1 ht
        have hret₁ : ret₁.length ≤ ret.length + (infos.length - cap) := by
          obtain ⟨k, hk, rfl⟩ := trimOrg_eq_some h₁
          simp only [List.length_append, List.length_map, List.length_take] at hk ⊢
          omega
        have hrm : removeFront ret₁.length infos = some (infos.drop ret₁.length) :=
          (removeFront_eq_some_iff).2 ⟨by omega, rfl⟩
        simp only [h₁, hrm, Option.bind_eq_bind, Option.some_bind]
        refine ih hnd ?_ fun o ho infos' hg => hfit' o ho infos' (by rwa [hsame _ o ho] at hg)
        rw [List.map_congr_left fun o ho => congrArg (orgExcess cap) (hsame _ o ho)]
        omega
      · exact ih hnd (by omega) hfit'

end Returns

/-- On a table whose event ids are distinct, with the clock at or past every classified first
contact and fewer than `2^64` outbound connections, the outbound pruner returns `Ok` when the
classification succeeds and every organization over the cap has at least as many members as the
total excess over the cap: the keys pushed before an organization's `remove(0)` loop are at most
that excess, so the loop never meets an empty list.  With one organization over the cap this
always holds; the spec's example, with five, breaks it. -/
theorem pruneFrontierOutboundOrgs_returns {net : PeerNetwork} {preserve : List Nat}
    {nd : Oracle} {D : HashMap UInt32 (List NeighborInfo)}
    (hids : (net.events.entries.map Prod.snd).Nodup)
    (hD : orgNeighborDistribution net preserve = .ok D)
    (h_clock : ∀ x ∈ D.values, x.2.firstContactTime ≤ nd.now)
    (h_count : countOutboundConversations net.peers < 2 ^ 64)
    (h_fit : ∀ e ∈ D.entries, net.softMaxNeighborsPerOrg < e.2.length →
      (D.entries.map fun e => e.2.length - net.softMaxNeighborsPerOrg).sum ≤ e.2.length) :
    ∃ ret, pruneFrontierOutboundOrgs net preserve nd = some (.ok ret) := by
  by_cases hle : countOutboundConversations net.peers ≤ net.softNumNeighbors
  · exact ⟨[], pruneFrontierOutboundOrgs_of_le hle⟩
  have hE : (D.entries.map fun e => e.2.length - net.softMaxNeighborsPerOrg).sum ≤
      countOutboundConversations net.peers :=
    calc (D.entries.map fun e => e.2.length - net.softMaxNeighborsPerOrg).sum
        ≤ (D.entries.map fun e => e.2.length).sum := List.sum_le_sum fun e _ => Nat.sub_le _ _
      _ = D.values.length := (List.length_flatMap _ _).symm
      _ ≤ countOutboundConversations net.peers := values_length_le_count hids hD
  have hts : (hardTrim (countOutboundConversations net.peers) net.softNumNeighbors
      net.softMaxNeighborsPerOrg (D.reorder nd.orgOrder nd.orgOrder_perm).keys
      (sortedTable nd D) []).isSome :=
    hardTrim_isSome hE (HashMap.keys_nodup _) (by rw [List.length_nil, sortedTable_demand]; omega)
      fun o _ infos hg hcap => by
        rw [sortedTable_get] at hg
        obtain ⟨l, hl, rfl⟩ := Option.map_eq_some'.1 hg
        rw [(sortedNeighborInfos_perm _ _).length_eq] at hcap ⊢
        exact h_fit (o, l) ((HashMap.get_eq_some_iff _).1 hl) hcap
  obtain ⟨⟨m, r⟩, hht⟩ := Option.isSome_iff_exists.1 hts
  obtain ⟨ret, hret, -⟩ := samplePhase_after_hardTrim hids hD hht h_count
  refine ⟨ret, ?_⟩
  rw [pruneFrontierOutboundOrgs_of_sorted (Nat.lt_of_not_le hle) hD h_clock, hht, Option.some_bind,
    hret]
  rfl

theorem pruneFrontierOutboundOrgs_returns_skipNet :
    (skipNet.events.entries.map Prod.snd).Nodup ∧
      orgNeighborDistribution skipNet [] = .ok skipTable ∧
      (∀ x ∈ skipTable.values, x.2.firstContactTime ≤ topOracle.now) ∧
      countOutboundConversations skipNet.peers < 2 ^ 64 ∧
      (∀ e ∈ skipTable.entries, skipNet.softMaxNeighborsPerOrg < e.2.length →
        (skipTable.entries.map fun e => e.2.length - skipNet.softMaxNeighborsPerOrg).sum ≤
          e.2.length) ∧
      ∃ ret, pruneFrontierOutboundOrgs skipNet [] topOracle = some (.ok ret) :=
  have hids : (skipNet.events.entries.map Prod.snd).Nodup := by decide
  have hD : orgNeighborDistribution skipNet [] = .ok skipTable := rfl
  have h_clock : ∀ x ∈ skipTable.values, x.2.firstContactTime ≤ topOracle.now := by decide
  have h_count : countOutboundConversations skipNet.peers < 2 ^ 64 := by decide
  have h_fit : ∀ e ∈ skipTable.entries, skipNet.softMaxNeighborsPerOrg < e.2.length →
      (skipTable.entries.map fun e => e.2.length - skipNet.softMaxNeighborsPerOrg).sum ≤
        e.2.length := by decide
  ⟨hids, hD, h_clock, h_count, h_fit,
    pruneFrontierOutboundOrgs_returns hids hD h_clock h_count h_fit⟩

/-! ### Prefix selection -/

/-- The prefix invariant over the table `T` the trims start from: each organization's list `L` is
cut into the members `A` that have left it, whose keys are all in `ret`, and the members `B`
still listed, whose keys are not. -/
structure PrefixInv (T m : HashMap UInt32 (List NeighborInfo)) (ret : List NeighborKey) :
    Prop where
  cut : ∀ o L, T.get o = some L → ∃ A B, L = A ++ B ∧ m.get o = some B ∧
    (∀ x ∈ A, x.1 ∈ ret) ∧ ∀ x ∈ B, x.1 ∉ ret
  dom : ∀ o B, m.get o = some B → (T.get o).isSome

namespace PrefixInv

variable {T m : HashMap UInt32 (List NeighborInfo)} {ret : List NeighborKey}

lemma init (T : HashMap UInt32 (List NeighborInfo)) : PrefixInv T T [] :=
  ⟨fun _ L hL => ⟨[], L, rfl, hL, by simp, by simp⟩, fun _ _ h => by rw [h]; rfl⟩

variable (hT : (T.values.map Prod.fst).Nodup)
include hT

/-- No key is in two organizations' lists of the table. -/
lemma org_eq {o o' : UInt32} {L L' : List NeighborInfo} (hL : T.get o = some L)
    (hL' : T.get o' = some L') {x y : NeighborInfo} (hx : x ∈ L) (hy : y ∈ L')
    (hxy : x.1 = y.1) : o = o' := by
  by_contra hne
  rw [HashMap.values, List.map_flatMap] at hT
  have hd : (L.map Prod.fst).Disjoint (L'.map Prod.fst) :=
    (List.nodup_flatMap.1 hT).2.forall (fun _ _ h => List.Disjoint.symm h)
      ((HashMap.get_eq_some_iff T).1 hL) ((HashMap.get_eq_some_iff T).1 hL')
      fun h => hne (congrArg Prod.fst h)
  exact hd (List.mem_map_of_mem Prod.fst hx) (hxy ▸ List.mem_map_of_mem Prod.fst hy)

lemma keys_nodup_of_get {o : UInt32} {L : List NeighborInfo} (hL : T.get o = some L) :
    (L.map Prod.fst).Nodup := by
  rw [HashMap.values, List.map_flatMap] at hT
  exact (List.nodup_flatMap.1 hT).1 _ ((HashMap.get_eq_some_iff T).1 hL)

/-- One sampling round keeps the invariant: the member moved is the first one still listed. -/
lemma sample (h : PrefixInv T m ret) {org : UInt32} {nk : NeighborKey} {st : NeighborStats}
    {rest : List NeighborInfo} (hget : m.get org = some ((nk, st) :: rest)) :
    PrefixInv T (m.insert org rest) (ret ++ [nk]) := by
  obtain ⟨Lorg, hLorg⟩ := Option.isSome_iff_exists.1 (h.dom org _ hget)
  obtain ⟨Aorg, Borg, rfl, hBorg, -, -⟩ := h.cut org _ hLorg
  obtain rfl : Borg = (nk, st) :: rest := Option.some.inj (hBorg.symm.trans hget)
  refine ⟨fun o L hL => ?_, fun o B hB => ?_⟩
  · obtain ⟨A, B, rfl, hB, hA, hBn⟩ := h.cut o L hL
    by_cases ho : o = org
    · subst ho
      obtain rfl : B = (nk, st) :: rest := Option.some.inj (hB.symm.trans hget)
      have hnk : nk ∉ rest.map Prod.fst := by
        have hnd := keys_nodup_of_get hT hL
        rw [List.map_append, List.map_cons] at hnd
        exact (List.nodup_cons.1 hnd.of_append_right).1
      refine ⟨A ++ [(nk, st)], rest, by simp, by rw [HashMap.get_insert, if_pos rfl], ?_, ?_⟩
      · intro x hx
        rcases List.mem_append.1 hx with hx | hx
        · exact List.mem_append_left _ (hA x hx)
        · rw [List.mem_singleton.1 hx]
          exact List.mem_append_right _ (List.mem_singleton_self _)
      · intro x hx hx'
        rcases List.mem_append.1 hx' with h1 | h1
        · exact hBn x (List.mem_cons_of_mem _ hx) h1
        · exact hnk (List.mem_singleton.1 h1 ▸ List.mem_map_of_mem Prod.fst hx)
    · refine ⟨A, B, rfl, by rw [HashMap.get_insert_of_ne _ _ ho]; exact hB,
        fun x hx => List.mem_append_left _ (hA x hx), fun x hx hx' => ?_⟩
      rcases List.mem_append.1 hx' with h1 | h1
      · exact hBn x hx h1
      · exact ho (org_eq hT hL hLorg (List.mem_append_right A hx)
          (List.mem_append_right Aorg (List.mem_cons_self _ _)) (List.mem_singleton.1 h1))
  · rw [HashMap.get_insert] at hB
    split_ifs at hB with ho
    · rw [ho, hLorg]; rfl
    · exact h.dom o B hB

/-- The hard trim of one organization, from an empty `ret`, keeps the invariant: it pushes a
prefix `P` of the organization's list and then drops exactly `|P|` members. -/
lemma trim (h : PrefixInv T m []) {org : UInt32} {infos P : List NeighborInfo}
    (hget : m.get org = some infos) (hP : P <+: infos) :
    PrefixInv T (m.insert org (infos.drop P.length)) (P.map Prod.fst) := by
  obtain ⟨Lorg, hLorg⟩ := Option.isSome_iff_exists.1 (h.dom org _ hget)
  obtain ⟨Aorg, Borg, rfl, hBorg, -, -⟩ := h.cut org _ hLorg
  obtain rfl : infos = Borg := Option.some.inj (hget.symm.trans hBorg)
  have hsplit : infos = P ++ infos.drop P.length := by
    conv_lhs => rw [← List.take_append_drop P.length infos]
    rw [← List.prefix_iff_eq_take.1 hP]
  refine ⟨fun o L hL => ?_, fun o B hB => ?_⟩
  · obtain ⟨A, B, rfl, hB, hA, -⟩ := h.cut o L hL
    obtain rfl : A = [] :=
      List.eq_nil_iff_forall_not_mem.2 fun x hx => List.not_mem_nil _ (hA x hx)
    by_cases ho : o = org
    · subst ho
      obtain rfl : infos = B := Option.some.inj (hget.symm.trans hB)
      have hnd := keys_nodup_of_get hT hL
      rw [List.nil_append, hsplit, List.map_append] at hnd
      refine ⟨P, infos.drop P.length, hsplit, by rw [HashMap.get_insert, if_pos rfl],
        fun x hx => List.mem_map_of_mem _ hx, fun x hx hx' => ?_⟩
      exact List.disjoint_of_nodup_append hnd hx' (List.mem_map_of_mem _ hx)
    · refine ⟨[], B, rfl, by rw [HashMap.get_insert_of_ne _ _ ho]; exact hB, by simp,
        fun x hx hx' => ?_⟩
      obtain ⟨y, hy, hyx⟩ := List.mem_map.1 hx'
      exact ho (org_eq hT hL hLorg (List.mem_append_right [] hx)
        (List.mem_append_right Aorg (hP.subset hy)) hyx.symm)
  · rw [HashMap.get_insert] at hB
    split_ifs at hB with ho
    · rw [ho, hLorg]; rfl
    · exact h.dom o B hB

end PrefixInv

/-- With at most one organization over the cap, the hard trim keeps the prefix invariant: `ret` is
still empty when it reaches that organization, and no organization after it is trimmed. -/
lemma hardTrim_prefixInv {num_outbound soft cap : Nat} {T : HashMap UInt32 (List NeighborInfo)}
    (hT : (T.values.map Prod.fst).Nodup) {orgs : List UInt32}
    {m : HashMap UInt32 (List NeighborInfo)} {ret : List NeighborKey}
    {res : HashMap UInt32 (List NeighborInfo) × List NeighborKey} (hnd : orgs.Nodup)
    (hone : ∀ o ∈ orgs, ∀ o' ∈ orgs, ∀ L L', m.get o = some L → m.get o' = some L' →
      cap < L.length → cap < L'.length → o = o')
    (hret : ret = [] ∨ ∀ o ∈ orgs, ∀ L, m.get o = some L → L.length ≤ cap)
    (hinv : PrefixInv T m ret) (h : hardTrim num_outbound soft cap orgs m ret = some res) :
    PrefixInv T res.1 res.2 := by
  induction orgs generalizing m ret with
  | nil => cases h; exact hinv
  | cons org orgs ih =>
    obtain ⟨horg, hnd⟩ := List.nodup_cons.1 hnd
    have hone' := fun o ho o' ho' =>
      hone o (List.mem_cons_of_mem org ho) o' (List.mem_cons_of_mem org ho')
    rcases hardTrim_cons h with ⟨-, h⟩ | ⟨infos, ret₁, infos₁, hget, hcap, h₁, h₂, h⟩
    · exact ih hnd hone' (hret.imp_right fun hr o ho => hr o (List.mem_cons_of_mem org ho)) hinv h
    · obtain rfl : ret = [] := hret.resolve_right fun hr =>
        absurd (hr org (List.mem_cons_self org orgs) infos hget) (Nat.not_le_of_lt hcap)
      obtain ⟨k, -, rfl⟩ := trimOrg_eq_some h₁
      obtain ⟨-, rfl⟩ := removeFront_eq_some_iff.1 h₂
      simp only [List.nil_append, List.length_map] at h
      have hsame : ∀ o ∈ orgs, ∀ v, (m.insert org v).get o = m.get o := fun o ho v =>
        HashMap.get_insert_of_ne _ _ (ne_of_mem_of_not_mem ho horg)
      refine ih hnd (fun o ho o' ho' L L' hL hL' => ?_) (.inr fun o ho L hL => ?_)
        (hinv.trim hT hget ((List.take_prefix _ _).trans (List.take_prefix _ _))) h
      · rw [hsame o ho] at hL
        rw [hsame o' ho'] at hL'
        exact hone' o ho o' ho' L L' hL hL'
      · rw [hsame o ho] at hL
        refine Nat.le_of_not_lt fun hL' => horg ?_
        obtain rfl := hone org (List.mem_cons_self org orgs) o (List.mem_cons_of_mem org ho)
          infos L hget hL hcap hL'
        exact ho

/-! ### How far the hard trim overshoots -/

section Overshoot

variable {num_outbound soft cap : Nat}

/-- One organization's inner loop raises `max(|ret|, num_outbound - soft - 1)` by at most one:
below the target it stops at the target, and at or above it pushes one key and breaks. -/
lemma trimOrg_length_le {infos : List NeighborInfo} {ret ret' : List NeighborKey}
    (h : trimOrg num_outbound soft infos ret = some ret') :
    ret'.length ≤ max ret.length (num_outbound - soft - 1) + 1 := by
  induction infos generalizing ret with
  | nil => cases h; omega
  | cons x rest ih =>
    simp only [trimOrg] at h
    split at h
    · cases h
    · next d hd =>
      obtain ⟨-, rfl⟩ := checkedSub_eq_some_iff.1 hd
      simp only [List.length_append, List.length_singleton] at h
      split_ifs at h with hs
      · cases h; simp only [List.length_append, List.length_singleton]; omega
      · have := ih h
        simp only [List.length_append, List.length_singleton] at this
        omega

/-- Over a run of the hard trim, each organization over the cap adds at most one to
`max(|ret|, num_outbound - soft - 1)`. -/
lemma hardTrim_length_le {orgs : List UInt32} {m : HashMap UInt32 (List NeighborInfo)}
    {ret : List NeighborKey} {res : HashMap UInt32 (List NeighborInfo) × List NeighborKey}
    (hnd : orgs.Nodup) (h : hardTrim num_outbound soft cap orgs m ret = some res) :
    res.2.length ≤ max ret.length (num_outbound - soft - 1) +
      (orgs.filter fun o => cap < ((m.get o).getD []).length).length := by
  induction orgs generalizing m ret with
  | nil => cases h; exact Nat.le_add_right_of_le (le_max_left _ _)
  | cons org orgs ih =>
    obtain ⟨horg, hnd⟩ := List.nodup_cons.1 hnd
    rcases hardTrim_cons h with ⟨-, h⟩ | ⟨infos, ret₁, infos₁, hget, hcap, h₁, -, h⟩
    · have := ((List.sublist_cons_self org orgs).filter
        fun o => decide (cap < ((m.get o).getD []).length)).length_le
      have := ih hnd h
      omega
    · have hsame : (orgs.filter fun o => cap < (((m.insert org infos₁).get o).getD []).length) =
          orgs.filter fun o => cap < ((m.get o).getD []).length :=
        List.filter_congr fun o ho => by
          rw [HashMap.get_insert_of_ne _ _ (ne_of_mem_of_not_mem ho horg)]
      have h1 := trimOrg_length_le h₁
      have h2 := ih hnd h
      rw [hsame] at h2
      rw [List.filter_cons_of_pos (by simpa [hget] using hcap), List.length_cons]
      omega

/-- The sampling loop never goes past `max(|ret|, num_outbound - soft)`: it tests the target
before each push. -/
lemma samplePhase_length_le {nd : Oracle} {fuel k : Nat} {m : HashMap UInt32 (List NeighborInfo)}
    {ret r : List NeighborKey} (h : samplePhase nd num_outbound soft fuel k m ret = some r) :
    r.length ≤ max ret.length (num_outbound - soft) :=
  (samplePhase_preserves (fun _ r => r.length ≤ max ret.length (num_outbound - soft))
    (fun hgo _ _ => by simp only [List.length_append, List.length_singleton]; omega)
    (le_max_left _ _) h).elim fun _ h => h

end Overshoot

/-- The organizations over the cap in the sorted table are those of the classification. -/
lemma sortedTable_overCap (nd : Oracle) (D : HashMap UInt32 (List NeighborInfo)) (cap : Nat) :
    ((D.reorder nd.orgOrder nd.orgOrder_perm).keys.filter
        fun o => cap < (((sortedTable nd D).get o).getD []).length).length =
      (D.entries.filter fun e => cap < e.2.length).length := by
  rw [← List.countP_eq_length_filter, ← List.countP_eq_length_filter, HashMap.keys,
    List.countP_map, ← (nd.orgOrder_perm D.entries).countP_eq]
  refine List.countP_congr fun e he => ?_
  have hg : D.get e.1 = some e.2 := by
    rw [← HashMap.get_reorder D nd.orgOrder nd.orgOrder_perm]
    exact (HashMap.get_eq_some_iff _).2 he
  simp [sortedTable_get, hg, (sortedNeighborInfos_perm _ _).length_eq]

/-- Above the target, after the hard trim of the sorted table and the sampling loop, the keys go
past the target by at most one for each organization over the cap after the first. -/
lemma trimThenSample_length_le {nd : Oracle} {D m : HashMap UInt32 (List NeighborInfo)}
    {num_outbound soft cap fuel k : Nat} {r ret : List NeighborKey} (h_over : soft < num_outbound)
    (h1 : hardTrim num_outbound soft cap (D.reorder nd.orgOrder nd.orgOrder_perm).keys
      (sortedTable nd D) [] = some (m, r))
    (h2 : samplePhase nd num_outbound soft fuel k m r = some ret) :
    ret.length ≤
      num_outbound - soft + ((D.entries.filter fun e => cap < e.2.length).length - 1) := by
  have h3 := hardTrim_length_le (HashMap.keys_nodup _) h1
  rw [sortedTable_overCap] at h3
  have h4 := samplePhase_length_le h2
  simp only [List.length_nil] at h3
  omega

/-- The outbound pruner goes past its target `num_outbound - soft_num_neighbors` by at most one
key for each organization over the cap after the first: the hard trim tests the target only
after a push, and its break leaves one organization's loop only. -/
theorem pruneFrontierOutboundOrgs_length_le {net : PeerNetwork} {preserve : List Nat}
    {nd : Oracle} {D : HashMap UInt32 (List NeighborInfo)} {ret : List NeighborKey}
    (hD : orgNeighborDistribution net preserve = .ok D)
    (h : pruneFrontierOutboundOrgs net preserve nd = some (.ok ret)) :
    ret.length ≤ countOutboundConversations net.peers - net.softNumNeighbors +
      ((D.entries.filter fun e => net.softMaxNeighborsPerOrg < e.2.length).length - 1) := by
  rcases pruneFrontierOutboundOrgs_eq_ok h with ⟨-, rfl⟩ | ⟨h_over, D', m, r, hD', h1, h2⟩
  · exact Nat.zero_le _
  · obtain rfl : D = D' := Except.ok.inj (hD.symm.trans hD')
    exact trimThenSample_length_le h_over h1 h2

theorem pruneFrontierOutboundOrgs_length_le_overshootNet :
    ∃ D, orgNeighborDistribution overshootNet [] = .ok D ∧
      pruneFrontierOutboundOrgs overshootNet [] topOracle = some (.ok [hostKey 10, hostKey 20]) ∧
      [hostKey 10, hostKey 20].length ≤ countOutboundConversations overshootNet.peers -
        overshootNet.softNumNeighbors + ((D.entries.filter
          fun e => overshootNet.softMaxNeighborsPerOrg < e.2.length).length - 1) :=
  ⟨_, rfl, rfl, @pruneFrontierOutboundOrgs_length_le overshootNet [] topOracle _ _ rfl rfl⟩

end StacksPrune
