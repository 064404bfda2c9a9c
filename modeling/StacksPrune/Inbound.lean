import StacksPrune.Rank
import Mathlib.Data.List.Perm.Basic

/-!
# The inbound pruner

`prune_frontier_inbound_ip` (lines 281-335) runs when more connections are inbound than
`soft_num_clients`.  It groups the non-preserved inbound connections by the address of their key
(on any port), sorts each group oldest first, and returns, from every group of more than
`soft_max_clients_per_host` members, the keys of the members after the first
`soft_max_clients_per_host`: the newest ones.

`ipNeighbor_get` says what the grouping holds, for every address; `pruneFrontierInboundIp_spec`
is the law of the pass for every address, and `pruneFrontierInboundIp_subperm` says that the keys
returned are a choice of inbound candidates, none twice.  The choice does not depend on the order
in which the map is visited (`pruneFrontierInboundIp_order_independent`), only the output's order
does.
-/

namespace StacksPrune

/-! ### The pass -/

/-- One round of the grouping loop of lines 288-305, for the entry `(nk, event_id)` of
`events`. -/
def ipNeighborStep (peers : HashMap Nat ConversationP2P) (preserve : List Nat)
    (ip_neighbor : HashMap PeerAddress (List ClientInfo)) (entry : NeighborKey × Nat) :
    HashMap PeerAddress (List ClientInfo) :=
  let nk := entry.1
  let event_id := entry.2
  if event_id ∈ preserve then ip_neighbor
  else match peers.get event_id with
    | some convo =>
      if !convo.stats.outbound then ip_neighbor.push nk.addrbytes (event_id, nk, convo.stats)
      else ip_neighbor
    | none => ip_neighbor

/-- The grouping `ip_neighbor` of lines 287-306, before the map is given its iteration order. -/
def ipNeighbor (net : PeerNetwork) (preserve : List Nat) : HashMap PeerAddress (List ClientInfo) :=
  net.events.entries.foldl (ipNeighborStep net.peers preserve) HashMap.empty

/-- The loop of lines 325-330 over one group: the keys of the members from index
`soft_max_clients_per_host` on, when the group is larger than that. -/
def clientsToRemove (soft_max_clients_per_host : Nat) (neighbor_info : List ClientInfo) :
    List NeighborKey :=
  if soft_max_clients_per_host < neighbor_info.length then
    (neighbor_info.drop soft_max_clients_per_host).map fun c => c.2.1
  else []

/-- `prune_frontier_inbound_ip(local_peer, preserve)`: `none` is the panic of the `u64`
subtraction of line 282.  The map is visited in the oracle's order, by the sort loop and by the
loop that collects, alike. -/
def pruneFrontierInboundIp (net : PeerNetwork) (preserve : List Nat) (nd : Oracle) :
    Option (List NeighborKey) :=
  match checkedSub (numPeers net) (countOutboundConversations net.peers) with
  | none => none
  | some num_inbound =>
    if num_inbound ≤ net.softNumClients then some []
    else
      let ip_neighbor := (ipNeighbor net preserve).reorder nd.ipOrder nd.ipOrder_perm
      let ip_neighbor := ip_neighbor.mapValues (sortBy compareFirstContact)
      some (ip_neighbor.entries.flatMap fun e => clientsToRemove net.softMaxClientsPerHost e.2)

/-! ### What an entry contributes -/

/-- The member that an `events` entry contributes to the grouping: only an entry that is not
preserved and whose conversation is inbound. -/
def clientEntry (net : PeerNetwork) (preserve : List Nat) (entry : NeighborKey × Nat) :
    Option ClientInfo :=
  if entry.2 ∈ preserve then none
  else match net.peers.get entry.2 with
    | some convo => if convo.stats.outbound then none else some (entry.2, entry.1, convo.stats)
    | none => none

/-- The inbound candidates, in `events` order. -/
def inboundCandidates (net : PeerNetwork) (preserve : List Nat) : List ClientInfo :=
  net.events.entries.filterMap (clientEntry net preserve)

/-- The group of the address `a`: the inbound candidates whose key has address `a`, on any
port, in `events` order. -/
def ipGroup (net : PeerNetwork) (preserve : List Nat) (a : PeerAddress) : List ClientInfo :=
  (inboundCandidates net preserve).filter fun c => c.2.1.addrbytes = a

/-- What a contributing entry gives: its key and event id, for an event id not preserved. -/
lemma clientEntry_eq_some {net : PeerNetwork} {preserve : List Nat} {entry : NeighborKey × Nat}
    {c : ClientInfo} (h : clientEntry net preserve entry = some c) :
    c.2.1 = entry.1 ∧ c.1 = entry.2 ∧ entry.2 ∉ preserve := by
  unfold clientEntry at h
  by_cases hp : entry.2 ∈ preserve
  · simp [hp] at h
  · rw [if_neg hp] at h
    split at h
    · split_ifs at h
      cases h
      exact ⟨rfl, rfl, hp⟩
    · cases h

/-- A candidate is a non-preserved entry of `events`. -/
lemma mem_inboundCandidates {net : PeerNetwork} {preserve : List Nat} {c : ClientInfo}
    (hc : c ∈ inboundCandidates net preserve) :
    (c.2.1, c.1) ∈ net.events.entries ∧ c.1 ∉ preserve := by
  obtain ⟨entry, he, hce⟩ := List.mem_filterMap.1 hc
  obtain ⟨h1, h2, hp⟩ := clientEntry_eq_some hce
  rw [h1, h2]
  exact ⟨he, hp⟩

/-- An entry contributes to a table with fewer conversations only what it contributes to the
table with all of them. -/
lemma clientEntry_of_peers {net net' : PeerNetwork} {preserve : List Nat}
    {entry : NeighborKey × Nat} {c : ClientInfo}
    (hp : ∀ e convo, net'.peers.get e = some convo → net.peers.get e = some convo)
    (h : clientEntry net' preserve entry = some c) : clientEntry net preserve entry = some c := by
  unfold clientEntry at h ⊢
  split_ifs at h ⊢
  cases hc : net'.peers.get entry.2 with
  | none => simp [hc] at h
  | some convo => rw [hc] at h; rw [hp _ _ hc]; exact h

lemma ipNeighborStep_eq (net : PeerNetwork) (preserve : List Nat)
    (m : HashMap PeerAddress (List ClientInfo)) (entry : NeighborKey × Nat) :
    ipNeighborStep net.peers preserve m entry = match clientEntry net preserve entry with
      | some c => m.push c.2.1.addrbytes c
      | none => m := by
  unfold ipNeighborStep clientEntry
  dsimp only
  split_ifs
  · rfl
  · cases net.peers.get entry.2 with
    | none => rfl
    | some convo => cases ho : convo.stats.outbound <;> simp [ho]

lemma foldl_ipNeighborStep (net : PeerNetwork) (preserve : List Nat) :
    ∀ (l : List (NeighborKey × Nat)) (m : HashMap PeerAddress (List ClientInfo)),
      (∀ a, ((l.foldl (ipNeighborStep net.peers preserve) m).get a).getD [] =
        (m.get a).getD [] ++
          (l.filterMap (clientEntry net preserve)).filter fun c => c.2.1.addrbytes = a) ∧
      (l.foldl (ipNeighborStep net.peers preserve) m).values.Perm
        (m.values ++ l.filterMap (clientEntry net preserve))
  | [], m => ⟨fun a => by simp, by simp⟩
  | x :: l, m => by
    obtain ⟨hget, hval⟩ :=
      foldl_ipNeighborStep net preserve l (ipNeighborStep net.peers preserve m x)
    rw [List.foldl_cons, ipNeighborStep_eq] at *
    simp only [List.filterMap_cons]
    cases hc : clientEntry net preserve x with
    | none => exact ⟨by simpa [hc] using hget, by simpa [hc] using hval⟩
    | some c =>
      simp only [hc] at hget hval
      refine ⟨fun a => ?_, hval.trans ?_⟩
      · rw [hget a, HashMap.get_push]
        by_cases ha : a = c.2.1.addrbytes <;> simp [ha, eq_comm]
      · simpa using (HashMap.values_push_perm m _ c).append_right _

/-- The grouping files each inbound candidate under its address, in `events` order. -/
theorem ipNeighbor_get (net : PeerNetwork) (preserve : List Nat) (a : PeerAddress) :
    ((ipNeighbor net preserve).get a).getD [] = ipGroup net preserve a := by
  simpa using (foldl_ipNeighborStep net preserve net.events.entries HashMap.empty).1 a

theorem ipNeighbor_values_perm (net : PeerNetwork) (preserve : List Nat) :
    (ipNeighbor net preserve).values.Perm (inboundCandidates net preserve) := by
  simpa using (foldl_ipNeighborStep net preserve net.events.entries HashMap.empty).2

/-! ### One group -/

@[simp] lemma clientsToRemove_eq (cap : Nat) (l : List ClientInfo) :
    clientsToRemove cap l = (l.drop cap).map fun c => c.2.1 := by
  unfold clientsToRemove
  split_ifs with h
  · rfl
  · rw [List.drop_eq_nil_of_le (by omega), List.map_nil]

/-- The members of a group sorted oldest first, cut after the first `cap`: those kept are no
newer than those returned. -/
lemma sortBy_firstContact_cut (cap : Nat) (l : List ClientInfo) :
    ∀ x ∈ (sortBy compareFirstContact l).drop cap, ∀ y ∈ (sortBy compareFirstContact l).take cap,
      y.2.2.firstContactTime ≤ x.2.2.firstContactTime := by
  have hs := sortBy_firstContact_sorted l
  rw [← List.take_append_drop cap (sortBy compareFirstContact l)] at hs
  exact fun x hx y hy => (List.pairwise_append.1 hs).2.2 y hy x hx

/-! ### The pass, over every address -/

/-- The table the collecting loop reads: the grouping in the oracle's order, each group
sorted. -/
def sortedGroups (net : PeerNetwork) (preserve : List Nat) (nd : Oracle) :
    HashMap PeerAddress (List ClientInfo) :=
  ((ipNeighbor net preserve).reorder nd.ipOrder nd.ipOrder_perm).mapValues
    (sortBy compareFirstContact)

lemma sortedGroups_get (net : PeerNetwork) (preserve : List Nat) (nd : Oracle) (a : PeerAddress) :
    ((sortedGroups net preserve nd).get a).getD [] =
      sortBy compareFirstContact (ipGroup net preserve a) := by
  rw [← ipNeighbor_get, sortedGroups, HashMap.get_mapValues, HashMap.get_reorder]
  cases (ipNeighbor net preserve).get a <;> rfl

/-- Every member of a sorted group has the group's address. -/
lemma sortedGroups_addr {net : PeerNetwork} {preserve : List Nat} {nd : Oracle}
    {e : PeerAddress × List ClientInfo} (he : e ∈ (sortedGroups net preserve nd).entries) :
    ∀ c ∈ e.2, c.2.1.addrbytes = e.1 := by
  have hg := sortedGroups_get net preserve nd e.1
  rw [(HashMap.get_eq_some_iff _).2 he, Option.getD_some] at hg
  intro c hc
  rw [hg] at hc
  exact of_decide_eq_true (List.mem_filter.1 ((sortBy_perm _ _).subset hc)).2

/-- Above the limit the pass returns the collecting loop's output. -/
lemma pruneFrontierInboundIp_of_lt {net : PeerNetwork} {preserve : List Nat} (nd : Oracle)
    (h : net.softNumClients < numPeers net - countOutboundConversations net.peers) :
    pruneFrontierInboundIp net preserve nd = some ((sortedGroups net preserve nd).entries.flatMap
      fun e => clientsToRemove net.softMaxClientsPerHost e.2) := by
  unfold pruneFrontierInboundIp
  rw [(checkedSub_eq_some_iff).2 ⟨countOutboundConversations_le_numPeers net, rfl⟩]
  dsimp only
  rw [if_neg (Nat.not_le_of_lt h)]
  rfl

/-- At or below the limit the pass returns nothing. -/
lemma pruneFrontierInboundIp_of_le {net : PeerNetwork} {preserve : List Nat} (nd : Oracle)
    (h : numPeers net - countOutboundConversations net.peers ≤ net.softNumClients) :
    pruneFrontierInboundIp net preserve nd = some [] := by
  unfold pruneFrontierInboundIp
  rw [(checkedSub_eq_some_iff).2 ⟨countOutboundConversations_le_numPeers net, rfl⟩]
  dsimp only
  rw [if_pos h]

lemma filter_addr_keys {b a : PeerAddress} {L : List ClientInfo}
    (hL : ∀ c ∈ L, c.2.1.addrbytes = b) :
    ((L.map fun c => c.2.1).filter fun k => k.addrbytes = a) =
      if b = a then L.map fun c => c.2.1 else [] := by
  split_ifs with hba
  · exact List.filter_eq_self.2 fun k hk => by
      obtain ⟨c, hc, rfl⟩ := List.mem_map.1 hk
      simp [hL c hc, hba]
  · exact List.filter_eq_nil_iff.2 fun k hk => by
      obtain ⟨c, hc, rfl⟩ := List.mem_map.1 hk
      simp [hL c hc, hba]

/-- What the pass returns for the address `a`: the members of `a`'s group after the first
`soft_max_clients_per_host`, in the sorted group's order. -/
lemma filter_addr_flatMap (net : PeerNetwork) (preserve : List Nat) (nd : Oracle)
    (a : PeerAddress) :
    ((sortedGroups net preserve nd).entries.flatMap
        fun e => clientsToRemove net.softMaxClientsPerHost e.2).filter
          (fun k => k.addrbytes = a) =
      ((sortBy compareFirstContact (ipGroup net preserve a)).drop net.softMaxClientsPerHost).map
        fun c => c.2.1 := by
  have hcongr : ∀ e ∈ (sortedGroups net preserve nd).entries,
      (clientsToRemove net.softMaxClientsPerHost e.2).filter (fun k => k.addrbytes = a) =
        if e.1 = a then clientsToRemove net.softMaxClientsPerHost e.2 else [] := fun e he => by
    rw [clientsToRemove_eq]
    exact filter_addr_keys fun c hc => sortedGroups_addr he c (List.mem_of_mem_drop hc)
  rw [List.filter_flatMap, List.flatMap_congr hcongr, HashMap.flatMap_entries_eq_get,
    ← sortedGroups_get]
  cases (sortedGroups net preserve nd).get a <;> simp

lemma flatMap_sublist_flatMap {α β : Type} {f g : α → List β} (h : ∀ a, (f a).Sublist (g a)) :
    ∀ l : List α, (l.flatMap f).Sublist (l.flatMap g)
  | [] => .slnil
  | a :: l => by simpa using (h a).append (flatMap_sublist_flatMap h l)

lemma sortedGroups_values_perm (net : PeerNetwork) (preserve : List Nat) (nd : Oracle) :
    (sortedGroups net preserve nd).values.Perm (inboundCandidates net preserve) := by
  rw [sortedGroups, HashMap.values_mapValues]
  refine (List.Perm.flatMap_left _ fun e _ => sortBy_perm _ e.2).trans ?_
  exact (HashMap.values_reorder_perm _ _ _).trans (ipNeighbor_values_perm net preserve)

lemma sortedGroups_entries_perm (net : PeerNetwork) (preserve : List Nat) (nd nd' : Oracle) :
    (sortedGroups net preserve nd).entries.Perm (sortedGroups net preserve nd').entries :=
  ((nd.ipOrder_perm _).trans (nd'.ipOrder_perm _).symm).map _

/-! ### The results -/

/-- The keys the inbound pruner returns are drawn from the inbound candidates, none more often
than it is a candidate. -/
theorem pruneFrontierInboundIp_subperm {net : PeerNetwork} {preserve : List Nat} {nd : Oracle}
    {ret : List NeighborKey} (h : pruneFrontierInboundIp net preserve nd = some ret) :
    ret.Subperm ((inboundCandidates net preserve).map fun c => c.2.1) := by
  by_cases hlt : net.softNumClients < numPeers net - countOutboundConversations net.peers
  · rw [pruneFrontierInboundIp_of_lt nd hlt] at h
    cases h
    have hsub := flatMap_sublist_flatMap
      (fun e : PeerAddress × List ClientInfo =>
        (clientsToRemove_eq net.softMaxClientsPerHost e.2).symm ▸
          (List.drop_sublist net.softMaxClientsPerHost e.2).map fun c : ClientInfo => c.2.1)
      (sortedGroups net preserve nd).entries
    rw [← List.map_flatMap] at hsub
    exact hsub.subperm.trans ((sortedGroups_values_perm net preserve nd).map _).subperm
  · rw [pruneFrontierInboundIp_of_le nd (Nat.le_of_not_lt hlt)] at h
    cases h
    exact List.nil_subperm

/-- Above the limit, at most `soft_max_clients_per_host` members of a group have a key that the
pass does not return: the first ones of the sorted group. -/
lemma pruneFrontierInboundIp_kept_le {net : PeerNetwork} {preserve : List Nat} {nd : Oracle}
    {ret : List NeighborKey}
    (h : net.softNumClients < numPeers net - countOutboundConversations net.peers)
    (hret : pruneFrontierInboundIp net preserve nd = some ret) (a : PeerAddress) :
    ((ipGroup net preserve a).filter fun c => c.2.1 ∉ ret).length ≤ net.softMaxClientsPerHost := by
  set S := sortBy compareFirstContact (ipGroup net preserve a)
  have hdrop : ∀ c ∈ S.drop net.softMaxClientsPerHost, c.2.1 ∈ ret := fun c hc => by
    have hk : c.2.1 ∈ (S.drop net.softMaxClientsPerHost).map fun c => c.2.1 :=
      List.mem_map_of_mem _ hc
    rw [← filter_addr_flatMap net preserve nd, Option.some.inj
      ((pruneFrontierInboundIp_of_lt nd h).symm.trans hret)] at hk
    exact (List.mem_filter.1 hk).1
  have hnil : (S.drop net.softMaxClientsPerHost).filter (fun c => c.2.1 ∉ ret) = [] :=
    List.filter_eq_nil_iff.2 fun c hc => by simpa using hdrop c hc
  calc ((ipGroup net preserve a).filter fun c => c.2.1 ∉ ret).length
      = (S.filter fun c => c.2.1 ∉ ret).length := (((sortBy_perm _ _).filter _).length_eq).symm
    _ ≤ (S.take net.softMaxClientsPerHost).length := by
      conv_lhs => rw [← List.take_append_drop net.softMaxClientsPerHost S]
      rw [List.filter_append, hnil, List.append_nil]
      exact List.length_filter_le _ _
    _ ≤ net.softMaxClientsPerHost := List.length_take_le _ _

/-- The inbound pruner's law, for every address `a`: it returns the keys of the
`|G_a| - soft_max_clients_per_host` newest members of the group `G_a` of `a`, no member it keeps
is newer than one it returns, and it returns no key of another connection. -/
theorem pruneFrontierInboundIp_spec (net : PeerNetwork) (preserve : List Nat) (nd : Oracle)
    (h : net.softNumClients < numPeers net - countOutboundConversations net.peers) :
    ∃ ret, pruneFrontierInboundIp net preserve nd = some ret ∧
      (∀ k ∈ ret, k ∈ (inboundCandidates net preserve).map fun c => c.2.1) ∧
      ∀ a, ∃ sel rest : List ClientInfo, (ipGroup net preserve a).Perm (rest ++ sel) ∧
        ret.filter (fun k => k.addrbytes = a) = sel.map (fun c => c.2.1) ∧
        sel.length = (ipGroup net preserve a).length - net.softMaxClientsPerHost ∧
        ∀ x ∈ sel, ∀ y ∈ rest, y.2.2.firstContactTime ≤ x.2.2.firstContactTime := by
  refine ⟨_, pruneFrontierInboundIp_of_lt nd h,
    fun k hk => (pruneFrontierInboundIp_subperm (pruneFrontierInboundIp_of_lt nd h)).subset hk,
    fun a => ⟨_, _, ?_, filter_addr_flatMap net preserve nd a, ?_, sortBy_firstContact_cut _ _⟩⟩
  · rw [List.take_append_drop]
    exact (sortBy_perm _ _).symm
  · rw [List.length_drop, (sortBy_perm _ _).length_eq]

/-- The keys the inbound pruner returns do not depend on the order in which the grouping is
visited: under any two orders it returns the same keys, each as often, in another order.  Each
group is sorted by its own members' first contact, whatever the order of the groups. -/
theorem pruneFrontierInboundIp_order_independent (net : PeerNetwork) (preserve : List Nat)
    (nd nd' : Oracle) :
    ∃ ret ret', pruneFrontierInboundIp net preserve nd = some ret ∧
      pruneFrontierInboundIp net preserve nd' = some ret' ∧ ret.Perm ret' := by
  by_cases h : net.softNumClients < numPeers net - countOutboundConversations net.peers
  · exact ⟨_, _, pruneFrontierInboundIp_of_lt nd h, pruneFrontierInboundIp_of_lt nd' h,
      (sortedGroups_entries_perm net preserve nd nd').flatMap_right _⟩
  · have hle := Nat.le_of_not_lt h
    exact ⟨[], [], pruneFrontierInboundIp_of_le nd hle, pruneFrontierInboundIp_of_le nd' hle,
      .refl _⟩

/-- The key of the host `::1` on the port `port`. -/
def clientKey (port : UInt16) : NeighborKey := ⟨0, ⟨List.replicate 15 0 ++ [1], by simp⟩, port⟩

/-- An inbound conversation with the host `::1` on the port `port`, first contacted at `t`. -/
def clientConvo (port : UInt16) (t : Nat) : ConversationP2P :=
  ⟨0, ⟨List.replicate 15 0 ++ [1], by simp⟩, port, ⟨false, t, 0⟩⟩

/-- Four inbound connections from `::1`, first contacted at 100, 200, 300 and 400, with at most
two clients per host and no client wanted. -/
def sameHostNet : PeerNetwork where
  events := ⟨[(clientKey 1, 0), (clientKey 2, 1), (clientKey 3, 2), (clientKey 4, 3)], by decide⟩
  peers := ⟨[(0, clientConvo 1 100), (1, clientConvo 2 200), (2, clientConvo 3 300),
    (3, clientConvo 4 400)], by decide⟩
  peerdb := ⟨fun _ _ _ => .ok none⟩
  softNumNeighbors := 0
  softMaxNeighborsPerOrg := 0
  softNumClients := 0
  softMaxClientsPerHost := 2
  pruneInboundCounts := HashMap.empty
  pruneOutboundCounts := HashMap.empty

theorem pruneFrontierInboundIp_spec_sameHost :
    sameHostNet.softNumClients < numPeers sameHostNet -
        countOutboundConversations sameHostNet.peers ∧
      ∃ ret, pruneFrontierInboundIp sameHostNet [] topOracle = some ret ∧
        (∀ k ∈ ret, k ∈ (inboundCandidates sameHostNet []).map fun c => c.2.1) ∧
        ∀ a, ∃ sel rest : List ClientInfo, (ipGroup sameHostNet [] a).Perm (rest ++ sel) ∧
          ret.filter (fun k => k.addrbytes = a) = sel.map (fun c => c.2.1) ∧
          sel.length = (ipGroup sameHostNet [] a).length - sameHostNet.softMaxClientsPerHost ∧
          ∀ x ∈ sel, ∀ y ∈ rest, y.2.2.firstContactTime ≤ x.2.2.firstContactTime :=
  have h : sameHostNet.softNumClients <
      numPeers sameHostNet - countOutboundConversations sameHostNet.peers := by decide
  ⟨h, pruneFrontierInboundIp_spec sameHostNet [] topOracle h⟩

/-- The spec's example: the two newest of the four connections go. -/
example : pruneFrontierInboundIp sameHostNet [] topOracle = some [clientKey 3, clientKey 4] := rfl

end StacksPrune
