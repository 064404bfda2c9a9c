import StacksPrune.Selection
import StacksPrune.Inbound

/-!
# One pruning pass

`prune_frontier` (lines 359-414) runs the inbound pruner, closes every connection it returns and
counts it in `prune_inbound_counts`, then runs the outbound pruner on the table that is left and
does the same with `prune_outbound_counts`.  The diagnostic dump of lines 398-413 changes nothing
and is not modelled.

* `pruneFrontier_panics`: on the spec's own example (five organizations of four outbound
  connections, a target of ten, a cap of three) the pass panics in the hard trim.
* `pruners_subperm_candidates`: each pruner returns a choice of its candidates, none twice.
* `pruneFrontier_effect`: what a pass that returns does to the table and the counters; no
  count is lost or doubled.
* `pruneFrontier_keeps_preserved`: on a well-formed table no preserved connection is closed:
  neither pruner returns its key (`pruners_skip_preserved`), and the two loops keep every entry
  whose key they were not given (`loops_keep`).
* `pruneFrontier_no_double_eviction`: on a well-formed table no key is pruned twice in a pass.
* `pruneFrontierOutboundOrgs_selects_front`: with at most one organization over the cap, the
  outbound pruner selects from each organization a prefix of its sorted list.
* `pruneCycles_invariant`: over any sequence of maintenance cycles, a well-formed table stays
  well formed, no counter decreases, and a connection preserved in every cycle stays open.
* `pruneFrontier_host_cap`: after a pass whose inbound pruner ran, no address keeps more than
  `soft_max_clients_per_host` non-preserved inbound connections.

The two loops of the pass are one step, `pruneStep`, over the counter it raises.
-/

namespace StacksPrune

/-! ### The pass -/

/-- Modelled from the spec: `deregister_neighbor(&nk)` is not in the excerpt; it closes the
connection of `nk`, whose entry leaves `events` and whose conversation leaves `peers`. -/
def deregisterNeighbor (net : PeerNetwork) (nk : NeighborKey) : PeerNetwork :=
  match net.events.get nk with
  | some event_id => { net with events := net.events.remove nk, peers := net.peers.remove event_id }
  | none => net

/-- The counter update of lines 370-376 and 389-395: insert `1`, or add one to the count.  The
`unwrap()` is on a key that is present, so the default of `getD` is never read. -/
def bumpPruneCount (counts : HashMap NeighborKey Nat) (prune : NeighborKey) :
    HashMap NeighborKey Nat :=
  if !counts.containsKey prune then counts.insert prune 1
  else counts.insert prune ((counts.get prune).getD 0 + 1)

/-- The two loops of `prune_frontier`, by the counter each raises. -/
inductive PruneCounter
  | inbound
  | outbound
deriving DecidableEq

/-- Count `prune` in the counter of the loop `c`. -/
def PruneCounter.bump : PruneCounter → PeerNetwork → NeighborKey → PeerNetwork
  | .inbound, net, prune =>
    { net with pruneInboundCounts := bumpPruneCount net.pruneInboundCounts prune }
  | .outbound, net, prune =>
    { net with pruneOutboundCounts := bumpPruneCount net.pruneOutboundCounts prune }

/-- One round of the loops of lines 366-377 and 385-396: close the connection of `prune`, then
count it in the loop's counter. -/
def pruneStep (c : PruneCounter) (net : PeerNetwork) (prune : NeighborKey) : PeerNetwork :=
  c.bump (deregisterNeighbor net prune) prune

/-- One round of the loop of lines 366-377 over `pruned_by_ip`. -/
abbrev pruneInboundStep : PeerNetwork → NeighborKey → PeerNetwork := pruneStep .inbound

/-- One round of the loop of lines 385-396 over `pruned_by_org`. -/
abbrev pruneOutboundStep : PeerNetwork → NeighborKey → PeerNetwork := pruneStep .outbound

/-- `.unwrap_or(vec![])` (line 379). -/
def unwrapOrEmpty (r : Except NetError (List NeighborKey)) : List NeighborKey :=
  match r with
  | .ok v => v
  | .error _ => []

/-- `prune_frontier(local_peer, preserve)`: the table after the pass, `none` if it panics. -/
def pruneFrontier (net : PeerNetwork) (preserve : List Nat) (nd : Oracle) : Option PeerNetwork := do
  let pruned_by_ip ← pruneFrontierInboundIp net preserve nd
  let net := pruned_by_ip.foldl pruneInboundStep net
  let pruned_by_org ← pruneFrontierOutboundOrgs net preserve nd
  return (unwrapOrEmpty pruned_by_org).foldl pruneOutboundStep net

/-- A pass that returns: the inbound pruner returned `ips`, the outbound pruner returned `res`
on the table left by the first loop, and the table is that of the two loops. -/
lemma pruneFrontier_eq_some {net net' : PeerNetwork} {preserve : List Nat} {nd : Oracle}
    (h : pruneFrontier net preserve nd = some net') :
    ∃ ips res, pruneFrontierInboundIp net preserve nd = some ips ∧
      pruneFrontierOutboundOrgs (ips.foldl pruneInboundStep net) preserve nd = some res ∧
      net' = (unwrapOrEmpty res).foldl pruneOutboundStep (ips.foldl pruneInboundStep net) := by
  obtain ⟨ips, h1, h⟩ := Option.bind_eq_some.1 h
  obtain ⟨res, h2, h⟩ := Option.bind_eq_some.1 h
  exact ⟨ips, res, h1, h2, (Option.some.inj h).symm⟩

/-- On the spec's example, whose event ids are distinct, the pass panics.  Every organization is
one over the cap and the target is far, so the `k`-th organization pushes one key and then calls
`remove(0)` `ret.len() = k` times on its four members: the fifth call of the fifth
organization panics. -/
theorem pruneFrontier_panics :
    (fiveOrgNet.events.entries.map Prod.snd).Nodup ∧
      pruneFrontierInboundIp fiveOrgNet [] topOracle = some [] ∧
      pruneFrontierOutboundOrgs fiveOrgNet [] topOracle = none ∧
      pruneFrontier fiveOrgNet [] topOracle = none :=
  ⟨by decide, rfl, rfl, rfl⟩

/-! ### What each pruner may return -/

/-- Each pruner returns a choice of its candidates, none more often than it is one: the inbound
pruner of the keys of non-preserved inbound entries of `events` (`inboundCandidates`), the
outbound pruner of the keys of the conversations of non-preserved outbound entries that the peer
database finds (`outboundPool`).  Both lists have one member per such entry. -/
theorem pruners_subperm_candidates (net : PeerNetwork) (preserve : List Nat) (nd : Oracle) :
    (∀ ret, pruneFrontierInboundIp net preserve nd = some ret →
      ret.Subperm ((inboundCandidates net preserve).map fun c => c.2.1)) ∧
    (∀ ret, pruneFrontierOutboundOrgs net preserve nd = some (.ok ret) →
      ret.Subperm (outboundPool net preserve)) :=
  ⟨fun _ h => pruneFrontierInboundIp_subperm h, fun _ h => pruneFrontierOutboundOrgs_subperm h⟩

theorem pruners_subperm_candidates_skipNet :
    pruneFrontierOutboundOrgs skipNet [] topOracle =
        some (.ok [hostKey 10, hostKey 20, hostKey 22, hostKey 11]) ∧
      [hostKey 10, hostKey 20, hostKey 22, hostKey 11].Subperm (outboundPool skipNet []) :=
  have h : pruneFrontierOutboundOrgs skipNet [] topOracle =
      some (.ok [hostKey 10, hostKey 20, hostKey 22, hostKey 11]) := rfl
  ⟨h, (pruners_subperm_candidates skipNet [] topOracle).2 _ h⟩

/-- The inbound pruner never panics: `num_peers()` counts every conversation, so the
subtraction of line 282 does not underflow. -/
lemma pruneFrontierInboundIp_exists (net : PeerNetwork) (preserve : List Nat) (nd : Oracle) :
    ∃ ips, pruneFrontierInboundIp net preserve nd = some ips := by
  by_cases h : net.softNumClients < numPeers net - countOutboundConversations net.peers
  · exact ⟨_, pruneFrontierInboundIp_of_lt nd h⟩
  · exact ⟨_, pruneFrontierInboundIp_of_le nd (Nat.le_of_not_lt h)⟩

/-! ### Closing connections -/

section Close

variable {net : PeerNetwork} {k : NeighborKey}

lemma deregisterNeighbor_events (net : PeerNetwork) (k : NeighborKey) :
    (deregisterNeighbor net k).events.entries = net.events.entries.filter fun p => p.1 ≠ k := by
  unfold deregisterNeighbor
  split
  · rfl
  · next hn =>
    refine (List.filter_eq_self.2 fun p hp => ?_).symm
    have hk := (HashMap.get_eq_none_iff _).1 hn
    have hne : p.1 ≠ k := fun h => hk (h ▸ List.mem_map_of_mem Prod.fst hp)
    simpa using hne

@[simp] lemma deregisterNeighbor_pruneInboundCounts :
    (deregisterNeighbor net k).pruneInboundCounts = net.pruneInboundCounts := by
  unfold deregisterNeighbor; split <;> rfl

@[simp] lemma deregisterNeighbor_pruneOutboundCounts :
    (deregisterNeighbor net k).pruneOutboundCounts = net.pruneOutboundCounts := by
  unfold deregisterNeighbor; split <;> rfl

@[simp] lemma deregisterNeighbor_softNumNeighbors :
    (deregisterNeighbor net k).softNumNeighbors = net.softNumNeighbors := by
  unfold deregisterNeighbor; split <;> rfl

@[simp] lemma deregisterNeighbor_softMaxNeighborsPerOrg :
    (deregisterNeighbor net k).softMaxNeighborsPerOrg = net.softMaxNeighborsPerOrg := by
  unfold deregisterNeighbor; split <;> rfl

@[simp] lemma deregisterNeighbor_peerdb : (deregisterNeighbor net k).peerdb = net.peerdb := by
  unfold deregisterNeighbor; split <;> rfl

@[simp] lemma deregisterNeighbor_softNumClients :
    (deregisterNeighbor net k).softNumClients = net.softNumClients := by
  unfold deregisterNeighbor; split <;> rfl

@[simp] lemma deregisterNeighbor_softMaxClientsPerHost :
    (deregisterNeighbor net k).softMaxClientsPerHost = net.softMaxClientsPerHost := by
  unfold deregisterNeighbor; split <;> rfl

/-- The conversations left: all but that of the key's event id. -/
lemma deregisterNeighbor_peers_get (hk : net.events.get k = some e') {e : Nat} (he : e ≠ e') :
    (deregisterNeighbor net k).peers.get e = net.peers.get e := by
  unfold deregisterNeighbor
  rw [hk]
  simp only [HashMap.remove, HashMap.get_retain, ne_eq, he, not_false_eq_true, decide_True]
  cases net.peers.get e <;> rfl

/-- One more count for the key pruned, none for another. -/
lemma bumpPruneCount_get (counts : HashMap NeighborKey Nat) (prune j : NeighborKey) :
    ((bumpPruneCount counts prune).get j).getD 0 =
      (counts.get j).getD 0 + if j = prune then 1 else 0 := by
  unfold bumpPruneCount HashMap.containsKey
  by_cases hj : j = prune
  · subst hj
    cases hg : counts.get j <;> simp [hg]
  · split_ifs <;> simp [hj]

lemma foldl_bumpPruneCount_get (j : NeighborKey) :
    ∀ (l : List NeighborKey) (counts : HashMap NeighborKey Nat),
      ((l.foldl bumpPruneCount counts).get j).getD 0 = (counts.get j).getD 0 + l.count j
  | [], _ => rfl
  | p :: l, counts => by
    rw [List.foldl_cons, foldl_bumpPruneCount_get j l, bumpPruneCount_get, List.count_cons]
    by_cases hj : j = p
    · subst hj
      simp only [beq_self_eq_true, if_true]
      omega
    · simp [hj, Ne.symm hj]

end Close

/-! ### The loops -/

section Loops

/-! A loop round that closes a connection, and leaves the table as `deregister_neighbor`
does. -/

variable {step : PeerNetwork → NeighborKey → PeerNetwork}
  (hstep : ∀ net k, (step net k).events = (deregisterNeighbor net k).events ∧
    (step net k).peers = (deregisterNeighbor net k).peers)
include hstep

/-- After the loop, `events` has lost exactly the keys pruned. -/
lemma foldl_step_events :
    ∀ (l : List NeighborKey) (net : PeerNetwork),
      (l.foldl step net).events.entries = net.events.entries.filter fun p => p.1 ∉ l
  | [], net => by simp
  | k :: l, net => by
    rw [List.foldl_cons, foldl_step_events l, (hstep net k).1, deregisterNeighbor_events,
      List.filter_filter]
    congr 1
    funext p
    simp only [List.mem_cons, not_or, Bool.decide_and, Bool.and_comm]

end Loops

lemma pruneStep_table (c : PruneCounter) (net : PeerNetwork) (k : NeighborKey) :
    (pruneStep c net k).events = (deregisterNeighbor net k).events ∧
      (pruneStep c net k).peers = (deregisterNeighbor net k).peers := by
  cases c <;> exact ⟨rfl, rfl⟩

/-- The counter `counts` of the loop `own` after the loop `c` closed the keys `l`: raised by
`l` when `c` is its own loop, and as it was otherwise. -/
def PruneCounter.after : PruneCounter → PruneCounter → List NeighborKey →
    HashMap NeighborKey Nat → HashMap NeighborKey Nat
  | .inbound, .inbound, l, counts => l.foldl bumpPruneCount counts
  | .outbound, .outbound, l, counts => l.foldl bumpPruneCount counts
  | _, _, _, counts => counts

/-- A loop raises its own counter by the keys it closes and leaves the other one as it was. -/
lemma foldl_pruneStep_counts (c : PruneCounter) :
    ∀ (l : List NeighborKey) (net : PeerNetwork),
      (l.foldl (pruneStep c) net).pruneInboundCounts =
          c.after .inbound l net.pruneInboundCounts ∧
        (l.foldl (pruneStep c) net).pruneOutboundCounts =
          c.after .outbound l net.pruneOutboundCounts
  | [], _ => by cases c <;> exact ⟨rfl, rfl⟩
  | k :: l, net => by
    obtain ⟨h1, h2⟩ := foldl_pruneStep_counts c l (pruneStep c net k)
    cases c <;>
      exact ⟨h1.trans (by simp [pruneStep, PruneCounter.bump, PruneCounter.after]),
        h2.trans (by simp [pruneStep, PruneCounter.bump, PruneCounter.after])⟩

/-! ### What a pass does -/

/-- A pass that returns closes exactly the connections the two pruners returned, and counts each
closure once in its counter: no count is lost and none is doubled. -/
theorem pruneFrontier_effect {net net' : PeerNetwork} {preserve : List Nat} {nd : Oracle}
    (h : pruneFrontier net preserve nd = some net') :
    ∃ ips res, pruneFrontierInboundIp net preserve nd = some ips ∧
      pruneFrontierOutboundOrgs (ips.foldl pruneInboundStep net) preserve nd = some res ∧
      net'.events.entries =
        net.events.entries.filter (fun p => p.1 ∉ ips ∧ p.1 ∉ unwrapOrEmpty res) ∧
      ∀ k, (net'.pruneInboundCounts.get k).getD 0 =
          (net.pruneInboundCounts.get k).getD 0 + ips.count k ∧
        (net'.pruneOutboundCounts.get k).getD 0 =
          (net.pruneOutboundCounts.get k).getD 0 + (unwrapOrEmpty res).count k := by
  obtain ⟨ips, res, h1, h2, rfl⟩ := pruneFrontier_eq_some h
  refine ⟨ips, res, h1, h2, ?_, fun k => ⟨?_, ?_⟩⟩
  · rw [foldl_step_events (pruneStep_table .outbound),
      foldl_step_events (pruneStep_table .inbound), List.filter_filter]
    congr 1
    funext p
    rw [Bool.decide_and, Bool.and_comm]
  · rw [(foldl_pruneStep_counts .outbound _ _).1, (foldl_pruneStep_counts .inbound _ _).1]
    exact foldl_bumpPruneCount_get k ips _
  · rw [(foldl_pruneStep_counts .outbound _ _).2, (foldl_pruneStep_counts .inbound _ _).2]
    exact foldl_bumpPruneCount_get k _ _

/-- A pass only adds to the prune counters. -/
lemma pruneFrontier_counts_mono {net net' : PeerNetwork} {preserve : List Nat} {nd : Oracle}
    (h : pruneFrontier net preserve nd = some net') (k : NeighborKey) :
    (net.pruneInboundCounts.get k).getD 0 ≤ (net'.pruneInboundCounts.get k).getD 0 ∧
      (net.pruneOutboundCounts.get k).getD 0 ≤ (net'.pruneOutboundCounts.get k).getD 0 := by
  obtain ⟨ips, res, -, -, rfl⟩ := pruneFrontier_eq_some h
  rw [(foldl_pruneStep_counts .outbound _ _).1, (foldl_pruneStep_counts .inbound _ _).1,
    (foldl_pruneStep_counts .outbound _ _).2, (foldl_pruneStep_counts .inbound _ _).2]
  have h₁ := foldl_bumpPruneCount_get k ips net.pruneInboundCounts
  have h₂ := foldl_bumpPruneCount_get k (unwrapOrEmpty res) net.pruneOutboundCounts
  exact ⟨h₁ ▸ Nat.le_add_right _ _, h₂ ▸ Nat.le_add_right _ _⟩

/-- A pass over `skipNet` that returns. -/
theorem pruneFrontier_effect_skipNet :
    ∃ net', pruneFrontier skipNet [] topOracle = some net' ∧
      ∃ ips res, pruneFrontierInboundIp skipNet [] topOracle = some ips ∧
        pruneFrontierOutboundOrgs (ips.foldl pruneInboundStep skipNet) [] topOracle = some res ∧
        net'.events.entries =
          skipNet.events.entries.filter (fun p => p.1 ∉ ips ∧ p.1 ∉ unwrapOrEmpty res) ∧
        ∀ k, (net'.pruneInboundCounts.get k).getD 0 =
            (skipNet.pruneInboundCounts.get k).getD 0 + ips.count k ∧
          (net'.pruneOutboundCounts.get k).getD 0 =
            (skipNet.pruneOutboundCounts.get k).getD 0 + (unwrapOrEmpty res).count k :=
  ⟨_, rfl, pruneFrontier_effect rfl⟩

/-! ### Preserved connections survive -/

/-- A well-formed table: distinct keys have distinct event ids, and the conversation of an
entry's event id has the entry's key. -/
structure WellFormed (net : PeerNetwork) : Prop where
  ids_nodup : (net.events.entries.map Prod.snd).Nodup
  convo_key : ∀ p ∈ net.events.entries, ∀ convo, net.peers.get p.2 = some convo →
    convo.toNeighborKey = p.1

lemma WellFormed.of_table {net net' : PeerNetwork} (h : WellFormed net)
    (he : net'.events = net.events) (hp : net'.peers = net.peers) : WellFormed net' :=
  ⟨by rw [he]; exact h.ids_nodup, by rw [he, hp]; exact h.convo_key⟩

section Survive

variable {net : PeerNetwork} {nk k : NeighborKey} {e : Nat}

lemma deregisterNeighbor_peers_of_get {j : Nat} {c : ConversationP2P}
    (h : (deregisterNeighbor net k).peers.get j = some c) : net.peers.get j = some c := by
  unfold deregisterNeighbor at h
  split at h
  · simp only [HashMap.remove, HashMap.get_retain, Option.filter_eq_some] at h
    exact h.1
  · exact h

/-- Closing a connection keeps a table well formed. -/
lemma deregisterNeighbor_wellFormed (hwf : WellFormed net) :
    WellFormed (deregisterNeighbor net k) := by
  have hsub : (deregisterNeighbor net k).events.entries.Sublist net.events.entries := by
    rw [deregisterNeighbor_events]
    exact List.filter_sublist _
  exact ⟨(hsub.map Prod.snd).nodup hwf.ids_nodup, fun p hp convo hc =>
    hwf.convo_key p (hsub.subset hp) convo (deregisterNeighbor_peers_of_get hc)⟩

/-- Closing another connection keeps the entry `(nk, e)` and the conversation of `e`. -/
lemma deregisterNeighbor_keeps (hwf : WellFormed net) (he : (nk, e) ∈ net.events.entries)
    (hk : k ≠ nk) :
    (nk, e) ∈ (deregisterNeighbor net k).events.entries ∧
      (deregisterNeighbor net k).peers.get e = net.peers.get e := by
  constructor
  · rw [deregisterNeighbor_events]
    exact List.mem_filter.2 ⟨he, by simpa using Ne.symm hk⟩
  · cases hg : net.events.get k with
    | none => unfold deregisterNeighbor; rw [hg]
    | some e' =>
      refine deregisterNeighbor_peers_get hg fun hee => hk ?_
      have hmem : (k, e') ∈ net.events.entries := (HashMap.get_eq_some_iff _).1 hg
      subst hee
      exact congrArg Prod.fst (List.inj_on_of_nodup_map hwf.ids_nodup hmem he rfl)

/-! A loop round that closes a connection, and leaves the table as `deregister_neighbor`
does. -/

variable {step : PeerNetwork → NeighborKey → PeerNetwork}
  (hstep : ∀ net k, (step net k).events = (deregisterNeighbor net k).events ∧
    (step net k).peers = (deregisterNeighbor net k).peers)
include hstep

lemma foldl_step_wellFormed :
    ∀ (l : List NeighborKey) (net : PeerNetwork), WellFormed net → WellFormed (l.foldl step net)
  | [], _, hwf => hwf
  | k :: l, net, hwf => foldl_step_wellFormed l (step net k)
      ((deregisterNeighbor_wellFormed hwf).of_table (hstep net k).1 (hstep net k).2)

/-- A loop that closes only other connections keeps `(nk, e)` with its conversation. -/
lemma foldl_step_keeps :
    ∀ (l : List NeighborKey) (net : PeerNetwork), (∀ k ∈ l, k ≠ nk) → WellFormed net →
      (nk, e) ∈ net.events.entries →
        (nk, e) ∈ (l.foldl step net).events.entries ∧
          (l.foldl step net).peers.get e = net.peers.get e
  | [], _, _, _, he => ⟨he, rfl⟩
  | k :: l, net, hl, hwf, he => by
    obtain ⟨he', hpe⟩ := deregisterNeighbor_keeps hwf he (hl k (List.mem_cons_self k l))
    rw [← (hstep net k).1] at he'
    rw [← (hstep net k).2] at hpe
    obtain ⟨he'', hpe'⟩ := foldl_step_keeps l (step net k)
      (fun k' hk' => hl k' (List.mem_cons_of_mem k hk'))
      ((deregisterNeighbor_wellFormed hwf).of_table (hstep net k).1 (hstep net k).2) he'
    exact ⟨he'', hpe'.trans hpe⟩

/-- The loop only closes conversations: each conversation left was there before. -/
lemma foldl_step_peers_of_get {c : ConversationP2P} :
    ∀ (l : List NeighborKey) (net : PeerNetwork),
      (l.foldl step net).peers.get e = some c → net.peers.get e = some c
  | [], _, h => h
  | k :: l, net, h => by
    have h' := foldl_step_peers_of_get l (step net k) h
    rw [(hstep net k).2] at h'
    exact deregisterNeighbor_peers_of_get h'

end Survive

/-- A pass keeps a table well formed. -/
lemma pruneFrontier_wellFormed {net net' : PeerNetwork} {preserve : List Nat} {nd : Oracle}
    (hwf : WellFormed net) (h : pruneFrontier net preserve nd = some net') : WellFormed net' := by
  obtain ⟨ips, res, -, -, rfl⟩ := pruneFrontier_eq_some h
  exact foldl_step_wellFormed (pruneStep_table .outbound) _ _
    (foldl_step_wellFormed (pruneStep_table .inbound) _ _ hwf)

/-- The two loops keep every entry whose key neither pruner returned, with its conversation. -/
lemma loops_keep {net : PeerNetwork} {ips orgs : List NeighborKey} (hwf : WellFormed net)
    {nk : NeighborKey} {e : Nat} (he : (nk, e) ∈ net.events.entries) (hips : ∀ k ∈ ips, k ≠ nk)
    (horgs : ∀ k ∈ orgs, k ≠ nk) :
    (nk, e) ∈ (orgs.foldl pruneOutboundStep (ips.foldl pruneInboundStep net)).events.entries ∧
      (orgs.foldl pruneOutboundStep (ips.foldl pruneInboundStep net)).peers.get e =
        net.peers.get e := by
  obtain ⟨he1, hpe1⟩ := foldl_step_keeps (pruneStep_table .inbound) ips net hips hwf he
  obtain ⟨he2, hpe2⟩ := foldl_step_keeps (pruneStep_table .outbound) orgs _ horgs
    (foldl_step_wellFormed (pruneStep_table .inbound) ips net hwf) he1
  exact ⟨he2, hpe2.trans hpe1⟩

/-- Neither pruner returns the key of a preserved entry.  The inbound pruner returns keys of
non-preserved entries; the outbound pruner returns keys of conversations, which a well-formed
table gives the key of their entry, and that entry is still there after the inbound loop. -/
lemma pruners_skip_preserved {net : PeerNetwork} {preserve : List Nat} {nd : Oracle}
    {ips : List NeighborKey} {res : Except NetError (List NeighborKey)} (hwf : WellFormed net)
    (h1 : pruneFrontierInboundIp net preserve nd = some ips)
    (h2 : pruneFrontierOutboundOrgs (ips.foldl pruneInboundStep net) preserve nd = some res)
    {nk : NeighborKey} {e : Nat} (he : (nk, e) ∈ net.events.entries) (hp : e ∈ preserve) :
    (∀ k ∈ ips, k ≠ nk) ∧ ∀ k ∈ unwrapOrEmpty res, k ≠ nk := by
  have hips : ∀ k ∈ ips, k ≠ nk := fun k hk hkn => by
    obtain ⟨c, hc, rfl⟩ := List.mem_map.1 ((pruneFrontierInboundIp_subperm h1).subset hk)
    obtain ⟨hce, hcp⟩ := mem_inboundCandidates hc
    subst hkn
    exact hcp (HashMap.eq_of_mem_entries he hce ▸ hp)
  refine ⟨hips, fun k hk hkn => ?_⟩
  have hwf1 := foldl_step_wellFormed (pruneStep_table .inbound) ips net hwf
  obtain ⟨he1, -⟩ := foldl_step_keeps (pruneStep_table .inbound) ips net hips hwf he
  cases res with
  | error _ => simp [unwrapOrEmpty] at hk
  | ok orgs =>
    obtain ⟨⟨n1, n2⟩, hen, hpre, convo, hc, rfl⟩ :=
      mem_outboundPool ((pruneFrontierOutboundOrgs_subperm h2).subset hk)
    obtain rfl : n1 = nk := (hwf1.convo_key _ hen convo hc).symm.trans hkn
    exact hpre (HashMap.eq_of_mem_entries he1 hen ▸ hp)

/-- On a well-formed table, a pass that returns closes no preserved connection: its entry stays
in `events` and its conversation in `peers`. -/
theorem pruneFrontier_keeps_preserved {net net' : PeerNetwork} {preserve : List Nat}
    {nd : Oracle} (hwf : WellFormed net) (h : pruneFrontier net preserve nd = some net')
    {nk : NeighborKey} {e : Nat} (he : (nk, e) ∈ net.events.entries) (hp : e ∈ preserve) :
    (nk, e) ∈ net'.events.entries ∧ net'.peers.get e = net.peers.get e := by
  obtain ⟨ips, res, h1, h2, rfl⟩ := pruneFrontier_eq_some h
  obtain ⟨hips, horgs⟩ := pruners_skip_preserved hwf h1 h2 he hp
  exact loops_keep hwf he hips horgs

/-- The tables of `outboundNet` are well formed. -/
lemma outboundNet_wellFormed (hosts : List UInt8) (h : hosts.Nodup) (soft cap : Nat) :
    WellFormed (outboundNet hosts h soft cap) := by
  refine ⟨?_, fun p hp convo hc => ?_⟩
  · show ((hosts.enum.map fun q => (hostKey q.2, q.1)).map Prod.snd).Nodup
    rw [List.map_map, show Prod.snd ∘ (fun q : Nat × UInt8 => (hostKey q.2, q.1)) = Prod.fst
      from rfl, List.enum_map_fst]
    exact List.nodup_range _
  · obtain ⟨q, hq, rfl⟩ := List.mem_map.1 hp
    obtain ⟨q', hq', hqq⟩ := List.mem_map.1 ((HashMap.get_eq_some_iff _).1 hc)
    obtain ⟨h1, rfl⟩ := Prod.mk.inj hqq
    have h2 : q'.2 = q.2 := Option.some.inj ((List.mem_enum_iff_getElem?.1 hq').symm.trans
      (h1 ▸ List.mem_enum_iff_getElem?.1 hq))
    rw [h2]
    rfl

/-- `skipNet` with the connection to `::10` preserved: it is still open after the pass. -/
theorem pruneFrontier_keeps_preserved_skipNet :
    WellFormed skipNet ∧ (hostKey 10, 0) ∈ skipNet.events.entries ∧ 0 ∈ [0] ∧
      ∃ net', pruneFrontier skipNet [0] topOracle = some net' ∧
        (hostKey 10, 0) ∈ net'.events.entries ∧ net'.peers.get 0 = skipNet.peers.get 0 :=
  have hwf : WellFormed skipNet := outboundNet_wellFormed _ _ _ _
  have he : (hostKey 10, 0) ∈ skipNet.events.entries := List.mem_cons_self _ _
  ⟨hwf, he, List.mem_singleton_self 0, _, rfl,
    @pruneFrontier_keeps_preserved skipNet _ [0] topOracle hwf rfl _ _ he
      (List.mem_singleton_self 0)⟩

/-! ### No key is pruned twice -/

lemma nodup_of_subperm {α : Type} {l₁ l₂ : List α} (h : l₁.Subperm l₂) (hnd : l₂.Nodup) :
    l₁.Nodup := by
  obtain ⟨l, hp, hs⟩ := h
  exact hp.nodup_iff.1 (hs.nodup hnd)

lemma filterMap_sublist_map {α β : Type} {f : α → Option β} {g : α → β} :
    ∀ {l : List α}, (∀ a ∈ l, ∀ b, f a = some b → b = g a) → (l.filterMap f).Sublist (l.map g)
  | [], _ => .slnil
  | a :: l, hf => by
    rw [List.filterMap_cons, List.map_cons]
    have hl := filterMap_sublist_map fun x hx => hf x (List.mem_cons_of_mem a hx)
    cases h : f a with
    | none => exact hl.cons _
    | some b =>
      rw [hf a (List.mem_cons_self a l) b h]
      exact hl.cons₂ _

/-- The keys of the inbound candidates are keys of `events`, in `events` order. -/
lemma inboundCandidates_keys_sublist (net : PeerNetwork) (preserve : List Nat) :
    ((inboundCandidates net preserve).map fun c => c.2.1).Sublist net.events.keys := by
  rw [inboundCandidates, List.map_filterMap]
  refine filterMap_sublist_map fun e _ b h => ?_
  obtain ⟨c, hc, rfl⟩ := Option.map_eq_some'.1 h
  exact (clientEntry_eq_some hc).1

/-- On a well-formed table the pool is made of keys of `events`, in `events` order. -/
lemma outboundPool_sublist_keys {net : PeerNetwork} (hwf : WellFormed net) (preserve : List Nat) :
    (outboundPool net preserve).Sublist net.events.keys := by
  refine filterMap_sublist_map fun e he b h => ?_
  obtain ⟨p, hp, rfl⟩ := Option.map_eq_some'.1 h
  obtain ⟨-, convo, hc, -, hp2⟩ := orgEntry_eq_some hp
  rw [hp2]
  exact hwf.convo_key e he convo hc

/-- On a well-formed table the keys a pass prunes are distinct keys of `events`: neither pruner
returns a key twice, and the outbound pruner, which reads the table the inbound loop left, returns
no key that the inbound pruner returned. -/
lemma pruned_keys_nodup {net : PeerNetwork} {preserve : List Nat} {nd : Oracle}
    {ips : List NeighborKey} {res : Except NetError (List NeighborKey)} (hwf : WellFormed net)
    (h1 : pruneFrontierInboundIp net preserve nd = some ips)
    (h2 : pruneFrontierOutboundOrgs (ips.foldl pruneInboundStep net) preserve nd = some res) :
    (ips ++ unwrapOrEmpty res).Nodup ∧ ∀ k ∈ ips ++ unwrapOrEmpty res, k ∈ net.events.keys := by
  have hips : ips.Subperm net.events.keys :=
    (pruneFrontierInboundIp_subperm h1).trans (inboundCandidates_keys_sublist net preserve).subperm
  cases res with
  | error _ =>
    simpa [unwrapOrEmpty] using ⟨nodup_of_subperm hips net.events.keys_nodup, hips.subset⟩
  | ok orgs =>
    have hpool := outboundPool_sublist_keys
      (foldl_step_wellFormed (pruneStep_table .inbound) ips net hwf) preserve
    have horgs := pruneFrontierOutboundOrgs_subperm h2
    have hleft : ∀ k ∈ orgs, k ∈ net.events.keys ∧ k ∉ ips := fun k hk => by
      have hk1 := hpool.subset (horgs.subset hk)
      rw [HashMap.keys, foldl_step_events (pruneStep_table .inbound)] at hk1
      obtain ⟨p, hp, rfl⟩ := List.mem_map.1 hk1
      exact ⟨List.mem_map_of_mem _ (List.mem_filter.1 hp).1,
        by simpa using (List.mem_filter.1 hp).2⟩
    refine ⟨List.nodup_append.2 ⟨nodup_of_subperm hips net.events.keys_nodup,
      nodup_of_subperm horgs (hpool.nodup (HashMap.keys_nodup _)),
      fun k hk hk' => (hleft k hk').2 hk⟩, fun k hk => ?_⟩
    rcases List.mem_append.1 hk with hk | hk
    · exact hips.subset hk
    · exact (hleft k hk).1

/-- On a well-formed table no key is pruned twice in a pass: neither pruner returns a key twice,
and the outbound pruner, which reads the table the inbound loop left, returns no key that the
inbound pruner returned. -/
theorem pruneFrontier_no_double_eviction {net net' : PeerNetwork} {preserve : List Nat}
    {nd : Oracle} (hwf : WellFormed net) (h : pruneFrontier net preserve nd = some net') :
    ∃ ips res, pruneFrontierInboundIp net preserve nd = some ips ∧
      pruneFrontierOutboundOrgs (ips.foldl pruneInboundStep net) preserve nd = some res ∧
      (ips ++ unwrapOrEmpty res).Nodup := by
  obtain ⟨ips, res, h1, h2, -⟩ := pruneFrontier_eq_some h
  exact ⟨ips, res, h1, h2, (pruned_keys_nodup hwf h1 h2).1⟩

theorem pruneFrontier_no_double_eviction_skipNet :
    WellFormed skipNet ∧ ∃ net', pruneFrontier skipNet [] topOracle = some net' ∧
      ∃ ips res, pruneFrontierInboundIp skipNet [] topOracle = some ips ∧
        pruneFrontierOutboundOrgs (ips.foldl pruneInboundStep skipNet) [] topOracle = some res ∧
        (ips ++ unwrapOrEmpty res).Nodup :=
  have hwf : WellFormed skipNet := outboundNet_wellFormed _ _ _ _
  ⟨hwf, _, rfl, @pruneFrontier_no_double_eviction skipNet _ [] topOracle hwf rfl⟩

/-! ### Prefix selection with one organization over the cap -/

/-- On a well-formed table no key is in two lists of the sorted classification. -/
lemma sortedTable_keys_nodup {net : PeerNetwork} {preserve : List Nat} {nd : Oracle}
    {D : HashMap UInt32 (List NeighborInfo)} (hwf : WellFormed net)
    (hD : orgNeighborDistribution net preserve = .ok D) :
    ((sortedTable nd D).values.map Prod.fst).Nodup :=
  (((sortedTable_values_perm nd D).map Prod.fst).trans
    (orgNeighborDistribution_values hD)).nodup_iff.2
      ((outboundPool_sublist_keys hwf preserve).nodup net.events.keys_nodup)

/-- With at most one organization over the cap, each organization's selected members are the
first ones of its sorted list (the list the sort gives, which a pass that runs it does without a
panic): no member is pruned while one ranked before it is kept.  A member
can be dropped from its list without being pruned only when a second organization is over the
cap, since the hard trim then reaches it with keys of another organization in `ret`. -/
theorem pruneFrontierOutboundOrgs_selects_front {net : PeerNetwork} {preserve : List Nat}
    {nd : Oracle} {D : HashMap UInt32 (List NeighborInfo)} {ret : List NeighborKey}
    (hwf : WellFormed net) (hD : orgNeighborDistribution net preserve = .ok D)
    (hone : ∀ e ∈ D.entries, ∀ e' ∈ D.entries, net.softMaxNeighborsPerOrg < e.2.length →
      net.softMaxNeighborsPerOrg < e'.2.length → e.1 = e'.1)
    (h : pruneFrontierOutboundOrgs net preserve nd = some (.ok ret)) (o : UInt32) :
    ∃ A B, sortedNeighborInfos nd.now ((D.get o).getD []) = A ++ B ∧
      (∀ x ∈ A, x.1 ∈ ret) ∧ ∀ x ∈ B, x.1 ∉ ret := by
  rcases pruneFrontierOutboundOrgs_eq_ok h with ⟨-, rfl⟩ | ⟨-, D', m, r, hD', h1, h2⟩
  · exact ⟨[], _, rfl, by simp, by simp⟩
  obtain rfl : D = D' := Except.ok.inj (hD.symm.trans hD')
  have hT : ((sortedTable nd D).values.map Prod.fst).Nodup := sortedTable_keys_nodup hwf hD
  have hover : ∀ o L, (sortedTable nd D).get o = some L → net.softMaxNeighborsPerOrg < L.length →
      ∃ l, (o, l) ∈ D.entries ∧ net.softMaxNeighborsPerOrg < l.length := fun o L hL hcap => by
    rw [sortedTable_get] at hL
    obtain ⟨l, hl, rfl⟩ := Option.map_eq_some'.1 hL
    rw [(sortedNeighborInfos_perm _ _).length_eq] at hcap
    exact ⟨l, (HashMap.get_eq_some_iff _).1 hl, hcap⟩
  have hinv := hardTrim_prefixInv hT (HashMap.keys_nodup _)
    (fun o _ o' _ L L' hL hL' hc hc' => by
      obtain ⟨l, hl, hcl⟩ := hover o L hL hc
      obtain ⟨l', hl', hcl'⟩ := hover o' L' hL' hc'
      exact hone _ hl _ hl' hcl hcl')
    (.inl rfl) (PrefixInv.init _) h1
  obtain ⟨_, hfin⟩ := samplePhase_preserves (PrefixInv (sortedTable nd D))
    (fun _ hget hinv => hinv.sample hT hget) hinv h2
  cases hg : D.get o with
  | none => exact ⟨[], [], rfl, by simp, by simp⟩
  | some l =>
    obtain ⟨A, B, hAB, -, hA, hB⟩ :=
      hfin.cut o (sortedNeighborInfos nd.now l) (by rw [sortedTable_get, hg]; rfl)
    exact ⟨A, B, hAB, hA, hB⟩

/-- Three outbound connections in organization 1 and one in organization 2, a target of two and a
cap of two: only organization 1 is over the cap. -/
def oneOrgNet : PeerNetwork := outboundNet [10, 11, 12, 20] (by decide) 2 2

/-- The classification of `oneOrgNet`. -/
def oneOrgTable : HashMap UInt32 (List NeighborInfo) :=
  ⟨[(1, [10, 11, 12].map fun b => (hostKey b, ⟨true, 0, 0⟩)), (2, [(hostKey 20, ⟨true, 0, 0⟩)])],
    by decide⟩

theorem pruneFrontierOutboundOrgs_selects_front_oneOrg :
    WellFormed oneOrgNet ∧ orgNeighborDistribution oneOrgNet [] = .ok oneOrgTable ∧
      (∀ e ∈ oneOrgTable.entries, ∀ e' ∈ oneOrgTable.entries,
        oneOrgNet.softMaxNeighborsPerOrg < e.2.length →
          oneOrgNet.softMaxNeighborsPerOrg < e'.2.length → e.1 = e'.1) ∧
      ∃ ret, pruneFrontierOutboundOrgs oneOrgNet [] topOracle = some (.ok ret) ∧
        ∃ A B, sortedNeighborInfos topOracle.now ((oneOrgTable.get 1).getD []) = A ++ B ∧
          (∀ x ∈ A, x.1 ∈ ret) ∧ ∀ x ∈ B, x.1 ∉ ret :=
  have hwf : WellFormed oneOrgNet := outboundNet_wellFormed _ _ _ _
  have hD : orgNeighborDistribution oneOrgNet [] = .ok oneOrgTable := rfl
  have hone : ∀ e ∈ oneOrgTable.entries, ∀ e' ∈ oneOrgTable.entries,
      oneOrgNet.softMaxNeighborsPerOrg < e.2.length →
        oneOrgNet.softMaxNeighborsPerOrg < e'.2.length → e.1 = e'.1 := by decide
  ⟨hwf, hD, hone, _, rfl,
    @pruneFrontierOutboundOrgs_selects_front oneOrgNet [] topOracle oneOrgTable _ hwf hD hone rfl 1⟩

/-! ### The per-host ceiling -/

lemma filterMap_sublist_of_imp {α β : Type} {f g : α → Option β} {l' l : List α}
    (hl : l'.Sublist l) (hfg : ∀ a ∈ l', ∀ b, f a = some b → g a = some b) :
    (l'.filterMap f).Sublist (l.filterMap g) := by
  induction hl with
  | slnil => exact .slnil
  | cons a _ ih => exact (ih hfg).trans ((List.sublist_cons_self a _).filterMap g)
  | cons₂ a _ ih =>
    have hl := ih fun x hx => hfg x (List.mem_cons_of_mem a hx)
    cases hf : f a with
    | none =>
      exact (List.filterMap_cons_none hf ▸ hl).trans ((List.sublist_cons_self a _).filterMap g)
    | some b =>
      rw [List.filterMap_cons_some hf,
        List.filterMap_cons_some (hfg a (List.mem_cons_self a _) b hf)]
      exact hl.cons₂ b

/-- After a pass, an address keeps at most the members of its group that the inbound pruner did
not return: the outbound loop only closes connections. -/
lemma pruneFrontier_ipGroup_le_kept {net net' : PeerNetwork} {preserve : List Nat} {nd : Oracle}
    {ips : List NeighborKey} (h : pruneFrontier net preserve nd = some net')
    (h1 : pruneFrontierInboundIp net preserve nd = some ips) (a : PeerAddress) :
    (ipGroup net' preserve a).length ≤
      ((ipGroup net preserve a).filter fun c => c.2.1 ∉ ips).length := by
  obtain ⟨ips', res, h1', -, rfl⟩ := pruneFrontier_eq_some h
  obtain rfl : ips = ips' := Option.some.inj (h1.symm.trans h1')
  have hev := (foldl_step_events (pruneStep_table .outbound) (unwrapOrEmpty res)
    (ips.foldl pruneInboundStep net)).trans
      (congrArg (List.filter _) (foldl_step_events (pruneStep_table .inbound) ips net))
  have hsub : (inboundCandidates ((unwrapOrEmpty res).foldl pruneOutboundStep
      (ips.foldl pruneInboundStep net)) preserve).Sublist
        ((inboundCandidates net preserve).filter fun c => c.2.1 ∉ ips) := by
    rw [inboundCandidates, inboundCandidates, List.filter_filterMap, hev]
    refine filterMap_sublist_of_imp ((List.filter_sublist _).trans (List.filter_sublist _))
      fun x hx c hc => ?_
    have hxi : x.1 ∉ ips := by simpa using (List.mem_filter.1 (List.mem_filter.1 hx).1).2
    have hce := clientEntry_of_peers (fun e convo hc =>
      foldl_step_peers_of_get (pruneStep_table .inbound) ips net
        (foldl_step_peers_of_get (pruneStep_table .outbound) _ _ hc)) hc
    rw [hce, Option.filter_eq_some]
    exact ⟨rfl, by simpa [(clientEntry_eq_some hce).1] using hxi⟩
  calc (ipGroup _ preserve a).length
      ≤ (((inboundCandidates net preserve).filter fun c => c.2.1 ∉ ips).filter
          fun c => c.2.1.addrbytes = a).length := (hsub.filter _).length_le
    _ = ((ipGroup net preserve a).filter fun c => c.2.1 ∉ ips).length := by
      rw [ipGroup, List.filter_comm]

/-- After a pass whose inbound pruner ran, no address has more than `soft_max_clients_per_host`
non-preserved inbound connections: the inbound pruner keeps at most that many of each group, and
the outbound loop only closes connections. -/
theorem pruneFrontier_host_cap {net net' : PeerNetwork} {preserve : List Nat} {nd : Oracle}
    (h_in : net.softNumClients < numPeers net - countOutboundConversations net.peers)
    (h : pruneFrontier net preserve nd = some net') (a : PeerAddress) :
    (ipGroup net' preserve a).length ≤ net.softMaxClientsPerHost := by
  obtain ⟨ips, -, h1, -⟩ := pruneFrontier_eq_some h
  exact (pruneFrontier_ipGroup_le_kept h h1 a).trans (pruneFrontierInboundIp_kept_le h_in h1 a)

theorem pruneFrontier_host_cap_sameHost :
    sameHostNet.softNumClients < numPeers sameHostNet -
        countOutboundConversations sameHostNet.peers ∧
      ∃ net', pruneFrontier sameHostNet [] topOracle = some net' ∧
        (ipGroup net' [] (clientKey 1).addrbytes).length ≤ sameHostNet.softMaxClientsPerHost :=
  have h_in : sameHostNet.softNumClients <
      numPeers sameHostNet - countOutboundConversations sameHostNet.peers := by decide
  ⟨h_in, _, rfl, @pruneFrontier_host_cap sameHostNet _ [] topOracle h_in rfl _⟩

/-! ### Maintenance cycles -/

/-- Modelled from the spec: the node's maintenance loop calls `prune_frontier` once per cycle,
with that cycle's preserve set; the oracle gives the cycle's map orders and draws.  No connection
is registered between cycles: each pass runs on the table the one before it left.  `none` if a
pass panics. -/
def pruneCycles : PeerNetwork → List (List Nat × Oracle) → Option PeerNetwork
  | net, [] => some net
  | net, (preserve, nd) :: cycles =>
    (pruneFrontier net preserve nd).bind fun net' => pruneCycles net' cycles

/-- Over any sequence of maintenance cycles whose passes return, with no connection registered
between cycles, from a well-formed table: the table stays well formed, no prune counter decreases,
and a connection whose event id every cycle preserves stays open with its conversation. -/
theorem pruneCycles_invariant {net net' : PeerNetwork} {cycles : List (List Nat × Oracle)}
    (hwf : WellFormed net) (h : pruneCycles net cycles = some net') :
    WellFormed net' ∧
      (∀ k, (net.pruneInboundCounts.get k).getD 0 ≤ (net'.pruneInboundCounts.get k).getD 0 ∧
        (net.pruneOutboundCounts.get k).getD 0 ≤ (net'.pruneOutboundCounts.get k).getD 0) ∧
      ∀ nk e, (nk, e) ∈ net.events.entries → (∀ c ∈ cycles, e ∈ c.1) →
        (nk, e) ∈ net'.events.entries ∧ net'.peers.get e = net.peers.get e := by
  induction cycles generalizing net with
  | nil =>
    cases h
    exact ⟨hwf, fun _ => ⟨le_rfl, le_rfl⟩, fun _ _ he _ => ⟨he, rfl⟩⟩
  | cons c cycles ih =>
    obtain ⟨preserve, nd⟩ := c
    obtain ⟨net₁, h₁, h⟩ := Option.bind_eq_some.1 h
    obtain ⟨hwf', hcount, hkeep⟩ := ih (pruneFrontier_wellFormed hwf h₁) h
    refine ⟨hwf', fun k => ?_, fun nk e he hp => ?_⟩
    · have h₁k := pruneFrontier_counts_mono h₁ k
      have hk := hcount k
      omega
    · obtain ⟨ips, res, h1, h2, rfl⟩ := pruneFrontier_eq_some h₁
      obtain ⟨hips, horgs⟩ := pruners_skip_preserved hwf h1 h2 he (hp _ (List.mem_cons_self _ _))
      obtain ⟨he₁, hpe₁⟩ := loops_keep hwf he hips horgs
      obtain ⟨he', hpe'⟩ := hkeep nk e he₁ fun c hc => hp c (List.mem_cons_of_mem _ hc)
      exact ⟨he', hpe'.trans hpe₁⟩

/-- Two cycles over `skipNet`, each preserving the connection to `::10`. -/
theorem pruneCycles_invariant_skipNet :
    WellFormed skipNet ∧
      ∃ net', pruneCycles skipNet [([0], topOracle), ([0], topOracle)] = some net' ∧
      WellFormed net' ∧
      (∀ k, (skipNet.pruneInboundCounts.get k).getD 0 ≤ (net'.pruneInboundCounts.get k).getD 0 ∧
        (skipNet.pruneOutboundCounts.get k).getD 0 ≤ (net'.pruneOutboundCounts.get k).getD 0) ∧
      ∀ nk e, (nk, e) ∈ skipNet.events.entries →
        (∀ c ∈ [([0], topOracle), ([0], topOracle)], e ∈ c.1) →
        (nk, e) ∈ net'.events.entries ∧ net'.peers.get e = skipNet.peers.get e :=
  have hwf : WellFormed skipNet := outboundNet_wellFormed _ _ _ _
  ⟨hwf, _, rfl, @pruneCycles_invariant skipNet _ _ hwf rfl⟩

end StacksPrune
