import StacksPrune.Frontier

/-!
# How the two pruners compose, and what a run counts

`prune_frontier` (lines 359-397) runs the inbound pruner, closes what it returns, and only then
runs the outbound pruner, on the table the first loop left.  On a well-formed table the first loop
closes inbound connections only, and the outbound pruner reads nothing that such a closure
changes: the outbound count, the classification by organization and the two outbound limits.

* `pruneFrontierOutboundOrgs_after_inbound`: the outbound pruner returns, after the inbound loop,
  what it returns on the table before the pass.
* `pruneFrontier_eq_none_iff`: a pass over a well-formed table panics exactly when the outbound
  pruner panics on that table.
* `pruneCycles_conserves`: over any run of maintenance cycles, the registered connections plus the
  prunes recorded by the two counters stay constant: every connection closed is counted once, and
  nothing else is counted.
* `pruneCycles_conserves_by_direction`: each counter plus the open conversations of its own
  direction stays constant, so the inbound counter records inbound closures only and the
  outbound counter outbound ones.
* `pruneFrontier_outbound_floor`: a pass never leaves fewer outbound connections than
  `soft_num_neighbors` (or than there were, when there were fewer), except by one for each
  organization over the cap after the first.
* `pruneCycles_outbound_converges`: with a peer database that finds every peer and no preserved
  outbound connection, every cycle above the target closes an outbound connection, so the outbound
  count reaches `soft_num_neighbors` after as many cycles as it was over it.
* `pruneCycles_inbound_settles`: with one preserve set, only the first cycle closes inbound
  connections; every later inbound pruner returns nothing.
* `pruneCycles_reaches_fixpoint`: under the assumptions of the convergence result, after as many
  cycles as the outbound count was over its target, and at least one, a further pass with the same
  preserve set leaves the table exactly as it is.
-/

namespace StacksPrune

/-! ### The inbound loop is invisible to the outbound pruner -/

/-- The connection of `k`, if open, is not outbound: the conversation of its event id, if there
is one, is inbound. -/
def InboundSlot (net : PeerNetwork) (k : NeighborKey) : Prop :=
  ∀ e, (k, e) ∈ net.events.entries → ∀ convo, net.peers.get e = some convo →
    convo.stats.outbound = false

/-- The connection of `k` is open, with a conversation whose direction is `outbound`. -/
def OpenSlot (net : PeerNetwork) (k : NeighborKey) (outbound : Bool) : Prop :=
  ∃ e convo, (k, e) ∈ net.events.entries ∧ net.peers.get e = some convo ∧
    convo.stats.outbound = outbound

lemma OpenSlot.inboundSlot {net : PeerNetwork} {k : NeighborKey} (h : OpenSlot net k false) :
    InboundSlot net k := fun e' he' convo' hc' => by
  obtain ⟨e, convo, he, hc, ho⟩ := h
  obtain rfl : e = e' := HashMap.eq_of_mem_entries he he'
  obtain rfl : convo = convo' := Option.some.inj (hc.symm.trans hc')
  exact ho

/-- A fold that skips the elements `p` rejects, and on the others does what a second fold does,
gives that fold's result. -/
lemma foldlM_filter_of_skip {α β ε : Type} {f g : β → α → Except ε β} {p : α → Bool}
    {l : List α} (hg : ∀ x ∈ l, p x = true → ∀ m, g m x = f m x)
    (hf : ∀ x ∈ l, p x = false → ∀ m, f m x = .ok m) (m : β) :
    (l.filter p).foldlM g m = l.foldlM f m := by
  induction l generalizing m with
  | nil => rfl
  | cons x l ih =>
    have ih := ih (fun y hy => hg y (List.mem_cons_of_mem x hy))
      (fun y hy => hf y (List.mem_cons_of_mem x hy))
    cases hp : p x
    · rw [List.filter_cons_of_neg (by simp [hp]), List.foldlM_cons,
        hf x (List.mem_cons_self x l) hp m]
      exact ih m
    · rw [List.filter_cons_of_pos hp, List.foldlM_cons, List.foldlM_cons,
        hg x (List.mem_cons_self x l) hp m]
      exact congrArg _ (funext ih)

section Step

variable {peers peers' : HashMap Nat ConversationP2P} {peerdb : PeerDB} {preserve : List Nat}
  {m : HashMap UInt32 (List NeighborInfo)} {entry : NeighborKey × Nat}

/-- The classification step reads `peers` only at the entry's event id. -/
lemma orgNeighborStep_congr (h : peers'.get entry.2 = peers.get entry.2) :
    orgNeighborStep peers' peerdb preserve m entry =
      orgNeighborStep peers peerdb preserve m entry := by
  simp only [orgNeighborStep, h]

/-- An entry whose conversation is missing or inbound leaves the classification as it is. -/
lemma orgNeighborStep_of_inbound
    (h : ∀ convo, peers.get entry.2 = some convo → convo.stats.outbound = false) :
    orgNeighborStep peers peerdb preserve m entry = .ok m := by
  unfold orgNeighborStep
  dsimp only
  split_ifs
  · rfl
  · cases hc : peers.get entry.2 with
    | none => rfl
    | some convo => simp [h convo hc]

end Step

/-- The outbound pruner reads the table only through the outbound count, the classification by
organization and the two outbound limits. -/
lemma pruneFrontierOutboundOrgs_congr {net net' : PeerNetwork} {preserve : List Nat} (nd : Oracle)
    (hc : countOutboundConversations net'.peers = countOutboundConversations net.peers)
    (hD : orgNeighborDistribution net' preserve = orgNeighborDistribution net preserve)
    (hs : net'.softNumNeighbors = net.softNumNeighbors)
    (hcap : net'.softMaxNeighborsPerOrg = net.softMaxNeighborsPerOrg) :
    pruneFrontierOutboundOrgs net' preserve nd = pruneFrontierOutboundOrgs net preserve nd := by
  unfold pruneFrontierOutboundOrgs
  rw [hc, hD, hs, hcap]

section Close

variable {net : PeerNetwork} {k : NeighborKey}

/-- Closing an inbound connection keeps the outbound count. -/
lemma countOutboundConversations_deregisterNeighbor (h : InboundSlot net k) :
    countOutboundConversations (deregisterNeighbor net k).peers =
      countOutboundConversations net.peers := by
  unfold deregisterNeighbor
  split
  · next e he =>
    simp only [countOutboundConversations, HashMap.remove, HashMap.retain, List.filter_filter]
    congr 1
    refine List.filter_congr fun ⟨e', c⟩ hc => ?_
    by_cases hee : e' = e
    · subst hee
      have hin := h e' ((HashMap.get_eq_some_iff _).1 he) c ((HashMap.get_eq_some_iff _).2 hc)
      simp [hin]
    · simp [hee]
  · rfl

/-- Closing an inbound connection of a well-formed table keeps the classification by
organization: the entry that leaves contributed nothing, and every other entry keeps its
conversation. -/
lemma orgNeighborDistribution_deregisterNeighbor (hwf : WellFormed net) (h : InboundSlot net k)
    (preserve : List Nat) :
    orgNeighborDistribution (deregisterNeighbor net k) preserve =
      orgNeighborDistribution net preserve := by
  unfold orgNeighborDistribution
  rw [deregisterNeighbor_events, deregisterNeighbor_peerdb]
  refine foldlM_filter_of_skip (fun ⟨k', e'⟩ he hk _ => orgNeighborStep_congr ?_)
    (fun ⟨k', e'⟩ he hk _ => orgNeighborStep_of_inbound ?_) _
  · exact (deregisterNeighbor_keeps hwf he (Ne.symm (of_decide_eq_true hk))).2
  · obtain rfl : k' = k := by simpa using hk
    exact h e' he

/-- A key whose connection was not outbound still is not, after any connection closes. -/
lemma InboundSlot.deregister (h : InboundSlot net k) (j : NeighborKey) :
    InboundSlot (deregisterNeighbor net j) k := fun e he convo hc => by
  rw [deregisterNeighbor_events] at he
  exact h e (List.mem_filter.1 he).1 convo (deregisterNeighbor_peers_of_get hc)

end Close

/-- The inbound loop over keys of inbound connections keeps everything the outbound pruner
reads. -/
lemma foldl_pruneInboundStep_outboundView (preserve : List Nat) (l : List NeighborKey) :
    ∀ net : PeerNetwork, WellFormed net → (∀ k ∈ l, InboundSlot net k) →
      countOutboundConversations (l.foldl pruneInboundStep net).peers =
          countOutboundConversations net.peers ∧
        orgNeighborDistribution (l.foldl pruneInboundStep net) preserve =
          orgNeighborDistribution net preserve ∧
        (l.foldl pruneInboundStep net).softNumNeighbors = net.softNumNeighbors ∧
        (l.foldl pruneInboundStep net).softMaxNeighborsPerOrg = net.softMaxNeighborsPerOrg := by
  induction l with
  | nil => exact fun _ _ _ => ⟨rfl, rfl, rfl, rfl⟩
  | cons k l ih =>
    intro net hwf hl
    have hk := hl k (List.mem_cons_self k l)
    obtain ⟨hc, hD, hs, hcap⟩ := ih (pruneInboundStep net k)
      ((deregisterNeighbor_wellFormed hwf).of_table rfl rfl)
      fun j hj => (hl j (List.mem_cons_of_mem k hj)).deregister k
    rw [List.foldl_cons]
    exact ⟨hc.trans (countOutboundConversations_deregisterNeighbor hk),
      hD.trans (orgNeighborDistribution_deregisterNeighbor hwf hk preserve),
      hs.trans deregisterNeighbor_softNumNeighbors,
      hcap.trans deregisterNeighbor_softMaxNeighborsPerOrg⟩

lemma pruneFrontierOutboundOrgs_foldl_inbound (preserve : List Nat) (nd : Oracle)
    (l : List NeighborKey) (net : PeerNetwork) (hwf : WellFormed net)
    (hl : ∀ k ∈ l, InboundSlot net k) :
    pruneFrontierOutboundOrgs (l.foldl pruneInboundStep net) preserve nd =
      pruneFrontierOutboundOrgs net preserve nd :=
  let ⟨hc, hD, hs, hcap⟩ := foldl_pruneInboundStep_outboundView preserve l net hwf hl
  pruneFrontierOutboundOrgs_congr nd hc hD hs hcap

/-- The inbound pruner returns keys of open inbound connections only. -/
lemma openSlot_of_mem_inbound {net : PeerNetwork} {preserve : List Nat} {nd : Oracle}
    {ips : List NeighborKey} (h : pruneFrontierInboundIp net preserve nd = some ips)
    {k : NeighborKey} (hk : k ∈ ips) : OpenSlot net k false := by
  obtain ⟨c, hc, rfl⟩ := List.mem_map.1 ((pruneFrontierInboundIp_subperm h).subset hk)
  obtain ⟨⟨k', e⟩, he, hce⟩ := List.mem_filterMap.1 hc
  obtain ⟨rfl, -, -⟩ := clientEntry_eq_some hce
  unfold clientEntry at hce
  split_ifs at hce
  cases hconvo : net.peers.get e with
  | none => simp [hconvo] at hce
  | some convo =>
    simp only [hconvo] at hce
    split_ifs at hce with ho
    exact ⟨e, convo, he, hconvo, Bool.eq_false_iff.2 ho⟩

lemma inboundSlot_of_mem {net : PeerNetwork} {preserve : List Nat} {nd : Oracle}
    {ips : List NeighborKey} (h : pruneFrontierInboundIp net preserve nd = some ips)
    {k : NeighborKey} (hk : k ∈ ips) : InboundSlot net k :=
  (openSlot_of_mem_inbound h hk).inboundSlot

/-- A table is well formed when its event ids are distinct and the conversation of each entry, if
there is one, has the entry's key: a check that runs. -/
lemma WellFormed.of_check {net : PeerNetwork} (hids : (net.events.entries.map Prod.snd).Nodup)
    (hkeys : net.events.entries.all fun p =>
      (net.peers.get p.2).all fun convo => convo.toNeighborKey = p.1) : WellFormed net :=
  ⟨hids, fun p hp convo hc => by simpa [hc] using List.all_eq_true.1 hkeys p hp⟩

/-- Outbound connections to `::10` and `::11`, of organization 1, and to `::20`, of organization 2,
and three inbound connections from `::1`, first contacted at 100, 200 and 300; two neighbors
wanted and one per organization, one client wanted and one per host. -/
def mixedNet : PeerNetwork where
  events := ⟨[(hostKey 10, 0), (hostKey 11, 1), (hostKey 20, 2), (clientKey 1, 3),
    (clientKey 2, 4), (clientKey 3, 5)], by decide⟩
  peers := ⟨[(0, hostConvo 10), (1, hostConvo 11), (2, hostConvo 20), (3, clientConvo 1 100),
    (4, clientConvo 2 200), (5, clientConvo 3 300)], by decide⟩
  peerdb := orgByTens
  softNumNeighbors := 2
  softMaxNeighborsPerOrg := 1
  softNumClients := 1
  softMaxClientsPerHost := 1
  pruneInboundCounts := HashMap.empty
  pruneOutboundCounts := HashMap.empty

lemma mixedNet_wellFormed : WellFormed mixedNet := .of_check (by decide) (by decide)

/-- On a well-formed table the outbound pruner, run on the table the inbound loop left, returns
what it returns on the table before the pass: the inbound loop closes only inbound connections,
which change neither the outbound count, nor the classification by organization, nor the
outbound limits. -/
theorem pruneFrontierOutboundOrgs_after_inbound {net : PeerNetwork} {preserve : List Nat}
    {nd : Oracle} {ips : List NeighborKey} (hwf : WellFormed net)
    (h : pruneFrontierInboundIp net preserve nd = some ips) :
    pruneFrontierOutboundOrgs (ips.foldl pruneInboundStep net) preserve nd =
      pruneFrontierOutboundOrgs net preserve nd :=
  pruneFrontierOutboundOrgs_foldl_inbound preserve nd ips net hwf fun _ hk =>
    inboundSlot_of_mem h hk

/-- On `mixedNet` the inbound pruner closes the two newest connections from `::1`; the outbound
pruner returns the same key before and after. -/
theorem pruneFrontierOutboundOrgs_after_inbound_mixedNet :
    WellFormed mixedNet ∧ ∃ ips, pruneFrontierInboundIp mixedNet [] topOracle = some ips ∧
      pruneFrontierOutboundOrgs (ips.foldl pruneInboundStep mixedNet) [] topOracle =
        pruneFrontierOutboundOrgs mixedNet [] topOracle :=
  ⟨mixedNet_wellFormed, _, rfl, pruneFrontierOutboundOrgs_after_inbound mixedNet_wellFormed rfl⟩

example : pruneFrontierInboundIp mixedNet [] topOracle = some [clientKey 2, clientKey 3] ∧
    pruneFrontierOutboundOrgs mixedNet [] topOracle = some (.ok [hostKey 10]) := ⟨rfl, rfl⟩

/-- A pass over a well-formed table runs both pruners on the table before the pass. -/
lemma pruneFrontier_eq_bind {net : PeerNetwork} {preserve : List Nat} {nd : Oracle}
    (hwf : WellFormed net) :
    pruneFrontier net preserve nd = (pruneFrontierInboundIp net preserve nd).bind fun ips =>
      (pruneFrontierOutboundOrgs net preserve nd).map fun res =>
        (unwrapOrEmpty res).foldl pruneOutboundStep (ips.foldl pruneInboundStep net) := by
  obtain ⟨ips, h⟩ := pruneFrontierInboundIp_exists net preserve nd
  simp only [pruneFrontier, h, Option.bind_eq_bind, Option.some_bind,
    pruneFrontierOutboundOrgs_foldl_inbound preserve nd ips net hwf fun _ hk =>
      inboundSlot_of_mem h hk]
  cases pruneFrontierOutboundOrgs net preserve nd <;> rfl

/-- A pass over a well-formed table panics exactly when the outbound pruner panics on the table as
it was before the pass: the inbound pruner never panics, and the inbound loop changes nothing the
outbound pruner reads. -/
theorem pruneFrontier_eq_none_iff {net : PeerNetwork} {preserve : List Nat} {nd : Oracle}
    (hwf : WellFormed net) :
    pruneFrontier net preserve nd = none ↔ pruneFrontierOutboundOrgs net preserve nd = none := by
  obtain ⟨ips, h⟩ := pruneFrontierInboundIp_exists net preserve nd
  rw [pruneFrontier_eq_bind hwf, h, Option.some_bind, Option.map_eq_none']

/-- The spec's five organizations: the pass panics, as the outbound pruner does on the table. -/
theorem pruneFrontier_eq_none_iff_fiveOrgNet :
    WellFormed fiveOrgNet ∧
      (pruneFrontier fiveOrgNet [] topOracle = none ↔
        pruneFrontierOutboundOrgs fiveOrgNet [] topOracle = none) :=
  have hwf : WellFormed fiveOrgNet := outboundNet_wellFormed _ _ _ _
  ⟨hwf, pruneFrontier_eq_none_iff hwf⟩

/-! ### Every closure is counted once -/

/-- The number of prunes a counter map records, over all keys. -/
def totalPruneCount (counts : HashMap NeighborKey Nat) : Nat := (counts.entries.map Prod.snd).sum

section Counts

variable {κ : Type} [DecidableEq κ]

lemma sum_map_replace {k : κ} {v w : Nat} {l : List (κ × Nat)} (hl : (l.map Prod.fst).Nodup)
    (hk : l.lookup k = some w) :
    ((l.map fun e => if e.1 = k then (k, v) else e).map Prod.snd).sum + w =
      (l.map Prod.snd).sum + v := by
  induction l with
  | nil => cases hk
  | cons e l ih =>
    obtain ⟨k', w'⟩ := e
    simp only [List.map_cons, List.nodup_cons, List.mem_map, not_exists, not_and] at hl
    by_cases h : k' = k
    · subst h
      have hw : w' = w := by simpa using hk
      have hrest : (l.map fun e => if e.1 = k' then (k', v) else e) = l :=
        (List.map_congr_left fun e he => if_neg (hl.1 e he)).trans (List.map_id l)
      simp only [if_pos, hrest, List.map_cons, List.sum_cons, hw]
      omega
    · have hk' : l.lookup k = some w := by
        simpa [List.lookup_cons, beq_eq_false_iff_ne.2 (Ne.symm h)] using hk
      simp only [h, if_false, List.map_cons, List.sum_cons]
      have := ih hl.2 hk'
      omega

/-- `insert(k, v)` on a map of counts: the sum of the values gains `v` and loses the value it
replaces. -/
lemma sum_insert (m : HashMap κ Nat) (k : κ) (v : Nat) :
    ((m.insert k v).entries.map Prod.snd).sum + (m.get k).getD 0 =
      (m.entries.map Prod.snd).sum + v := by
  unfold HashMap.insert
  split
  · next w hw => rw [hw]; exact sum_map_replace m.nodup hw
  · next hn => simp [hn, List.sum_append]

end Counts

lemma totalPruneCount_bumpPruneCount (counts : HashMap NeighborKey Nat) (k : NeighborKey) :
    totalPruneCount (bumpPruneCount counts k) = totalPruneCount counts + 1 := by
  unfold bumpPruneCount HashMap.containsKey totalPruneCount
  cases hg : counts.get k with
  | none => simpa [hg] using sum_insert counts k 1
  | some c =>
    have := sum_insert counts k (c + 1)
    simp only [hg, Option.getD_some] at this
    simp only [hg, Option.isSome_some, Bool.not_true, Bool.false_eq_true, if_false,
      Option.getD_some]
    omega

lemma totalPruneCount_foldl (l : List NeighborKey) (counts : HashMap NeighborKey Nat) :
    totalPruneCount (l.foldl bumpPruneCount counts) = totalPruneCount counts + l.length := by
  induction l generalizing counts with
  | nil => rfl
  | cons k l ih =>
    rw [List.foldl_cons, ih, totalPruneCount_bumpPruneCount, List.length_cons]
    omega

/-- Dropping the entries of distinct keys `L`, all present, from a list of entries with distinct
keys removes `L.length` entries. -/
lemma length_filter_not_mem_add {α β : Type} [DecidableEq α] {E : List (α × β)} {L : List α}
    (hE : (E.map Prod.fst).Nodup) (hL : L.Nodup) (hsub : ∀ k ∈ L, k ∈ E.map Prod.fst) :
    (E.filter fun p => p.1 ∉ L).length + L.length = E.length := by
  have hperm : L.Perm ((E.map Prod.fst).filter (· ∈ L)) :=
    (List.perm_ext_iff_of_nodup hL (hE.filter _)).2 fun a =>
      ⟨fun ha => List.mem_filter.2 ⟨hsub a ha, decide_eq_true ha⟩,
        fun ha => of_decide_eq_true (List.mem_filter.1 ha).2⟩
  have hmap : (E.filter fun p => p.1 ∉ L).length =
      ((E.map Prod.fst).filter fun a => a ∉ L).length := by
    rw [List.filter_map, List.length_map]
    rfl
  rw [hmap, hperm.length_eq, ← List.length_map E Prod.fst,
    List.length_eq_countP_add_countP (· ∈ L) (E.map Prod.fst), List.countP_eq_length_filter,
    List.countP_eq_length_filter]
  simp [Nat.add_comm]

/-- In a pass over a well-formed table the registered connections plus the prunes recorded stay
constant. -/
lemma pruneFrontier_conserves {net net' : PeerNetwork} {preserve : List Nat} {nd : Oracle}
    (hwf : WellFormed net) (h : pruneFrontier net preserve nd = some net') :
    totalPruneCount net'.pruneInboundCounts + totalPruneCount net'.pruneOutboundCounts +
        net'.events.entries.length =
      totalPruneCount net.pruneInboundCounts + totalPruneCount net.pruneOutboundCounts +
        net.events.entries.length := by
  obtain ⟨ips, res, h1, h2, rfl⟩ := pruneFrontier_eq_some h
  obtain ⟨hnd, hkeys⟩ := pruned_keys_nodup hwf h1 h2
  have hlen := length_filter_not_mem_add net.events.nodup hnd hkeys
  rw [(foldl_pruneStep_counts .outbound _ _).1, (foldl_pruneStep_counts .inbound _ _).1,
    (foldl_pruneStep_counts .outbound _ _).2, (foldl_pruneStep_counts .inbound _ _).2]
  dsimp only [PruneCounter.after]
  rw [totalPruneCount_foldl, totalPruneCount_foldl, foldl_step_events (pruneStep_table .outbound),
    foldl_step_events (pruneStep_table .inbound), List.filter_filter]
  have hfilter : (net.events.entries.filter fun p =>
      decide (p.1 ∉ unwrapOrEmpty res) && decide (p.1 ∉ ips)) =
        net.events.entries.filter fun p => p.1 ∉ ips ++ unwrapOrEmpty res :=
    List.filter_congr fun p _ => by simp [Bool.and_comm]
  rw [hfilter, ← hlen, List.length_append]
  omega

/-- Over any run of maintenance cycles whose passes return, with no connection registered between
cycles, from a well-formed table, the registered connections plus the prunes recorded by
`prune_inbound_counts` and `prune_outbound_counts` stay constant: every connection a pass closes is
counted once, in one of the two counters, and nothing else is counted. -/
theorem pruneCycles_conserves {net net' : PeerNetwork} {cycles : List (List Nat × Oracle)}
    (hwf : WellFormed net) (h : pruneCycles net cycles = some net') :
    totalPruneCount net'.pruneInboundCounts + totalPruneCount net'.pruneOutboundCounts +
        net'.events.entries.length =
      totalPruneCount net.pruneInboundCounts + totalPruneCount net.pruneOutboundCounts +
        net.events.entries.length := by
  induction cycles generalizing net with
  | nil => cases h; rfl
  | cons c cycles ih =>
    obtain ⟨net₁, h₁, h⟩ := Option.bind_eq_some.1 h
    exact (ih (pruneFrontier_wellFormed hwf h₁) h).trans (pruneFrontier_conserves hwf h₁)

/-- Two cycles over `mixedNet`: the first closes three connections and counts three prunes. -/
theorem pruneCycles_conserves_mixedNet :
    WellFormed mixedNet ∧ ∃ net', pruneCycles mixedNet [([], topOracle), ([], topOracle)] = some net' ∧
      totalPruneCount net'.pruneInboundCounts + totalPruneCount net'.pruneOutboundCounts +
          net'.events.entries.length =
        totalPruneCount mixedNet.pruneInboundCounts + totalPruneCount mixedNet.pruneOutboundCounts +
          mixedNet.events.entries.length :=
  ⟨mixedNet_wellFormed, _, rfl,
    @pruneCycles_conserves mixedNet _ [([], topOracle), ([], topOracle)] mixedNet_wellFormed rfl⟩

/-! ### The connections a pass closes -/

lemma length_filter_ne_add {α β : Type} [DecidableEq α] {E : List (α × β)}
    (hE : (E.map Prod.fst).Nodup) {e : α} (he : e ∈ E.map Prod.fst) :
    (E.filter fun x => x.1 ≠ e).length + 1 = E.length := by
  have := length_filter_not_mem_add hE (List.nodup_singleton e) fun x hx =>
    List.mem_singleton.1 hx ▸ he
  rw [← this]
  simp [List.mem_singleton]

section Close

variable {net : PeerNetwork} {k : NeighborKey} {b : Bool}

/-- Closing an open connection removes one conversation, and lowers the outbound count by one
when the connection is outbound. -/
lemma deregisterNeighbor_openSlot (h : OpenSlot net k b) :
    numPeers (deregisterNeighbor net k) + 1 = numPeers net ∧
      countOutboundConversations (deregisterNeighbor net k).peers + (if b then 1 else 0) =
        countOutboundConversations net.peers := by
  obtain ⟨e, convo, he, hc, rfl⟩ := h
  have hpeers : (deregisterNeighbor net k).peers.entries =
      net.peers.entries.filter fun x => x.1 ≠ e := by
    unfold deregisterNeighbor
    rw [(HashMap.get_eq_some_iff _).2 he]
    rfl
  have hmem := (HashMap.get_eq_some_iff _).1 hc
  constructor
  · rw [numPeers, hpeers]
    exact length_filter_ne_add net.peers.nodup (List.mem_map_of_mem _ hmem)
  · cases ho : convo.stats.outbound
    · exact countOutboundConversations_deregisterNeighbor
        (OpenSlot.inboundSlot ⟨e, convo, he, hc, ho⟩)
    · rw [if_pos rfl, countOutboundConversations, hpeers, List.filter_comm]
      exact length_filter_ne_add (((List.filter_sublist _).map Prod.fst).nodup net.peers.nodup)
        (List.mem_map_of_mem _ (List.mem_filter.2 ⟨hmem, ho⟩))

/-- Closing another connection of a well-formed table leaves an open connection open. -/
lemma OpenSlot.deregister (hwf : WellFormed net) (h : OpenSlot net k b) {j : NeighborKey}
    (hj : j ≠ k) : OpenSlot (deregisterNeighbor net j) k b := by
  obtain ⟨e, convo, he, hc, ho⟩ := h
  obtain ⟨he', hpe⟩ := deregisterNeighbor_keeps hwf he hj
  exact ⟨e, convo, he', hpe.trans hc, ho⟩

variable {step : PeerNetwork → NeighborKey → PeerNetwork}
  (hstep : ∀ net k, (step net k).events = (deregisterNeighbor net k).events ∧
    (step net k).peers = (deregisterNeighbor net k).peers)
include hstep

/-- A loop over distinct keys of open connections of one direction closes one conversation per
key, and lowers the outbound count by the number of keys when they are outbound. -/
lemma foldl_step_openSlot (b : Bool) (l : List NeighborKey) :
    ∀ net : PeerNetwork, WellFormed net → l.Nodup → (∀ k ∈ l, OpenSlot net k b) →
      numPeers (l.foldl step net) + l.length = numPeers net ∧
        countOutboundConversations (l.foldl step net).peers + (if b then l.length else 0) =
          countOutboundConversations net.peers := by
  induction l with
  | nil => exact fun _ _ _ _ => ⟨rfl, by simp⟩
  | cons k l ih =>
    intro net hwf hnd hl
    obtain ⟨hkl, hnd⟩ := List.nodup_cons.1 hnd
    obtain ⟨hn, hc⟩ := deregisterNeighbor_openSlot (hl k (List.mem_cons_self k l))
    obtain ⟨he, hp⟩ := hstep net k
    have hslot : ∀ j ∈ l, OpenSlot (step net k) j b := fun j hj => by
      have := (hl j (List.mem_cons_of_mem k hj)).deregister hwf
        (show k ≠ j by rintro rfl; exact hkl hj)
      simpa only [OpenSlot, he, hp] using this
    obtain ⟨hn', hc'⟩ := ih (step net k) ((deregisterNeighbor_wellFormed hwf).of_table he hp)
      hnd hslot
    have hpn : numPeers (step net k) = numPeers (deregisterNeighbor net k) := by
      rw [numPeers, numPeers, hp]
    rw [hp] at hc'
    rw [List.foldl_cons, List.length_cons]
    constructor
    · rw [← hn, ← hpn, ← hn', Nat.add_assoc]
    · rw [← hc, ← hc', Nat.add_assoc]
      cases b <;> rfl

end Close

/-- On a well-formed table the outbound pruner returns keys of outbound connections only. -/
lemma openSlot_of_mem_pool {net : PeerNetwork} (hwf : WellFormed net) {preserve : List Nat}
    {k : NeighborKey} (hk : k ∈ outboundPool net preserve) : OpenSlot net k true := by
  obtain ⟨entry, he, hk⟩ := List.mem_filterMap.1 hk
  obtain ⟨p, hp, rfl⟩ := Option.map_eq_some'.1 hk
  obtain ⟨-, convo, hc, ho, hp2⟩ := orgEntry_eq_some hp
  have hkey : p.2.1 = entry.1 := by rw [hp2]; exact hwf.convo_key entry he convo hc
  exact ⟨entry.2, convo, hkey ▸ he, hc, ho⟩

/-- A pass over a well-formed table closes one conversation for each key the two pruners return,
run on the table before the pass, and one outbound conversation for each key of the outbound
pruner. -/
lemma pruneFrontier_closed {net net' : PeerNetwork} {preserve : List Nat} {nd : Oracle}
    (hwf : WellFormed net) (h : pruneFrontier net preserve nd = some net') :
    ∃ ips res, pruneFrontierInboundIp net preserve nd = some ips ∧
      pruneFrontierOutboundOrgs net preserve nd = some res ∧
      numPeers net' + ips.length + (unwrapOrEmpty res).length = numPeers net ∧
      countOutboundConversations net'.peers + (unwrapOrEmpty res).length =
        countOutboundConversations net.peers ∧
      totalPruneCount net'.pruneInboundCounts =
        totalPruneCount net.pruneInboundCounts + ips.length ∧
      totalPruneCount net'.pruneOutboundCounts =
        totalPruneCount net.pruneOutboundCounts + (unwrapOrEmpty res).length := by
  obtain ⟨ips, res, h1, h2, rfl⟩ := pruneFrontier_eq_some h
  have hslot : ∀ k ∈ ips, InboundSlot net k := fun _ hk => inboundSlot_of_mem h1 hk
  have hwf₁ := foldl_step_wellFormed (pruneStep_table .inbound) ips net hwf
  obtain ⟨hnd₁, hnd₂, -⟩ := List.nodup_append.1 (pruned_keys_nodup hwf h1 h2).1
  obtain ⟨hn₁, hc₁⟩ := foldl_step_openSlot (pruneStep_table .inbound) false ips net hwf hnd₁
    fun _ hk => openSlot_of_mem_inbound h1 hk
  obtain ⟨hn₂, hc₂⟩ := foldl_step_openSlot (pruneStep_table .outbound) true (unwrapOrEmpty res) _
    hwf₁ hnd₂ fun k hk => by
      cases res with
      | error _ => cases hk
      | ok orgs =>
        exact openSlot_of_mem_pool hwf₁ ((pruneFrontierOutboundOrgs_subperm h2).subset hk)
  dsimp only [pruneInboundStep, pruneOutboundStep] at hn₂ hc₂ ⊢
  refine ⟨ips, res, h1,
    (pruneFrontierOutboundOrgs_foldl_inbound preserve nd ips net hwf hslot) ▸ h2, by omega,
    by simp only [if_true, if_false, Bool.false_eq_true] at hc₁ hc₂; omega, ?_, ?_⟩
  · rw [(foldl_pruneStep_counts .outbound _ _).1, (foldl_pruneStep_counts .inbound _ _).1]
    exact totalPruneCount_foldl _ _
  · rw [(foldl_pruneStep_counts .outbound _ _).2, (foldl_pruneStep_counts .inbound _ _).2]
    exact totalPruneCount_foldl _ _

/-- In a pass over a well-formed table each counter grows by the connections of its own
direction that the pass closes. -/
lemma pruneFrontier_conserves_by_direction {net net' : PeerNetwork} {preserve : List Nat}
    {nd : Oracle} (hwf : WellFormed net) (h : pruneFrontier net preserve nd = some net') :
    totalPruneCount net'.pruneOutboundCounts + countOutboundConversations net'.peers =
        totalPruneCount net.pruneOutboundCounts + countOutboundConversations net.peers ∧
      totalPruneCount net'.pruneInboundCounts +
          (numPeers net' - countOutboundConversations net'.peers) =
        totalPruneCount net.pruneInboundCounts +
          (numPeers net - countOutboundConversations net.peers) := by
  obtain ⟨ips, res, -, -, hn, hc, hin, hout⟩ := pruneFrontier_closed hwf h
  have hin' : numPeers net - countOutboundConversations net.peers =
      numPeers net' - countOutboundConversations net'.peers + ips.length := by
    rw [← hn, ← hc, Nat.add_sub_add_right, Nat.sub_add_comm
      (countOutboundConversations_le_numPeers net')]
  rw [hin', hin, hout]
  constructor <;> omega

/-- Over any run of maintenance cycles whose passes return, with no connection registered between
cycles, from a well-formed table, `prune_outbound_counts` plus the outbound conversations, and
`prune_inbound_counts` plus the inbound conversations, each stay constant: every prune a counter
records closed a conversation of that counter's direction, and every conversation closed is recorded
by its own direction's counter. -/
theorem pruneCycles_conserves_by_direction {net net' : PeerNetwork}
    {cycles : List (List Nat × Oracle)} (hwf : WellFormed net)
    (h : pruneCycles net cycles = some net') :
    totalPruneCount net'.pruneOutboundCounts + countOutboundConversations net'.peers =
        totalPruneCount net.pruneOutboundCounts + countOutboundConversations net.peers ∧
      totalPruneCount net'.pruneInboundCounts +
          (numPeers net' - countOutboundConversations net'.peers) =
        totalPruneCount net.pruneInboundCounts +
          (numPeers net - countOutboundConversations net.peers) := by
  induction cycles generalizing net with
  | nil => cases h; exact ⟨rfl, rfl⟩
  | cons c cycles ih =>
    obtain ⟨net₁, h₁, h⟩ := Option.bind_eq_some.1 h
    obtain ⟨ho, hi⟩ := ih (pruneFrontier_wellFormed hwf h₁) h
    obtain ⟨ho₁, hi₁⟩ := pruneFrontier_conserves_by_direction hwf h₁
    exact ⟨ho.trans ho₁, hi.trans hi₁⟩

/-- Two cycles over `mixedNet`: the first closes two inbound and one outbound conversation. -/
theorem pruneCycles_conserves_by_direction_mixedNet :
    WellFormed mixedNet ∧ ∃ net', pruneCycles mixedNet [([], topOracle), ([], topOracle)] = some net' ∧
      (totalPruneCount net'.pruneOutboundCounts + countOutboundConversations net'.peers =
          totalPruneCount mixedNet.pruneOutboundCounts +
            countOutboundConversations mixedNet.peers ∧
        totalPruneCount net'.pruneInboundCounts +
            (numPeers net' - countOutboundConversations net'.peers) =
          totalPruneCount mixedNet.pruneInboundCounts +
            (numPeers mixedNet - countOutboundConversations mixedNet.peers)) :=
  ⟨mixedNet_wellFormed, _, rfl,
    @pruneCycles_conserves_by_direction mixedNet _ [([], topOracle), ([], topOracle)]
      mixedNet_wellFormed rfl⟩

/-- A pass over a well-formed table never leaves fewer outbound connections than
`soft_num_neighbors`, or than there were when there were fewer, except by one for each
organization over the cap after the first: the overshoot of the hard trim.  With at most one
organization over the cap, the pass never prunes below its target. -/
theorem pruneFrontier_outbound_floor {net net' : PeerNetwork} {preserve : List Nat}
    {nd : Oracle} {D : HashMap UInt32 (List NeighborInfo)} (hwf : WellFormed net)
    (hD : orgNeighborDistribution net preserve = .ok D)
    (h : pruneFrontier net preserve nd = some net') :
    min (countOutboundConversations net.peers) net.softNumNeighbors ≤
      countOutboundConversations net'.peers +
        ((D.entries.filter fun e => net.softMaxNeighborsPerOrg < e.2.length).length - 1) := by
  obtain ⟨-, res, -, h2, -, hcount, -⟩ := pruneFrontier_closed hwf h
  cases res with
  | error _ => simp only [unwrapOrEmpty, List.length_nil] at hcount; omega
  | ok orgs =>
    simp only [unwrapOrEmpty] at hcount
    rcases pruneFrontierOutboundOrgs_eq_ok h2 with ⟨-, rfl⟩ | ⟨h_over, D', m, r, hD', h3, h4⟩
    · rw [List.length_nil] at hcount
      omega
    · obtain rfl : D = D' := Except.ok.inj (hD.symm.trans hD')
      have hlen := trimThenSample_length_le h_over h3 h4
      omega

/-- On `overshootNet` five outbound connections are wanted and two organizations are over the
cap of one. -/
theorem pruneFrontier_outbound_floor_overshootNet :
    WellFormed overshootNet ∧ ∃ D, orgNeighborDistribution overshootNet [] = .ok D ∧
      ∃ net', pruneFrontier overshootNet [] topOracle = some net' ∧
        min (countOutboundConversations overshootNet.peers) overshootNet.softNumNeighbors ≤
          countOutboundConversations net'.peers + ((D.entries.filter
            fun e => overshootNet.softMaxNeighborsPerOrg < e.2.length).length - 1) :=
  have hwf : WellFormed overshootNet := outboundNet_wellFormed _ _ _ _
  ⟨hwf, _, rfl, _, rfl, @pruneFrontier_outbound_floor overshootNet _ [] topOracle _ hwf rfl rfl⟩

/-- The floor is reached: the pass leaves four outbound connections, one under the target. -/
example : (pruneFrontier overshootNet [] topOracle).map
    (fun net' => countOutboundConversations net'.peers) = some 4 := rfl

/-! ### Cycles reach the outbound target -/

/-- Every conversation of `peers` belongs to an entry of `events`. -/
def Registered (net : PeerNetwork) : Prop :=
  ∀ e convo, net.peers.get e = some convo → ∃ k, (k, e) ∈ net.events.entries

/-- Every conversation is registered when each event id of `peers` is one of `events`: a check
that runs. -/
lemma Registered.of_check {net : PeerNetwork}
    (h : net.peers.entries.all fun p => net.events.entries.any fun q => q.2 = p.1) :
    Registered net := fun e convo hc => by
  obtain ⟨⟨k, e'⟩, hq, hqe⟩ := List.any_eq_true.1
    (List.all_eq_true.1 h (e, convo) ((HashMap.get_eq_some_iff _).1 hc))
  obtain rfl : e' = e := of_decide_eq_true hqe
  exact ⟨k, hq⟩

/-- The peer database finds every peer and never fails. -/
def PeerDbTotal (db : PeerDB) : Prop :=
  ∀ networkId addrbytes port, ∃ peer, db.getPeer networkId addrbytes port = .ok (some peer)

/-- A hard trim that pushes nothing leaves every member listed. -/
lemma hardTrim_nil_values {num_outbound soft cap : Nat} {orgs : List UInt32}
    {T m : HashMap UInt32 (List NeighborInfo)}
    (h : hardTrim num_outbound soft cap orgs T [] = some (m, [])) :
    m.values.length = T.values.length :=
  hardTrim_preserves (fun m ret => ret = [] → m.values.length = T.values.length)
    (fun {m ret org infos ret₁ infos₁} hget h₁ h₂ hp hr₁ => by
      obtain ⟨k, -, rfl⟩ := trimOrg_eq_some h₁
      obtain ⟨hret, -⟩ := List.append_eq_nil.1 hr₁
      rw [hr₁, List.length_nil, removeFront_eq_some_iff, List.drop_zero] at h₂
      rw [h₂.2]
      obtain ⟨pre, post, h1, h2⟩ := HashMap.values_insert m hget infos
      rw [h2, ← hp hret, h1])
    (fun _ => rfl) h rfl

/-- Above the target, with a classified neighbor, the outbound pruner returns at least one key:
the hard trim pushes one, or leaves every member for the sampling loop. -/
lemma pruneFrontierOutboundOrgs_ne_nil {net : PeerNetwork} {preserve : List Nat} {nd : Oracle}
    {D : HashMap UInt32 (List NeighborInfo)} {ret : List NeighborKey} (hwf : WellFormed net)
    (hD : orgNeighborDistribution net preserve = .ok D)
    (hpool : outboundPool net preserve ≠ [])
    (h_over : net.softNumNeighbors < countOutboundConversations net.peers)
    (h : pruneFrontierOutboundOrgs net preserve nd = some (.ok ret)) : ret ≠ [] := by
  rcases pruneFrontierOutboundOrgs_eq_ok h with ⟨hle, -⟩ | ⟨-, D', m, r, hD', h1, h2⟩
  · omega
  obtain rfl : D = D' := Except.ok.inj (hD.symm.trans hD')
  have hlen := samplePhase_length le_rfl (hardTrim_fit hwf.ids_nodup hD h1) h2
  refine List.ne_nil_of_length_pos (hlen ▸ ?_)
  by_cases hr : r = []
  · subst hr
    have hv : 0 < m.values.length := by
      rw [hardTrim_nil_values h1, (sortedTable_values_perm nd D).length_eq,
        ← List.length_map D.values Prod.fst, (orgNeighborDistribution_values hD).length_eq]
      exact List.length_pos.2 hpool
    rw [List.length_nil, Nat.zero_add]
    exact lt_max_of_lt_right (lt_min (Nat.sub_pos_of_lt h_over) hv)
  · exact lt_max_of_lt_left (List.length_pos.2 hr)

/-- With no preserved outbound connection and a total peer database, every registered outbound
conversation is classified. -/
lemma outboundPool_ne_nil {net : PeerNetwork} {preserve : List Nat} (hreg : Registered net)
    (hdb : PeerDbTotal net.peerdb)
    (hpre : ∀ e ∈ preserve, ∀ convo, net.peers.get e = some convo → convo.stats.outbound = false)
    (hpos : 0 < countOutboundConversations net.peers) : outboundPool net preserve ≠ [] := by
  obtain ⟨⟨e, convo⟩, hmem⟩ := List.exists_mem_of_length_pos hpos
  have ho : convo.stats.outbound = true := (List.mem_filter.1 hmem).2
  have hc := (HashMap.get_eq_some_iff _).2 (List.mem_filter.1 hmem).1
  obtain ⟨k, hk⟩ := hreg e convo hc
  have he : e ∉ preserve := fun he => by simp [hpre e he convo hc] at ho
  obtain ⟨peer, hpeer⟩ := hdb convo.toNeighborKey.networkId convo.toNeighborKey.addrbytes
    convo.toNeighborKey.port
  have hentry :
      orgEntry net preserve (k, e) = some (peer.org, (convo.toNeighborKey, convo.stats)) := by
    simp only [orgEntry, if_neg he, hc, ho, lookupPeer, hpeer, if_true]
  exact List.ne_nil_of_mem (List.mem_filterMap.2 ⟨(k, e), hk, by rw [hentry]; rfl⟩ :
    convo.toNeighborKey ∈ outboundPool net preserve)

/-- A total peer database gives a classification. -/
lemma orgNeighborDistribution_ok {net : PeerNetwork} (hdb : PeerDbTotal net.peerdb)
    (preserve : List Nat) : ∃ D, orgNeighborDistribution net preserve = .ok D := by
  cases hD : orgNeighborDistribution net preserve with
  | ok D => exact ⟨D, rfl⟩
  | error err =>
    obtain ⟨_, _, convo, _, _, _, _, hl⟩ :=
      (foldlM_orgNeighborStep_error_iff net preserve _ _).1 ⟨err, hD⟩
    obtain ⟨peer, hpeer⟩ := hdb convo.toNeighborKey.networkId convo.toNeighborKey.addrbytes
      convo.toNeighborKey.port
    simp [lookupPeer, hpeer] at hl

section Frame

variable {net : PeerNetwork} {k : NeighborKey}

/-- Closing a connection and its conversation keeps every conversation registered. -/
lemma Registered.deregister (hwf : WellFormed net) (h : Registered net) (j : NeighborKey) :
    Registered (deregisterNeighbor net j) := fun e convo hc => by
  obtain ⟨k, hk⟩ := h e convo (deregisterNeighbor_peers_of_get hc)
  by_cases hkj : j = k
  · subst hkj
    have hg := (HashMap.get_eq_some_iff _).2 hk
    unfold deregisterNeighbor at hc
    simp [hg, HashMap.remove] at hc
  · exact ⟨k, (deregisterNeighbor_keeps hwf hk hkj).1⟩

variable {step : PeerNetwork → NeighborKey → PeerNetwork}
  (hstep : ∀ net k, (step net k).events = (deregisterNeighbor net k).events ∧
    (step net k).peers = (deregisterNeighbor net k).peers ∧
    (step net k).peerdb = net.peerdb ∧ (step net k).softNumNeighbors = net.softNumNeighbors)
include hstep

/-- A loop that closes connections keeps the conversations registered, the peer database and the
outbound target. -/
lemma foldl_step_frame (l : List NeighborKey) :
    ∀ net : PeerNetwork, WellFormed net → Registered net →
      Registered (l.foldl step net) ∧ (l.foldl step net).peerdb = net.peerdb ∧
        (l.foldl step net).softNumNeighbors = net.softNumNeighbors := by
  induction l with
  | nil => exact fun _ _ hreg => ⟨hreg, rfl, rfl⟩
  | cons k l ih =>
    intro net hwf hreg
    obtain ⟨he, hp, hdb, hs⟩ := hstep net k
    have hreg' : Registered (step net k) := fun e convo hc => by
      rw [hp] at hc
      simpa only [he] using hreg.deregister hwf k e convo hc
    obtain ⟨h1, h2, h3⟩ := ih (step net k)
      ((deregisterNeighbor_wellFormed hwf).of_table he hp) hreg'
    exact ⟨h1, h2.trans hdb, h3.trans hs⟩

end Frame

lemma pruneStep_frame (c : PruneCounter) (net : PeerNetwork) (k : NeighborKey) :
    (pruneStep c net k).events = (deregisterNeighbor net k).events ∧
      (pruneStep c net k).peers = (deregisterNeighbor net k).peers ∧
      (pruneStep c net k).peerdb = net.peerdb ∧
      (pruneStep c net k).softNumNeighbors = net.softNumNeighbors := by
  cases c <;> exact ⟨rfl, rfl, deregisterNeighbor_peerdb, deregisterNeighbor_softNumNeighbors⟩

/-- A pass keeps the conversations registered, the peer database and the outbound target, and
only closes conversations. -/
lemma pruneFrontier_frame {net net' : PeerNetwork} {preserve : List Nat} {nd : Oracle}
    (hwf : WellFormed net) (hreg : Registered net) (h : pruneFrontier net preserve nd = some net') :
    Registered net' ∧ net'.peerdb = net.peerdb ∧ net'.softNumNeighbors = net.softNumNeighbors ∧
      ∀ e convo, net'.peers.get e = some convo → net.peers.get e = some convo := by
  obtain ⟨ips, res, -, -, rfl⟩ := pruneFrontier_eq_some h
  obtain ⟨h1, h2, h3⟩ := foldl_step_frame (pruneStep_frame .inbound) ips net hwf hreg
  obtain ⟨h1', h2', h3'⟩ := foldl_step_frame (pruneStep_frame .outbound) (unwrapOrEmpty res) _
    (foldl_step_wellFormed (pruneStep_table .inbound) ips net hwf) h1
  exact ⟨h1', h2'.trans h2, h3'.trans h3, fun e convo hc =>
    foldl_step_peers_of_get (pruneStep_table .inbound) ips net
      (foldl_step_peers_of_get (pruneStep_table .outbound) _ _ hc)⟩

/-- Above the target, a pass over a well-formed, registered table with a total peer database
and no preserved outbound connection closes at least one outbound connection. -/
lemma pruneFrontier_outbound_lt {net net' : PeerNetwork} {preserve : List Nat} {nd : Oracle}
    (hwf : WellFormed net) (hreg : Registered net) (hdb : PeerDbTotal net.peerdb)
    (hpre : ∀ e ∈ preserve, ∀ convo, net.peers.get e = some convo → convo.stats.outbound = false)
    (h_over : net.softNumNeighbors < countOutboundConversations net.peers)
    (h : pruneFrontier net preserve nd = some net') :
    countOutboundConversations net'.peers < countOutboundConversations net.peers := by
  obtain ⟨-, res, -, h2, -, hcount, -⟩ := pruneFrontier_closed hwf h
  obtain ⟨D, hD⟩ := orgNeighborDistribution_ok hdb preserve
  cases res with
  | error _ =>
    rw [pruneFrontierOutboundOrgs_of_lt h_over hD] at h2
    obtain ⟨_, -, h2⟩ := Option.map_eq_some'.1 h2
    cases h2
  | ok ret =>
    have hne := pruneFrontierOutboundOrgs_ne_nil hwf hD
      (outboundPool_ne_nil hreg hdb hpre (by omega)) h_over h2
    have := List.length_pos.2 hne
    simp only [unwrapOrEmpty] at hcount
    omega

/-- The rank of the convergence argument: a cycle that never raises the count, and lowers it when
it is above the target, moves the bound one cycle on. -/
lemma max_sub_le_of_step {target c c₁ n : Nat} (hle : c₁ ≤ c) (hlt : target < c → c₁ < c) :
    max target (c₁ - n) ≤ max target (c - (n + 1)) := by
  by_cases hc : target < c
  · exact max_le_max le_rfl (by have := hlt hc; omega)
  · exact max_le (le_max_left _ _) (le_max_of_le_left (by omega))

/-- The outbound bound over a run, and the run keeps the target. -/
lemma pruneCycles_outbound_le {net net' : PeerNetwork}
    {cycles : List (List Nat × Oracle)} (hwf : WellFormed net) (hreg : Registered net)
    (hdb : PeerDbTotal net.peerdb)
    (hpre : ∀ c ∈ cycles, ∀ e ∈ c.1, ∀ convo, net.peers.get e = some convo →
      convo.stats.outbound = false)
    (h : pruneCycles net cycles = some net') :
    countOutboundConversations net'.peers ≤
      max net.softNumNeighbors (countOutboundConversations net.peers - cycles.length) ∧
      net'.softNumNeighbors = net.softNumNeighbors := by
  induction cycles generalizing net with
  | nil => cases h; exact ⟨le_max_right _ _, rfl⟩
  | cons c cycles ih =>
    obtain ⟨preserve, nd⟩ := c
    obtain ⟨net₁, h₁, h⟩ := Option.bind_eq_some.1 h
    obtain ⟨hreg₁, hdb₁, hs₁, hpeers⟩ := pruneFrontier_frame hwf hreg h₁
    obtain ⟨ih, hs⟩ := ih (pruneFrontier_wellFormed hwf h₁) hreg₁ (hdb₁ ▸ hdb)
      (fun c hc e he convo hconvo =>
        hpre c (List.mem_cons_of_mem _ hc) e he convo (hpeers e convo hconvo)) h
    obtain ⟨-, res, -, -, -, hcount, -⟩ := pruneFrontier_closed hwf h₁
    have hstep : net.softNumNeighbors < countOutboundConversations net.peers →
        countOutboundConversations net₁.peers < countOutboundConversations net.peers :=
      fun h_over => pruneFrontier_outbound_lt hwf hreg hdb (hpre _ (List.mem_cons_self _ _))
        h_over h₁
    rw [hs₁] at ih
    exact ⟨ih.trans (max_sub_le_of_step (Nat.le.intro hcount) hstep), hs.trans hs₁⟩

/-- Over any run of maintenance cycles whose passes return, with no connection registered between
cycles, from a well-formed table in which every conversation is registered, with a peer database
that finds every peer and no cycle preserving an outbound connection: each cycle above
`soft_num_neighbors` closes at least one outbound connection, so the outbound count reaches the
target after as many cycles as it was over it, and never goes up. -/
theorem pruneCycles_outbound_converges {net net' : PeerNetwork}
    {cycles : List (List Nat × Oracle)} (hwf : WellFormed net) (hreg : Registered net)
    (hdb : PeerDbTotal net.peerdb)
    (hpre : ∀ c ∈ cycles, ∀ e ∈ c.1, ∀ convo, net.peers.get e = some convo →
      convo.stats.outbound = false)
    (h : pruneCycles net cycles = some net') :
    countOutboundConversations net'.peers ≤
      max net.softNumNeighbors (countOutboundConversations net.peers - cycles.length) :=
  (pruneCycles_outbound_le hwf hreg hdb hpre h).1

/-- Two cycles over `mixedNet`, whose three outbound connections are one over the target. -/
theorem pruneCycles_outbound_converges_mixedNet :
    WellFormed mixedNet ∧ Registered mixedNet ∧ PeerDbTotal mixedNet.peerdb ∧
      (∀ c ∈ [([], topOracle), ([], topOracle)], ∀ e ∈ (c : List Nat × Oracle).1, ∀ convo,
        mixedNet.peers.get e = some convo → convo.stats.outbound = false) ∧
      ∃ net', pruneCycles mixedNet [([], topOracle), ([], topOracle)] = some net' ∧
        countOutboundConversations net'.peers ≤ max mixedNet.softNumNeighbors
          (countOutboundConversations mixedNet.peers - 2) :=
  have hreg : Registered mixedNet := .of_check (by decide)
  have hdb : PeerDbTotal mixedNet.peerdb := fun _ _ _ => ⟨_, rfl⟩
  have hpre : ∀ c ∈ [([], topOracle), ([], topOracle)], ∀ e ∈ (c : List Nat × Oracle).1, ∀ convo,
      mixedNet.peers.get e = some convo → convo.stats.outbound = false := by
    simp
  ⟨mixedNet_wellFormed, hreg, hdb, hpre, _, rfl,
    pruneCycles_outbound_converges mixedNet_wellFormed hreg hdb hpre rfl⟩

/-! ### One pass settles the inbound pruner -/

/-- The inbound pruner has nothing to do: the inbound count is within `soft_num_clients`, or no
address has more than `soft_max_clients_per_host` non-preserved inbound connections. -/
def InboundSettled (net : PeerNetwork) (preserve : List Nat) : Prop :=
  numPeers net - countOutboundConversations net.peers ≤ net.softNumClients ∨
    ∀ a, (ipGroup net preserve a).length ≤ net.softMaxClientsPerHost

section Settle

variable {net net' : PeerNetwork} {preserve : List Nat} {nd : Oracle}

/-- On a settled table the inbound pruner returns nothing, in any map order. -/
lemma InboundSettled.inbound_eq_nil (h : InboundSettled net preserve) (nd : Oracle) :
    pruneFrontierInboundIp net preserve nd = some [] := by
  by_cases hlt : net.softNumClients < numPeers net - countOutboundConversations net.peers
  · rw [pruneFrontierInboundIp_of_lt nd hlt, Option.some_inj, List.flatMap_eq_nil_iff]
    rintro ⟨a, g⟩ he
    have hg := sortedGroups_get net preserve nd a
    rw [(HashMap.get_eq_some_iff _).2 he, Option.getD_some] at hg
    have hcap := h.resolve_left (Nat.not_le_of_lt hlt) a
    rw [clientsToRemove, if_neg]
    rw [hg, (sortBy_perm _ _).length_eq]
    exact Nat.not_lt.2 hcap
  · exact pruneFrontierInboundIp_of_le nd (Nat.le_of_not_lt hlt)

/-- A loop of closures keeps the two inbound limits. -/
lemma foldl_clientLimits {step : PeerNetwork → NeighborKey → PeerNetwork}
    (hstep : ∀ net k, (step net k).softNumClients = net.softNumClients ∧
      (step net k).softMaxClientsPerHost = net.softMaxClientsPerHost) (l : List NeighborKey) :
    ∀ net : PeerNetwork, (l.foldl step net).softNumClients = net.softNumClients ∧
      (l.foldl step net).softMaxClientsPerHost = net.softMaxClientsPerHost := by
  induction l with
  | nil => exact fun _ => ⟨rfl, rfl⟩
  | cons k l ih =>
    intro net
    obtain ⟨h1, h2⟩ := ih (step net k)
    exact ⟨h1.trans (hstep net k).1, h2.trans (hstep net k).2⟩

lemma pruneFrontier_clientLimits (h : pruneFrontier net preserve nd = some net') :
    net'.softNumClients = net.softNumClients ∧
      net'.softMaxClientsPerHost = net.softMaxClientsPerHost := by
  obtain ⟨ips, res, -, -, rfl⟩ := pruneFrontier_eq_some h
  obtain ⟨h1, h2⟩ := @foldl_clientLimits pruneInboundStep (fun _ _ =>
    ⟨deregisterNeighbor_softNumClients, deregisterNeighbor_softMaxClientsPerHost⟩) ips net
  obtain ⟨h1', h2'⟩ := @foldl_clientLimits pruneOutboundStep (fun _ _ =>
    ⟨deregisterNeighbor_softNumClients, deregisterNeighbor_softMaxClientsPerHost⟩)
    (unwrapOrEmpty res) (ips.foldl pruneInboundStep net)
  exact ⟨h1'.trans h1, h2'.trans h2⟩

/-- Every pass over a well-formed table leaves it settled for the pass's preserve set: above the
inbound limit the inbound pruner cut every address down to its ceiling, and at or below it the
pass closed outbound connections only. -/
lemma pruneFrontier_inboundSettled (hwf : WellFormed net)
    (h : pruneFrontier net preserve nd = some net') : InboundSettled net' preserve := by
  obtain ⟨hcl, hcap⟩ := pruneFrontier_clientLimits h
  by_cases h_in : net.softNumClients < numPeers net - countOutboundConversations net.peers
  · obtain ⟨ips, -, h1, -⟩ := pruneFrontier_eq_some h
    exact .inr fun a => hcap ▸ (pruneFrontier_ipGroup_le_kept h h1 a).trans
      (pruneFrontierInboundIp_kept_le h_in h1 a)
  · obtain ⟨ips, res, h1, -, hn, hc, -⟩ := pruneFrontier_closed hwf h
    obtain rfl : ips = [] :=
      Option.some.inj (h1.symm.trans (pruneFrontierInboundIp_of_le nd (Nat.le_of_not_lt h_in)))
    rw [List.length_nil, Nat.add_zero] at hn
    left
    rw [hcl]
    omega

/-- A pass over a settled, well-formed table closes no inbound connection and counts no inbound
prune. -/
lemma pruneFrontier_of_inboundSettled (hwf : WellFormed net) (hs : InboundSettled net preserve)
    (h : pruneFrontier net preserve nd = some net') :
    net'.pruneInboundCounts = net.pruneInboundCounts ∧
      numPeers net' - countOutboundConversations net'.peers =
        numPeers net - countOutboundConversations net.peers := by
  obtain ⟨ips, res, h1, -, hn, hc, -⟩ := pruneFrontier_closed hwf h
  obtain rfl : ips = [] := Option.some.inj (h1.symm.trans (hs.inbound_eq_nil nd))
  obtain ⟨ips', res', h1', -, rfl⟩ := pruneFrontier_eq_some h
  obtain rfl : ips' = [] := Option.some.inj (h1'.symm.trans (hs.inbound_eq_nil nd))
  rw [List.length_nil, Nat.add_zero] at hn
  exact ⟨(foldl_pruneStep_counts .outbound _ _).1, by rw [← hn, ← hc, Nat.add_sub_add_right]⟩

/-- A run from a settled, well-formed table with the same preserve set stays settled and well
formed, and closes no inbound connection. -/
lemma pruneCycles_of_inboundSettled {cycles : List (List Nat × Oracle)} (hwf : WellFormed net)
    (hs : InboundSettled net preserve) (hpre : ∀ c ∈ cycles, c.1 = preserve)
    (h : pruneCycles net cycles = some net') :
    WellFormed net' ∧ InboundSettled net' preserve ∧
      net'.pruneInboundCounts = net.pruneInboundCounts ∧
      numPeers net' - countOutboundConversations net'.peers =
        numPeers net - countOutboundConversations net.peers := by
  induction cycles generalizing net with
  | nil => cases h; exact ⟨hwf, hs, rfl, rfl⟩
  | cons c cycles ih =>
    obtain ⟨preserve', nd'⟩ := c
    obtain rfl : preserve' = preserve := hpre _ (List.mem_cons_self _ _)
    obtain ⟨net₁, h₁, h⟩ := Option.bind_eq_some.1 h
    obtain ⟨hi, hn⟩ := pruneFrontier_of_inboundSettled hwf hs h₁
    obtain ⟨hwf', hs', hi', hn'⟩ := ih (pruneFrontier_wellFormed hwf h₁)
      (pruneFrontier_inboundSettled hwf h₁) (fun c hc => hpre c (List.mem_cons_of_mem _ hc)) h
    exact ⟨hwf', hs', hi'.trans hi, hn'.trans hn⟩

/-- A pass over a settled table at or under the outbound target changes nothing. -/
lemma pruneFrontier_of_inboundSettled_le (hs : InboundSettled net preserve)
    (hle : countOutboundConversations net.peers ≤ net.softNumNeighbors) :
    pruneFrontier net preserve nd = some net := by
  simp only [pruneFrontier, hs.inbound_eq_nil nd, Option.bind_eq_bind, Option.some_bind,
    List.foldl_nil, pruneFrontierOutboundOrgs_of_le hle]
  rfl

end Settle

/-- Over any run of maintenance cycles with one preserve set, whose passes return, with no
connection registered between cycles, from a well-formed table: only the first cycle closes inbound
connections.  The inbound pruner of every later cycle returns nothing, whatever its map order, so
the inbound counter and the number of inbound conversations stay as the first cycle left them. -/
theorem pruneCycles_inbound_settles {net net₁ net' : PeerNetwork} {preserve : List Nat}
    {nd : Oracle} {cycles : List (List Nat × Oracle)} (hwf : WellFormed net)
    (hpre : ∀ c ∈ cycles, c.1 = preserve) (h₁ : pruneFrontier net preserve nd = some net₁)
    (h : pruneCycles net₁ cycles = some net') :
    net'.pruneInboundCounts = net₁.pruneInboundCounts ∧
      numPeers net' - countOutboundConversations net'.peers =
        numPeers net₁ - countOutboundConversations net₁.peers :=
  (pruneCycles_of_inboundSettled (pruneFrontier_wellFormed hwf h₁)
    (pruneFrontier_inboundSettled hwf h₁) hpre h).2.2

/-- On `mixedNet` the first cycle closes the two inbound connections over the per-host ceiling;
the second closes none. -/
theorem pruneCycles_inbound_settles_mixedNet :
    WellFormed mixedNet ∧ (∀ c ∈ [(([] : List Nat), topOracle)], c.1 = []) ∧
      ∃ net₁ net', pruneFrontier mixedNet [] topOracle = some net₁ ∧
        pruneCycles net₁ [([], topOracle)] = some net' ∧
        (net'.pruneInboundCounts = net₁.pruneInboundCounts ∧
          numPeers net' - countOutboundConversations net'.peers =
            numPeers net₁ - countOutboundConversations net₁.peers) :=
  have hpre : ∀ c ∈ [(([] : List Nat), topOracle)], c.1 = [] := by simp
  ⟨mixedNet_wellFormed, hpre, _, _, rfl, rfl,
    @pruneCycles_inbound_settles mixedNet _ _ [] topOracle [([], topOracle)] mixedNet_wellFormed
      hpre rfl rfl⟩

/-- Maintenance reaches a fixed point.  Over a well-formed table in which every conversation is
registered, with a peer database that finds every peer, after a run of cycles with one preserve set
that holds no outbound connection and no connection registered between cycles, at least one cycle
and as many as the outbound count was over `soft_num_neighbors`: a further pass with that preserve
set, in any map order and with any draws, leaves the table exactly as it is, counters included. -/
theorem pruneCycles_reaches_fixpoint {net net' : PeerNetwork} {preserve : List Nat}
    {cycles : List (List Nat × Oracle)} (hwf : WellFormed net) (hreg : Registered net)
    (hdb : PeerDbTotal net.peerdb)
    (hpre : ∀ e ∈ preserve, ∀ convo, net.peers.get e = some convo → convo.stats.outbound = false)
    (hcycles : ∀ c ∈ cycles, c.1 = preserve)
    (hlen : countOutboundConversations net.peers - net.softNumNeighbors < cycles.length)
    (h : pruneCycles net cycles = some net') (nd : Oracle) :
    pruneFrontier net' preserve nd = some net' := by
  obtain ⟨hout, htarget⟩ := pruneCycles_outbound_le hwf hreg hdb
    (fun c hc => (hcycles c hc).symm ▸ hpre) h
  cases cycles with
  | nil => exact absurd hlen (Nat.not_lt_zero _)
  | cons c cycles =>
    obtain ⟨preserve', nd'⟩ := c
    obtain rfl : preserve' = preserve := hcycles _ (List.mem_cons_self _ _)
    obtain ⟨net₁, h₁, h⟩ := Option.bind_eq_some.1 h
    obtain ⟨-, hs, -⟩ := pruneCycles_of_inboundSettled (pruneFrontier_wellFormed hwf h₁)
      (pruneFrontier_inboundSettled hwf h₁) (fun c hc => hcycles c (List.mem_cons_of_mem _ hc)) h
    refine pruneFrontier_of_inboundSettled_le hs (htarget ▸ hout.trans (max_le le_rfl ?_))
    omega

/-- Two cycles bring `mixedNet` to its fixed point: three outbound connections, one over the
target, and two inbound connections over the per-host ceiling. -/
theorem pruneCycles_reaches_fixpoint_mixedNet :
    WellFormed mixedNet ∧ Registered mixedNet ∧ PeerDbTotal mixedNet.peerdb ∧
      (∀ e ∈ ([] : List Nat), ∀ convo, mixedNet.peers.get e = some convo →
        convo.stats.outbound = false) ∧
      (∀ c ∈ [(([] : List Nat), topOracle), ([], topOracle)], c.1 = []) ∧
      countOutboundConversations mixedNet.peers - mixedNet.softNumNeighbors < 2 ∧
      ∃ net', pruneCycles mixedNet [([], topOracle), ([], topOracle)] = some net' ∧
        pruneFrontier net' [] topOracle = some net' :=
  have hreg : Registered mixedNet := .of_check (by decide)
  have hdb : PeerDbTotal mixedNet.peerdb := fun _ _ _ => ⟨_, rfl⟩
  have hpre : ∀ e ∈ ([] : List Nat), ∀ convo, mixedNet.peers.get e = some convo →
      convo.stats.outbound = false := by simp
  have hcycles : ∀ c ∈ [(([] : List Nat), topOracle), ([], topOracle)], c.1 = [] := by simp
  have hlen : countOutboundConversations mixedNet.peers - mixedNet.softNumNeighbors < 2 := by
    decide
  ⟨mixedNet_wellFormed, hreg, hdb, hpre, hcycles, hlen, _, rfl,
    pruneCycles_reaches_fixpoint mixedNet_wellFormed hreg hdb hpre hcycles hlen rfl topOracle⟩

end StacksPrune
