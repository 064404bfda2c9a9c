import StacksPrune.Network
import Mathlib.Data.List.Perm.Subperm

/-!
# Classifying outbound neighbors by organization

`org_neighbor_distribution` (lines 84-124) folds over `events`: an entry that is preserved,
has no conversation, or whose conversation is inbound is skipped; otherwise the peer database
is asked for the conversation's key, and a failure aborts the whole fold with `DBError`, a
missing record skips the entry, and a record files `(to_neighbor_key(), stats)` under its
organization.

`orgEntry` says once what an entry contributes; `orgNeighborDistribution_spec` is the result:
the fold fails exactly when some lookup fails, and otherwise each organization's list is its
members in `events` order.
-/

namespace StacksPrune

/-- `PeerDB::get_peer` at a conversation's key (line 103). -/
def lookupPeer (db : PeerDB) (convo : ConversationP2P) : Except DbError (Option Neighbor) :=
  db.getPeer convo.toNeighborKey.networkId convo.toNeighborKey.addrbytes convo.toNeighborKey.port

/-- One round of the loop of lines 87-122, for the entry `(nk, event_id)` of `events`. -/
def orgNeighborStep (peers : HashMap Nat ConversationP2P) (peerdb : PeerDB)
    (preserve : List Nat) (org_neighbor : HashMap UInt32 (List NeighborInfo))
    (entry : NeighborKey × Nat) : Except NetError (HashMap UInt32 (List NeighborInfo)) :=
  let event_id := entry.2
  if event_id ∈ preserve then .ok org_neighbor
  else match peers.get event_id with
    | none => .ok org_neighbor
    | some convo =>
      if !convo.stats.outbound then .ok org_neighbor
      else
        let nk := convo.toNeighborKey
        let stats := convo.stats
        match peerdb.getPeer nk.networkId nk.addrbytes nk.port with
        | .error _ => .error .DBError
        | .ok none => .ok org_neighbor
        | .ok (some peer) => .ok (org_neighbor.push peer.org (nk, stats))

/-- `org_neighbor_distribution(peer_dbconn, preserve)`, before the map is given its iteration
order. -/
def orgNeighborDistribution (net : PeerNetwork) (preserve : List Nat) :
    Except NetError (HashMap UInt32 (List NeighborInfo)) :=
  net.events.entries.foldlM (orgNeighborStep net.peers net.peerdb preserve) HashMap.empty

/-! ### What an entry contributes -/

/-- The organization and `(to_neighbor_key(), stats)` that an `events` entry contributes: only
an entry that is not preserved, has an outbound conversation, and whose key the peer database
finds. -/
def orgEntry (net : PeerNetwork) (preserve : List Nat) (entry : NeighborKey × Nat) :
    Option (UInt32 × NeighborInfo) :=
  if entry.2 ∈ preserve then none
  else match net.peers.get entry.2 with
    | some convo =>
      if convo.stats.outbound then
        match lookupPeer net.peerdb convo with
        | .ok (some peer) => some (peer.org, (convo.toNeighborKey, convo.stats))
        | _ => none
      else none
    | none => none

/-- The lookup of an entry fails: the entry is not preserved, its conversation is outbound, and
`PeerDB::get_peer` reports an error. -/
def OrgLookupFails (net : PeerNetwork) (preserve : List Nat) (entry : NeighborKey × Nat) : Prop :=
  ∃ convo err, entry.2 ∉ preserve ∧ net.peers.get entry.2 = some convo ∧
    convo.stats.outbound = true ∧ lookupPeer net.peerdb convo = .error err

/-- The members of the organization `o`, in `events` order. -/
def orgMembers (net : PeerNetwork) (preserve : List Nat) (o : UInt32) : List NeighborInfo :=
  net.events.entries.filterMap fun entry =>
    (orgEntry net preserve entry).bind fun p => if p.1 = o then some p.2 else none

/-- The keys of all classified neighbors, in `events` order: what the organization path can
return. -/
def outboundPool (net : PeerNetwork) (preserve : List Nat) : List NeighborKey :=
  net.events.entries.filterMap fun entry => (orgEntry net preserve entry).map fun p => p.2.1

/-- What a contributing entry is: not preserved, with an outbound conversation, filed under that
conversation's key and stats. -/
lemma orgEntry_eq_some {net : PeerNetwork} {preserve : List Nat} {entry : NeighborKey × Nat}
    {p : UInt32 × NeighborInfo} (h : orgEntry net preserve entry = some p) :
    entry.2 ∉ preserve ∧ ∃ convo, net.peers.get entry.2 = some convo ∧
      convo.stats.outbound = true ∧ p.2 = (convo.toNeighborKey, convo.stats) := by
  unfold orgEntry at h
  by_cases hpre : entry.2 ∈ preserve
  · simp [hpre] at h
  · rw [if_neg hpre] at h
    refine ⟨hpre, ?_⟩
    split at h
    · next convo hc =>
      split_ifs at h with ho
      split at h
      · cases h
        exact ⟨convo, hc, ho, rfl⟩
      · cases h
    · cases h

/-- A key of the pool is the key of the conversation of a non-preserved entry of `events`. -/
lemma mem_outboundPool {net : PeerNetwork} {preserve : List Nat} {k : NeighborKey}
    (hk : k ∈ outboundPool net preserve) :
    ∃ entry ∈ net.events.entries, entry.2 ∉ preserve ∧
      ∃ convo, net.peers.get entry.2 = some convo ∧ convo.toNeighborKey = k := by
  obtain ⟨entry, he, hk⟩ := List.mem_filterMap.1 hk
  obtain ⟨p, hp, rfl⟩ := Option.map_eq_some'.1 hk
  obtain ⟨hpre, convo, hc, -, hp2⟩ := orgEntry_eq_some hp
  exact ⟨entry, he, hpre, convo, hc, by rw [hp2]⟩

/-- When the event ids are distinct, the pool is no longer than the outbound count: each of its
members has an outbound conversation of its own. -/
lemma outboundPool_length_le {net : PeerNetwork} {preserve : List Nat}
    (hids : (net.events.entries.map Prod.snd).Nodup) :
    (outboundPool net preserve).length ≤ countOutboundConversations net.peers := by
  let E := net.events.entries.filter fun e => (orgEntry net preserve e).isSome
  have hlen : (outboundPool net preserve).length = (E.map Prod.snd).length := by
    rw [outboundPool, List.length_filterMap_eq_countP, List.countP_eq_length_filter,
      List.length_map]
    simp [E]
  have hsub : E.map Prod.snd ⊆
      (net.peers.entries.filter fun e => e.2.stats.outbound).map Prod.fst := fun id hid => by
    obtain ⟨e, he, rfl⟩ := List.mem_map.1 hid
    obtain ⟨p, hp⟩ := Option.isSome_iff_exists.1 (by simpa using (List.mem_filter.1 he).2)
    obtain ⟨-, convo, hc, ho, -⟩ := orgEntry_eq_some hp
    exact List.mem_map.2 ⟨(e.2, convo),
      List.mem_filter.2 ⟨(HashMap.get_eq_some_iff _).1 hc, by simpa using ho⟩, rfl⟩
  rw [hlen, countOutboundConversations, ← List.length_map _ Prod.fst]
  exact ((((List.filter_sublist _).map Prod.snd).nodup hids).subperm hsub).length_le

section Step

variable {net : PeerNetwork} {preserve : List Nat} {m m' : HashMap UInt32 (List NeighborInfo)}
  {entry : NeighborKey × Nat}

lemma orgNeighborStep_error_iff :
    (∃ err, orgNeighborStep net.peers net.peerdb preserve m entry = .error err) ↔
      OrgLookupFails net preserve entry := by
  unfold orgNeighborStep OrgLookupFails lookupPeer
  dsimp only
  by_cases hp : entry.2 ∈ preserve
  · simp [hp]
  · cases hc : net.peers.get entry.2 with
    | none => simp [hp]
    | some convo =>
      cases ho : convo.stats.outbound
      · simp [hp, ho]
      · rcases hl : net.peerdb.getPeer convo.toNeighborKey.networkId convo.toNeighborKey.addrbytes
          convo.toNeighborKey.port with err | _ | peer <;> simp [hp, ho, hl]
        exact ⟨fun _ => ⟨err, trivial⟩, fun _ => ⟨.DBError, trivial⟩⟩

lemma orgNeighborStep_ok (h : orgNeighborStep net.peers net.peerdb preserve m entry = .ok m') :
    m' = match orgEntry net preserve entry with
      | some p => m.push p.1 p.2
      | none => m := by
  unfold orgNeighborStep at h
  unfold orgEntry lookupPeer
  dsimp only at h
  by_cases hp : entry.2 ∈ preserve
  · simp only [hp, if_true] at h ⊢
    cases h; rfl
  · simp only [hp, if_false] at h ⊢
    cases hc : net.peers.get entry.2 with
    | none => simp only [hc] at h ⊢; cases h; rfl
    | some convo =>
      simp only [hc] at h ⊢
      cases ho : convo.stats.outbound
      · simp only [ho, Bool.not_false, if_true] at h; cases h; rfl
      · simp only [ho, Bool.not_true, if_true] at h ⊢
        rcases hl : net.peerdb.getPeer convo.toNeighborKey.networkId convo.toNeighborKey.addrbytes
          convo.toNeighborKey.port with err | _ | peer <;> simp only [hl] at h ⊢ <;> cases h <;> rfl

end Step

/-! ### The fold -/

lemma foldlM_orgNeighborStep_error_iff (net : PeerNetwork) (preserve : List Nat) :
    ∀ (l : List (NeighborKey × Nat)) (m : HashMap UInt32 (List NeighborInfo)),
      (∃ err, l.foldlM (orgNeighborStep net.peers net.peerdb preserve) m = .error err) ↔
        ∃ entry ∈ l, OrgLookupFails net preserve entry
  | [], m => by
    simp only [List.foldlM_nil, List.not_mem_nil, false_and, exists_false, iff_false]
    rintro ⟨err, h⟩
    cases h
  | x :: l, m => by
    rw [List.foldlM_cons]
    cases hx : orgNeighborStep net.peers net.peerdb preserve m x with
    | error err =>
      have : OrgLookupFails net preserve x := orgNeighborStep_error_iff.1 ⟨err, hx⟩
      exact ⟨fun _ => ⟨x, List.mem_cons_self _ _, this⟩, fun _ => ⟨err, rfl⟩⟩
    | ok m' =>
      have hnx : ¬ OrgLookupFails net preserve x := fun hf => by
        obtain ⟨err, herr⟩ := orgNeighborStep_error_iff.2 hf
        rw [hx] at herr
        cases herr
      simp only [List.mem_cons, exists_eq_or_imp, hnx, false_or]
      exact foldlM_orgNeighborStep_error_iff net preserve l m'

lemma foldlM_orgNeighborStep_ok (net : PeerNetwork) (preserve : List Nat) :
    ∀ (l : List (NeighborKey × Nat)) (m D : HashMap UInt32 (List NeighborInfo)),
      l.foldlM (orgNeighborStep net.peers net.peerdb preserve) m = .ok D →
        (∀ o, (D.get o).getD [] = (m.get o).getD [] ++ l.filterMap fun entry =>
          (orgEntry net preserve entry).bind fun p => if p.1 = o then some p.2 else none) ∧
        D.values.Perm
          (m.values ++ l.filterMap fun entry => (orgEntry net preserve entry).map Prod.snd)
  | [], m, D, h => by
    cases h
    simp
  | x :: l, m, D, h => by
    rw [List.foldlM_cons] at h
    cases hx : orgNeighborStep net.peers net.peerdb preserve m x with
    | error err => rw [hx] at h; cases h
    | ok m' =>
      rw [hx] at h
      obtain ⟨hget, hval⟩ := foldlM_orgNeighborStep_ok net preserve l m' D h
      rw [orgNeighborStep_ok hx] at hget hval
      simp only [List.filterMap_cons]
      cases hp : orgEntry net preserve x with
      | none => exact ⟨by simpa [hp] using hget, by simpa [hp] using hval⟩
      | some p =>
        simp only [hp] at hget hval
        refine ⟨fun o => ?_, hval.trans ?_⟩
        · rw [hget o, HashMap.get_push]
          by_cases ho : o = p.1 <;> simp [ho, eq_comm]
        · simpa using (HashMap.values_push_perm m p.1 p.2).append_right _

/-- `org_neighbor_distribution` fails exactly when the peer database fails on the key of a
non-preserved outbound conversation, and otherwise lists under each organization its members,
in `events` order. -/
theorem orgNeighborDistribution_spec (net : PeerNetwork) (preserve : List Nat) :
    ((∃ err, orgNeighborDistribution net preserve = .error err) ↔
        ∃ entry ∈ net.events.entries, OrgLookupFails net preserve entry) ∧
      ∀ D, orgNeighborDistribution net preserve = .ok D →
        ∀ o, (D.get o).getD [] = orgMembers net preserve o :=
  ⟨foldlM_orgNeighborStep_error_iff net preserve _ _, fun D h o => by
    simpa using (foldlM_orgNeighborStep_ok net preserve _ _ D h).1 o⟩

/-- The classified neighbors, over all organizations, are the outbound pool. -/
theorem orgNeighborDistribution_values {net : PeerNetwork} {preserve : List Nat}
    {D : HashMap UInt32 (List NeighborInfo)} (h : orgNeighborDistribution net preserve = .ok D) :
    (D.values.map Prod.fst).Perm (outboundPool net preserve) := by
  have := ((foldlM_orgNeighborStep_ok net preserve _ _ D h).2).map Prod.fst
  simpa [outboundPool, List.map_filterMap, Option.map_map] using this

end StacksPrune
