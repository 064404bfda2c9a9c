import StacksPrune.HashMap
import Mathlib.Algebra.Order.Ring.Rat

/-!
# The connection table of a peer network

The part of `PeerNetwork` (`net/p2p.rs`) that the pruning pass of `net/prune.rs` reads and
writes: the connection table (`events`, from neighbor key to event id, and `peers`, from event
id to conversation), the peer database handle, the four soft limits and the two eviction
counters.  Every record keeps exactly the fields the pass reads.

`Oracle` collects what the Rust runtime decides during a pass and the source leaves open: the
clock that the comparator reads, the iteration orders of the maps the pass builds, and the
draws of `thread_rng()`.  The results of this development hold for every oracle.
-/

namespace StacksPrune

/-- `PeerAddress([u8; 16])`: an IPv6 address, or an IPv4 address mapped into one. -/
structure PeerAddress where
  /-- The sixteen bytes. -/
  bytes : List UInt8
  /-- There are sixteen of them. -/
  length_eq : bytes.length = 16
deriving DecidableEq

/-- `NeighborKey`: the address-based identity of a remote peer. -/
structure NeighborKey where
  /-- `network_id`. -/
  networkId : UInt32
  /-- `addrbytes`. -/
  addrbytes : PeerAddress
  /-- `port`. -/
  port : UInt16
deriving DecidableEq

/-- The fields of `NeighborStats` that the pass reads. -/
structure NeighborStats where
  /-- `outbound`: whether we opened the connection. -/
  outbound : Bool
  /-- `first_contact_time`, in seconds since the epoch. -/
  firstContactTime : Nat
  /-- What `get_health_score()` returns; its computation from the message history is outside
  the excerpt, and the pass only compares it. -/
  healthScore : ℚ
deriving DecidableEq

/-- The fields of a conversation (`ConversationP2P`) that the pass reads. -/
structure ConversationP2P where
  /-- The remote peer's network id. -/
  peerNetworkId : UInt32
  /-- The remote peer's address. -/
  peerAddrbytes : PeerAddress
  /-- The remote peer's port. -/
  peerPort : UInt16
  /-- `stats`. -/
  stats : NeighborStats

/-- Modelled from the spec: `to_neighbor_key()` is not in the excerpt; the spec's Neighbor Key
of a conversation is its remote peer's (network id, address bytes, port). -/
def ConversationP2P.toNeighborKey (convo : ConversationP2P) : NeighborKey :=
  ⟨convo.peerNetworkId, convo.peerAddrbytes, convo.peerPort⟩

/-- The part of a peer-database record that the pass reads: its organization. -/
structure Neighbor where
  /-- `org`. -/
  org : UInt32
deriving DecidableEq

/-- A failure reported by the peer database.  The pass turns every one into
`NetError.DBError`, so the reason is not kept. -/
structure DbError

/-- The errors of `net::Error` that the pass can return. -/
inductive NetError
  | DBError
deriving DecidableEq

/-- The peer database as the pass sees it: `PeerDB::get_peer(conn, network_id, addrbytes,
port)` fails, finds no record, or finds the stored one. -/
structure PeerDB where
  /-- `PeerDB::get_peer`. -/
  getPeer : UInt32 → PeerAddress → UInt16 → Except DbError (Option Neighbor)

/-- The fields of `PeerNetwork` that the pass reads and writes. -/
structure PeerNetwork where
  /-- `events`: the event id of the connection slot of each neighbor key. -/
  events : HashMap NeighborKey Nat
  /-- `peers`: the conversation of each event id. -/
  peers : HashMap Nat ConversationP2P
  /-- `peerdb`. -/
  peerdb : PeerDB
  /-- `soft_num_neighbors`: the target ceiling for outbound connections. -/
  softNumNeighbors : Nat
  /-- `soft_max_neighbors_per_org`. -/
  softMaxNeighborsPerOrg : Nat
  /-- `soft_num_clients`: the target ceiling for inbound connections. -/
  softNumClients : Nat
  /-- `soft_max_clients_per_host`. -/
  softMaxClientsPerHost : Nat
  /-- `prune_inbound_counts`: how often each key was pruned for sharing an IP address. -/
  pruneInboundCounts : HashMap NeighborKey Nat
  /-- `prune_outbound_counts`: how often each key was pruned for its organization. -/
  pruneOutboundCounts : HashMap NeighborKey Nat

/-- An entry of an organization's list: `(NeighborKey, NeighborStats)`. -/
abbrev NeighborInfo := NeighborKey × NeighborStats

/-- An entry of an address's list: `(event_id, NeighborKey, NeighborStats)`. -/
abbrev ClientInfo := Nat × NeighborKey × NeighborStats

/-- What the runtime decides during one pass. -/
structure Oracle where
  /-- The value of `get_epoch_time_secs()` while the pass runs. -/
  now : Nat
  /-- The iteration order of the organization map, given its entries in insertion order. -/
  orgOrder : List (UInt32 × List NeighborInfo) → List (UInt32 × List NeighborInfo)
  orgOrder_perm : ∀ l, (orgOrder l).Perm l
  /-- The iteration order of the address map. -/
  ipOrder : List (PeerAddress × List ClientInfo) → List (PeerAddress × List ClientInfo)
  ipOrder_perm : ∀ l, (ipOrder l).Perm l
  /-- The iteration order of the weight map built in the `k`-th round of sampling. -/
  sampleOrder : Nat → List (UInt32 × Nat) → List (UInt32 × Nat)
  sampleOrder_perm : ∀ k l, (sampleOrder k l).Perm l
  /-- `thread_rng().gen_range(0, n)` in the `k`-th round of sampling. -/
  genRange : Nat → Nat → Nat
  genRange_lt : ∀ k n, 0 < n → genRange k n < n

/-- An oracle that keeps every insertion order, reads the clock as `0` and draws the top of
every range. -/
def topOracle : Oracle :=
  ⟨0, id, fun _ => .refl _, id, fun _ => .refl _, fun _ => id, fun _ _ => .refl _,
    fun _ n => n - 1, fun _ _ h => Nat.sub_lt h Nat.one_pos⟩

/-- `a - b` on `u64` with overflow checks: `none` is the panic when `b > a`. -/
def checkedSub (a b : Nat) : Option Nat := if b ≤ a then some (a - b) else none

@[simp] theorem checkedSub_eq_some_iff {a b d : Nat} :
    checkedSub a b = some d ↔ b ≤ a ∧ d = a - b := by
  unfold checkedSub
  split_ifs with h <;> simp [h, eq_comm]

@[simp] theorem checkedSub_eq_none_iff {a b : Nat} : checkedSub a b = none ↔ a < b := by
  unfold checkedSub
  split_ifs <;> simp <;> omega

/-- `a + b` on `usize` (64 bits) with overflow checks: `none` is the panic when the sum does not
fit. -/
def checkedAdd (a b : Nat) : Option Nat := if a + b < 2 ^ 64 then some (a + b) else none

@[simp] theorem checkedAdd_eq_some_iff {a b d : Nat} :
    checkedAdd a b = some d ↔ a + b < 2 ^ 64 ∧ d = a + b := by
  unfold checkedAdd
  split_ifs with h <;> simp only [h, Option.some.injEq, eq_comm, true_and, false_and,
    reduceCtorEq]

/-- Modelled from the spec: `count_outbound_conversations(&self.peers)` is not in the excerpt;
the spec's "current outbound connection count" is the number of conversations in `peers` whose
stats say outbound. -/
def countOutboundConversations (peers : HashMap Nat ConversationP2P) : Nat :=
  (peers.entries.filter fun e => e.2.stats.outbound).length

/-- Modelled from the spec: `num_peers()` is not in the excerpt; it is the number of
conversations in `peers`. -/
def numPeers (net : PeerNetwork) : Nat := net.peers.entries.length

theorem countOutboundConversations_le_numPeers (net : PeerNetwork) :
    countOutboundConversations net.peers ≤ numPeers net :=
  List.length_filter_le _ _

end StacksPrune
