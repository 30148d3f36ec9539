import MeshBus.Forward.Total

/-!
# Forward.Conservation

Over a whole run a forwarder neither loses nor doubles a recipient: every pair (packet identity,
final recipient) handed in is carried by exactly one action, or still held in a queue or a parked
batch. Conflation is the one exception, so packets that are both P1 and CONFLATABLE are excluded.
-/

namespace MeshBus
namespace Forward

open Wire
open Control (RouteTable)

/-- The packet of an event. -/
def ForwardEvent.packet : ForwardEvent → Option ForwardPacket
  | .outbound packet => some packet
  | .outboundMulticast _ packet => some packet
  | .inbound _ packet => some packet
  | _ => none

/-- The pairs an event hands in. -/
def ForwardEvent.pairs : ForwardEvent → Multiset Token
  | .outbound packet => tokensOf packet
  | .outboundMulticast destinations packet =>
    tokens (ident { packet with header := { packet.header with packetType := .multicast } })
      destinations
  | .inbound _ packet => tokensOf packet
  | _ => 0

/-- The pairs an action carries. -/
def ForwardAction.pairs : ForwardAction → Multiset Token
  | .send _ packet => tokensOf packet
  | .deliverLocal packet => {(ident packet, packet.header.destination)}
  | .drop _ packet => tokensOf packet
  | .backpressure _ packet => tokensOf packet
  | .setTimer _ _ => 0

namespace Forwarder

/-- The pairs of the packets in link queues and parked batches. -/
def heldPairs (f : Forwarder) : Multiset Token := (heldLives f).map Prod.fst

theorem sum_pairs (acts : List ForwardAction) :
    (acts.map ForwardAction.pairs).sum =
      (sentLives acts).map Prod.fst + deliveredTokens acts + refusedTokens acts := by
  induction acts with
  | nil => rfl
  | cons act acts ih =>
    rw [List.map_cons, List.sum_cons, ih]
    cases act with
    | send link p =>
      simp only [ForwardAction.pairs, sentLives, deliveredTokens, refusedTokens, sent_cons_send,
        delivered_cons_send, refused_cons_send, List.map_cons, List.sum_cons, Multiset.map_add,
        map_fst_heldOf]
      abel
    | deliverLocal p =>
      simp only [ForwardAction.pairs, sentLives, deliveredTokens, refusedTokens,
        sent_cons_deliverLocal, delivered_cons_deliverLocal, refused_cons_deliverLocal,
        List.map_cons, List.sum_cons]
      abel
    | drop reason p =>
      simp only [ForwardAction.pairs, sentLives, deliveredTokens, refusedTokens, sent_cons_drop,
        delivered_cons_drop, refused_cons_drop, List.map_cons, List.sum_cons]
      abel
    | backpressure link p =>
      simp only [ForwardAction.pairs, sentLives, deliveredTokens, refusedTokens,
        sent_cons_backpressure, delivered_cons_backpressure, refused_cons_backpressure,
        List.map_cons, List.sum_cons]
      abel
    | setTimer timer due => exact zero_add _

/-- Without conflation a balanced step conserves the pairs. -/
theorem Balanced.pairs {f f' : Forwarder} {x : Multiset (Token × ℕ)} {acts : List ForwardAction}
    (h : Balanced f x f' acts) (hc : f'.conflated = f.conflated) :
    f.heldPairs + x.map Prod.fst = (acts.map ForwardAction.pairs).sum + f'.heldPairs := by
  obtain ⟨gone, hl, ht⟩ := h
  rw [hc, add_assoc] at ht
  have hgone := add_left_cancel ht
  rw [sum_pairs, heldPairs, heldPairs, ← Multiset.map_add, ← hl, Multiset.map_add,
    Multiset.map_add, ← hgone]
  abel

theorem arrival_packet {event : ForwardEvent} {incoming : Option LinkId} {packet : ForwardPacket}
    (h : arrival event = some (incoming, packet)) : ∃ raw, event.packet = some raw ∧
      ConflationKey.fromPacket packet = ConflationKey.fromPacket raw := by
  cases event with
  | outbound p =>
    cases h
    exact ⟨packet, rfl, rfl⟩
  | inbound link p =>
    cases h
    exact ⟨packet, rfl, rfl⟩
  | outboundMulticast ds p =>
    cases h
    refine ⟨p, rfl, ?_⟩
    rw [outboundPacket]
    split <;> rfl
  | routesUpdated _ | linkCredit _ _ | linkWritable _ | linkDown _ | timer _ => cases h

/-- An accepted destination list is what the packet is processed with. -/
theorem input_pairs {event : ForwardEvent}
    (h : ∀ ds packet, event = .outboundMulticast ds packet →
      ∃ m, MulticastPayload.new ds packet.payload = .ok m) :
    (input event).map Prod.fst = event.pairs := by
  cases event with
  | outbound p => exact map_fst_arrivingOf p
  | inbound link p => exact map_fst_arrivingOf p
  | outboundMulticast ds p =>
    obtain ⟨m, hm⟩ := h ds p rfl
    obtain ⟨hds, hbody⟩ := MulticastPayload.new_ok hm
    have hpacket : outboundPacket ds p =
        { header := { p.header with packetType := .multicast, destination := default }
          multicastDestinations := m.destinations
          payload := m.body } := by
      simp only [outboundPacket, hm]
    have hperm : (m.destinations : Multiset NodeId) = ds := by
      rw [hds]
      exact Multiset.coe_eq_coe.mpr (List.perm_insertionSort _ _)
    have hinput : (input (.outboundMulticast ds p)).map Prod.fst =
        tokensOf (outboundPacket ds p) := map_fst_arrivingOf _
    rw [hinput, hpacket, tokensOf]
    simp only [recipients, if_true, hperm, hbody]
    rfl
  | routesUpdated _ | linkCredit _ _ | linkWritable _ | linkDown _ | timer _ => rfl

theorem classed_new (me : NodeId) (routes : RouteTable) : (new me routes).Classed := by
  refine ⟨fun l priority q hq => ?_, fun g batch hg => ?_⟩
  · simp only [queue, linkState, new, Std.ExtTreeMap.getElem?_empty, Option.getD_none] at hq
    cases hq
  · simp [new] at hg

theorem run_pairs : ∀ {events : List (MonoTime × ForwardEvent)} {f f' : Forwarder}
    {acts : List ForwardAction}, f.Classed →
    (∀ e ∈ events, ∀ packet, e.2.packet = some packet →
      ConflationKey.fromPacket packet = none) →
    (∀ e ∈ events, ∀ ds packet, e.2 = .outboundMulticast ds packet →
      ∃ m, MulticastPayload.new ds packet.payload = .ok m) →
    f.run events = some (f', acts) →
    f.heldPairs + (events.map fun e => e.2.pairs).sum =
      (acts.map ForwardAction.pairs).sum + f'.heldPairs := by
  intro events
  induction events with
  | nil =>
    intro f f' acts _ _ _ h
    cases h
    simp
  | cons e events ih =>
    intro f f' acts hclassed hplain hmulti h
    obtain ⟨f1, out, rest, h1, h2, rfl⟩ := emitAll_cons_inv h
    have hh := handle_handled h1
    have hconf : f1.conflated = f.conflated := by
      refine hh.conflated hclassed fun incoming packet harr => ?_
      obtain ⟨raw, hraw, hkey⟩ := arrival_packet harr
      rw [hkey]
      exact hplain e List.mem_cons_self raw hraw
    have hstep := Balanced.pairs hh.balanced hconf
    rw [input_pairs (hmulti e List.mem_cons_self)] at hstep
    have hrest := ih (hh.classed hclassed) (fun e' he' => hplain e' (List.mem_cons_of_mem _ he'))
      (fun e' he' => hmulti e' (List.mem_cons_of_mem _ he')) h2
    calc f.heldPairs + ((e :: events).map fun e => e.2.pairs).sum
        = f.heldPairs + e.2.pairs + (events.map fun e => e.2.pairs).sum := by
          rw [List.map_cons, List.sum_cons, add_assoc]
      _ = (out.map ForwardAction.pairs).sum +
            (f1.heldPairs + (events.map fun e => e.2.pairs).sum) := by rw [hstep, add_assoc]
      _ = ((out ++ rest).map ForwardAction.pairs).sum + f'.heldPairs := by
          rw [hrest, List.map_append, List.sum_append, add_assoc]

/-- The pairs handed in over a run are the pairs carried by its actions and the pairs still held;
and the run does not panic or hang. -/
theorem run_conserves (me : NodeId) (routes : RouteTable)
    (events : List (MonoTime × ForwardEvent))
    (hplain : ∀ e ∈ events, ∀ packet, e.2.packet = some packet →
      ¬ (packet.header.priority = .p1 ∧ packet.header.flags.contains ForwardFlags.conflatable))
    (hmulti : ∀ e ∈ events, ∀ ds packet, e.2 = .outboundMulticast ds packet →
      ∃ m, MulticastPayload.new ds packet.payload = .ok m) :
    (∀ f acts, (new me routes).run events = some (f, acts) →
      (events.map fun e => e.2.pairs).sum = (acts.map ForwardAction.pairs).sum + f.heldPairs) ∧
    (events.length ≤ 2 ^ 64 → ((new me routes).run events).isSome) := by
  refine ⟨fun f acts h => ?_, fun hlen => run_ends (ready_new me routes) (by omega)⟩
  have hkeys : ∀ e ∈ events, ∀ packet, e.2.packet = some packet →
      ConflationKey.fromPacket packet = none := by
    intro e he packet hp
    rw [ConflationKey.fromPacket, if_neg (hplain e he packet hp)]
  have hempty : (new me routes).heldPairs = 0 := by
    simp [heldPairs, heldLives, new]
  have hrun := run_pairs (classed_new me routes) hkeys hmulti h
  rw [hempty, zero_add] at hrun
  exact hrun

/-- A packet of node 1 with one byte of payload. -/
def samplePacket (packetType : PacketType) (priority : Priority) (flags : ForwardFlags)
    (destination : NodeId) : ForwardPacket where
  header :=
    { packetType := packetType
      priority := priority
      ttl := 8
      flags := flags
      destination := destination
      source := .ofByte 1
      flowId := 1
      conflateKey := 1 }
  multicastDestinations := []
  payload := [42]

/-- Nodes 2 and 3 behind link 7. -/
def sampleRoutes : RouteTable where
  version := 1
  routes := ((∅ : OrdMap NodeId Control.Route).insert (.ofByte 2) ⟨7, 1, 1⟩).insert (.ofByte 3)
    ⟨7, 1, 1⟩

/-- A P0 multicast to nodes 1 to 4 at node 1, its branch parked by a link failure and expired. -/
def fanOut : List (MonoTime × ForwardEvent) :=
  [(0, .outboundMulticast [.ofByte 1, .ofByte 2, .ofByte 3, .ofByte 4]
      (samplePacket .multicast .p0 .empty default)),
    (1, .linkWritable 7), (2, .linkDown 7), (3000, .timer (.pendingP0 0))]

theorem run_conserves_fanOut :
    (∀ f acts, (new (.ofByte 1) sampleRoutes).run fanOut = some (f, acts) →
      (fanOut.map fun e => e.2.pairs).sum = (acts.map ForwardAction.pairs).sum + f.heldPairs) ∧
    (fanOut.length ≤ 2 ^ 64 → ((new (.ofByte 1) sampleRoutes).run fanOut).isSome) := by
  refine run_conserves _ _ _ ?_ ?_
  · intro e he packet hp
    simp only [fanOut, List.mem_cons, List.not_mem_nil, or_false] at he
    rcases he with rfl | rfl | rfl | rfl
    · cases hp
      decide
    all_goals cases hp
  · intro e he ds packet hd
    simp only [fanOut, List.mem_cons, List.not_mem_nil, or_false] at he
    rcases he with rfl | rfl | rfl | rfl
    · cases hd
      exact ⟨_, rfl⟩
    all_goals cases hd

example : ((new (.ofByte 1) sampleRoutes).run fanOut).map (fun r => r.2.map fun a => a.pairs.card) =
    some [1, 1, 0, 2] := by decide +kernel

end Forwarder
end Forward
end MeshBus
