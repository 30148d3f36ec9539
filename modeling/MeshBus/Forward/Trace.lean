import MeshBus.Forward.Network

/-!
# Forward.Trace

Where packets come from. A forwarder neither makes up a packet nor changes more than its ttl and
its addresses, so what holds of the identity of every packet that enters holds of every packet that
is sent or delivered (`Traced`).
-/

namespace MeshBus
namespace Forward

open Wire Network

/-- `Q` holds of the identity of a packet, if it is for anyone. -/
def Bears (Q : ForwardPacket → Prop) (packet : ForwardPacket) : Prop :=
  ∀ t ∈ tokensOf packet, Q t.1

theorem Bears.of_ident {Q : ForwardPacket → Prop} {packet : ForwardPacket} (h : Q (ident packet)) :
    Bears Q packet := by
  intro t ht
  rw [tokensOf, tokens, Multiset.mem_map] at ht
  obtain ⟨d, -, rfl⟩ := ht
  exact h

/-- What is on the wire is read with its destinations in another order. -/
theorem Bears.of_perm {Q : ForwardPacket → Prop} {packet : ForwardPacket} {ds : List NodeId}
    (h : Bears Q packet) (hds : ds.Perm packet.multicastDestinations) :
    Bears Q { packet with multicastDestinations := ds } := by
  have hrecipients : (recipients { packet with multicastDestinations := ds }).Perm
      (recipients packet) := by
    simp only [recipients]
    split
    · exact hds
    · exact .refl _
  have htokens : tokensOf { packet with multicastDestinations := ds } = tokensOf packet := by
    simp only [tokensOf, Multiset.coe_eq_coe.mpr hrecipients]
    rfl
  rw [Bears, htokens]
  exact h

namespace ForwardAction

/-- `Q` holds of what the action sends or delivers. -/
def Bears (Q : ForwardPacket → Prop) : ForwardAction → Prop
  | .send _ packet => Forward.Bears Q packet
  | .deliverLocal packet => Q (ident packet)
  | _ => True

end ForwardAction

namespace Forwarder

/-- `Q` holds of the identity of every packet that is held. -/
def Traced (Q : ForwardPacket → Prop) (f : Forwarder) : Prop := ∀ t ∈ account f, Q t.1

theorem traced_new (Q : ForwardPacket → Prop) (me : NodeId) (routes : Control.RouteTable) :
    Traced Q (new me routes) := by
  intro t ht
  have hempty : account (new me routes) = 0 := by
    simp [account, heldLives, new, conflatedTokens]
  rw [hempty] at ht
  simp at ht

theorem Traced.mono {Q R : ForwardPacket → Prop} {f : Forwarder} (h : Traced Q f)
    (hQR : ∀ k, Q k → R k) : Traced R f :=
  fun t ht => hQR t.1 (h t ht)

/-- The multicast check leaves the payload and the source. -/
theorem processed_outboundMulticast {destinations : List NodeId} {raw packet : ForwardPacket}
    {incoming : Option LinkId}
    (h : processed (.outboundMulticast destinations raw) = some (incoming, packet)) :
    packet.payload = raw.payload ∧ packet.header.source = raw.header.source := by
  simp only [processed] at h
  split at h
  · cases h
  · rename_i m hm
    cases h
    simp only [outboundPacket, hm]
    exact ⟨(MulticastPayload.new_ok hm).2, trivial⟩

theorem mem_tokens_of_processed {event : ForwardEvent} {t : Token}
    (h : t ∈ (submission event).map Prod.fst) :
    ∃ incoming packet, processed event = some (incoming, packet) ∧ t ∈ tokensOf packet := by
  rw [submission] at h
  cases hp : processed event with
  | none => simp [hp] at h
  | some a =>
    simp only [hp, Option.toList_some, List.map_cons, List.map_nil, List.sum_cons, List.sum_nil,
      add_zero, named] at h
    split at h
    · rw [map_fst_arrivingOf] at h
      exact ⟨a.1, a.2, rfl, h⟩
    · simp at h

theorem mem_of_sent {acts : List ForwardAction} {packet : ForwardPacket} (h : packet ∈ sent acts)
    {t : Token} (ht : t ∈ tokensOf packet) : t ∈ (sentLives acts).map Prod.fst := by
  have hle := sum_le_of_sublist heldOf (List.singleton_sublist.mpr h)
  rw [List.map_singleton, List.sum_singleton] at hle
  refine Multiset.mem_of_le (Multiset.map_le_map hle) ?_
  rwa [map_fst_heldOf]

theorem mem_of_delivered {acts : List ForwardAction} {packet : ForwardPacket}
    (h : packet ∈ delivered acts) :
    (ident packet, packet.header.destination) ∈ deliveredTokens acts := by
  have hle := sum_le_of_sublist
    (fun p : ForwardPacket => ({(ident p, p.header.destination)} : Multiset Token))
    (List.singleton_sublist.mpr h)
  rw [List.map_singleton, List.sum_singleton] at hle
  exact Multiset.mem_of_le hle (Multiset.mem_singleton_self _)

theorem Traced.handle {Q : ForwardPacket → Prop} {f f' : Forwarder} {now : MonoTime}
    {event : ForwardEvent} {acts : List ForwardAction} (hf : Traced Q f)
    (hevent : ∀ incoming packet, processed event = some (incoming, packet) → Bears Q packet)
    (h : f.handle now event = some (f', acts)) : Traced Q f' ∧ ∀ a ∈ acts, a.Bears Q := by
  have hle := (spends_submission h).tokens
  have hall : ∀ t ∈ account f' + (sentLives acts).map Prod.fst + deliveredTokens acts, Q t.1 := by
    intro t ht
    rcases Multiset.mem_add.mp (Multiset.mem_of_le hle ht) with ht | ht
    · exact hf t ht
    · obtain ⟨incoming, packet, hp, hmem⟩ := mem_tokens_of_processed ht
      exact hevent incoming packet hp t hmem
  refine ⟨fun t ht => hall t ?_, fun a ha => ?_⟩
  · exact Multiset.mem_add.mpr (.inl (Multiset.mem_add.mpr (.inl ht)))
  · cases a with
    | send link packet =>
      intro t ht
      refine hall t (Multiset.mem_add.mpr (.inl (Multiset.mem_add.mpr (.inr ?_))))
      exact mem_of_sent (List.mem_filterMap.mpr ⟨_, ha, rfl⟩) ht
    | deliverLocal packet =>
      refine hall (ident packet, packet.header.destination) (Multiset.mem_add.mpr (.inr ?_))
      exact mem_of_delivered (List.mem_filterMap.mpr ⟨_, ha, rfl⟩)
    | drop | backpressure | setTimer => trivial

theorem Traced.handleAll {Q : ForwardPacket → Prop} {now : MonoTime} {events : List ForwardEvent}
    {f f' : Forwarder} {acts : List ForwardAction} (hf : Traced Q f)
    (hevents : ∀ e ∈ events, ∀ incoming packet, processed e = some (incoming, packet) →
      Bears Q packet)
    (h : emitAll (fun f e => f.handle now e) f events = some (f', acts)) :
    Traced Q f' ∧ ∀ a ∈ acts, a.Bears Q := by
  refine emitAll_out (P := Traced Q) (Q := fun a => a.Bears Q) ?_ hevents hf h
  intro g e g' out hg he hstep
  exact hg.handle he hstep

end Forwarder
end Forward
end MeshBus
