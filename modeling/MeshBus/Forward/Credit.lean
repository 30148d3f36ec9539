import MeshBus.Forward.Guarded
import MeshBus.Wire.Forward

/-!
# Forward.Credit

The account of a link. The driver grants `maxPayloadLen` when a link comes up and gives back what a
write has used; the forwarder keeps one write going as long as something waits.

* `Settled state owed`: what the state of a link looks like when the lengths in `owed` are sent and
  not given back.
* `Accounts live owed f`: every live link is settled.
* `Enqueues.accounts`, `regrant_accounts`: the account is kept by the events of the driver.
-/

namespace MeshBus
namespace Forward

open Wire

namespace LinkQueues

/-- What `try_send_one` does to the credit and the permit of a link. Nothing is sent only without
the permit, or when some packet does not fit the credit, or when nothing waits. -/
inductive Charged (state : LinkQueues) : LinkQueues → Option QueuedPacket → Prop
  | idle {state' : LinkQueues} (queues : state'.queues = state.queues)
      (credit : state'.availableCreditBytes = state.availableCreditBytes)
      (writable : state'.writable = state.writable)
      (why : state.writable = true → (∀ priority, ∀ q ∈ state.queues priority,
        q.packet.encodedLen ≤ state.availableCreditBytes) →
          ∀ priority, state.queues priority = []) :
      Charged state state' none
  | sent {state' : LinkQueues} (queued : QueuedPacket) (permit : state.writable = true)
      (fits : queued.packet.encodedLen ≤ state.availableCreditBytes)
      (credit : state'.availableCreditBytes =
        state.availableCreditBytes - queued.packet.encodedLen)
      (writable : state'.writable = false) : Charged state state' (some queued)

theorem trySendOne_charged {state state' : LinkQueues} {sent : Option QueuedPacket}
    (h : state.trySendOne = some (state', sent)) : Charged state state' sent := by
  cases (trySendOne_tries h).took with
  | nothing queues bytes credit writable why =>
    refine .idle queues credit writable fun hw hall priority => ?_
    -- a head that fits the credit is not blocked
    have hnone : ∀ priority queued rest, state.queues priority = queued :: rest →
        ¬ state.availableCreditBytes < queued.packet.encodedLen :=
      fun priority queued rest hqueue =>
        Nat.not_lt.mpr (hall priority queued (hqueue ▸ List.mem_cons_self))
    rcases why hw with ⟨queued, rest, hqueue, hshort⟩ | ⟨-, hshort⟩
    · exact absurd hshort (hnone .p0 queued rest hqueue)
    · cases hqueue : state.queues priority with
      | nil => rfl
      | cons queued rest =>
        exact absurd (hshort priority queued rest hqueue) (hnone priority queued rest hqueue)
  | head priority queued rest permit strict front fits queues bytes credit writable =>
    exact .sent queued permit fits credit writable

/-- The account of a link, with the lengths that are sent and not given back. -/
structure Settled (state : LinkQueues) (owed : List Nat) : Prop where
  balance : state.availableCreditBytes + owed.sum = maxPayloadLen
  one : owed.length ≤ 1
  busy : owed ≠ [] → state.writable = false
  idle : owed = [] → state.writable = true ∧ ∀ priority, state.queues priority = []

/-- With a write going on nothing is sent. -/
theorem Settled.wait {state state' : LinkQueues} {owed : List Nat}
    {sent : Option QueuedPacket} (hs : state.Settled owed) (howed : owed ≠ [])
    (state1 : LinkQueues) (hcredit : state1.availableCreditBytes = state.availableCreditBytes)
    (hwritable : state1.writable = state.writable) (h : state1.trySendOne = some (state', sent)) :
    sent = none ∧ state'.Settled owed := by
  have hbusy := hwritable.trans (hs.busy howed)
  cases trySendOne_charged h with
  | idle queues credit writable why =>
    refine ⟨rfl, ?_, hs.one, fun _ => writable.trans hbusy, fun hnil => absurd hnil howed⟩
    rw [credit, hcredit]
    exact hs.balance
  | sent queued permit fits credit writable =>
    rw [hbusy] at permit
    cases permit

/-- With the full credit and the permit, what waits is sent. -/
theorem settled_of_full (state : LinkQueues) {state' : LinkQueues} {sent : Option QueuedPacket}
    (hcredit : state.availableCreditBytes = maxPayloadLen) (hwritable : state.writable = true)
    (hfit : ∀ priority, ∀ q ∈ state.queues priority, q.packet.encodedLen ≤ maxPayloadLen)
    (h : state.trySendOne = some (state', sent)) :
    state'.Settled (sent.map fun q => q.packet.encodedLen).toList := by
  cases trySendOne_charged h with
  | idle queues credit writable why =>
    refine ⟨?_, by simp, by simp, fun _ => ⟨writable.trans hwritable, ?_⟩⟩
    · rw [credit, hcredit]
      rfl
    · rw [queues]
      exact why hwritable (hcredit ▸ hfit)
  | sent queued permit fits credit writable =>
    refine ⟨?_, by simp, fun _ => writable, by simp⟩
    simp only [Option.map_some, Option.toList_some, List.sum_cons, List.sum_nil]
    omega

end LinkQueues

/-! ## All links -/

/-- What is sent on a link and not given back. -/
def owedOn (link : LinkId) (owed : List (LinkId × Nat)) : List Nat :=
  (owed.filter fun x => x.1 = link).map Prod.snd

/-- The lengths of what is sent. -/
def charges (sent : List (LinkId × ForwardPacket)) : List (LinkId × Nat) :=
  sent.map fun x => (x.1, x.2.encodedLen)

@[simp] theorem charges_append (a b : List (LinkId × ForwardPacket)) :
    charges (a ++ b) = charges a ++ charges b := List.map_append

theorem owedOn_append (link : LinkId) (a b : List (LinkId × Nat)) :
    owedOn link (a ++ b) = owedOn link a ++ owedOn link b := by
  simp [owedOn]

theorem owedOn_charges_ne {sent : List (LinkId × ForwardPacket)} {link l : LinkId}
    (h : ∀ x ∈ sent, x.1 = link) (hl : l ≠ link) : owedOn l (charges sent) = [] := by
  simp only [owedOn, charges, List.map_eq_nil_iff, List.filter_eq_nil_iff, List.mem_map,
    decide_eq_true_eq]
  rintro _ ⟨x, hx, rfl⟩ heq
  exact hl (heq ▸ h x hx)

theorem encodedLen_le_of_encodable {p : ForwardPacket} (h : ForwardPacketCodec.Encodable p) :
    p.encodedLen ≤ maxPayloadLen := by
  obtain ⟨b, hb⟩ := (ForwardPacketCodec.encode_iff p).mpr h
  obtain ⟨wire, -, hle, rfl⟩ := ForwardPacketCodec.encode_ok hb
  rw [← ForwardPacketCodec.length_encode hb, List.length_append,
    ForwardPacketCodec.length_forwardHeaderBytes]
  have hmax : forwardHeaderLen + maxForwardPayloadLen = maxPayloadLen := by decide
  omega

namespace Forwarder

/-- Every live link has its account settled; only live links have a state, and no live link counts
as failed. -/
structure Accounts (live : LinkId → Prop) (owed : List (LinkId × Nat)) (f : Forwarder) : Prop where
  settled : ∀ l, live l → ∃ state, f.links[l]? = some state ∧ state.Settled (owedOn l owed)
  up : ∀ l, live l → l ∉ f.downLinks
  known : ∀ l, l ∈ f.links → live l

variable {live : LinkId → Prop} {owed : List (LinkId × Nat)}

/-- One link, new or not, gets a new state and a new account. -/
theorem Accounts.set {live' : LinkId → Prop} {owed' : List (LinkId × Nat)} {f f' : Forwarder}
    (hf : f.Accounts live owed) {link : LinkId} (state : LinkQueues)
    (hlive : ∀ l, live' l ↔ l = link ∨ live l) (hup : link ∉ f.downLinks)
    (hlinks : ∀ l : LinkId, f'.links[l]? = if link = l then some state else f.links[l]?)
    (hdown : f'.downLinks = f.downLinks) (hstate : state.Settled (owedOn link owed'))
    (howed : ∀ l, l ≠ link → owedOn l owed' = owedOn l owed) : f'.Accounts live' owed' := by
  refine ⟨?_, ?_, ?_⟩
  · intro l hl
    by_cases heq : link = l
    · subst heq
      exact ⟨state, by rw [hlinks, if_pos rfl], hstate⟩
    · obtain ⟨st, hst, hsettled⟩ := hf.settled l (((hlive l).mp hl).resolve_left (Ne.symm heq))
      refine ⟨st, by rw [hlinks, if_neg heq, hst], ?_⟩
      rw [howed l (Ne.symm heq)]
      exact hsettled
  · intro l hl
    rw [hdown]
    rcases (hlive l).mp hl with rfl | hl
    · exact hup
    · exact hf.up l hl
  · intro l hl
    rw [hlive]
    obtain ⟨st, hst⟩ := OrdMap.mem_iff_get.mp hl
    rw [hlinks] at hst
    split at hst
    · rename_i heq
      exact .inl heq.symm
    · exact .inr (hf.known l (OrdMap.mem_iff_get.mpr ⟨st, hst⟩))

theorem owedOn_sent (link : LinkId) (owed : List (LinkId × Nat)) (sent : Option QueuedPacket) :
    owedOn link (owed ++ charges (sent.map fun q => (link, q.packet)).toList) =
      owedOn link owed ++ (sent.map fun q => q.packet.encodedLen).toList := by
  rw [owedOn_append]
  cases sent <;> simp [owedOn, charges]

theorem enqueue_accounts {f f' : Forwarder} (hf : f.Accounts live owed) {link : LinkId}
    {packet : ForwardPacket} {incoming : Option LinkId} {acts : List ForwardAction}
    (hlive : live link) (hpacket : packet.encodedLen ≤ maxPayloadLen)
    (h : f.enqueue link packet incoming = some (f', acts)) :
    f'.Accounts live (owed ++ charges (sentOn acts)) := by
  have hothers : ∀ l, l ≠ link →
      owedOn l (owed ++ charges (sentOn acts)) = owedOn l owed := by
    intro l hl
    rw [owedOn_append, owedOn_charges_ne (fun x hx => (enqueue_sentOn h x hx).1) hl,
      List.append_nil]
  have hsame : ∀ l, live l ↔ l = link ∨ live l :=
    fun l => ⟨.inr, fun hl => hl.elim (fun heq => heq ▸ hlive) id⟩
  have hup := hf.up link hlive
  obtain ⟨state, hstate, hsettled⟩ := hf.settled link hlive
  have hlink : f.linkState link = state := by
    rw [linkState, hstate]
    rfl
  simp only [enqueue, if_neg hup, hlink] at h
  split at h
  · -- a packet gives way, so something waits and a write is going on
    rename_i state1 old hconf
    have howed : owedOn link owed ≠ [] := by
      intro hnil
      obtain ⟨-, pre, post, hqueue, -⟩ := LinkQueues.conflate_some hconf
      rw [(hsettled.idle hnil).2] at hqueue
      simp at hqueue
    have hscheduler : state1.availableCreditBytes = state.availableCreditBytes ∧
        state1.writable = state.writable := by
      simp only [LinkQueues.conflate] at hconf
      split at hconf
      · cases hconf
      · split at hconf
        · cases hconf
        · cases hconf
          exact ⟨rfl, rfl⟩
    obtain ⟨state', sent, htry, rfl, hsent⟩ :=
      trySendOne_link state1 (by rw [OrdMap.get_insert, if_pos rfl]) h
    obtain ⟨rfl, hsettled'⟩ := hsettled.wait howed state1 hscheduler.1 hscheduler.2 htry
    refine hf.set state' hsame hup (fun l => ?_) rfl ?_ hothers
    · simp only [OrdMap.get_insert]
      split <;> rfl
    · rw [hsent, owedOn_sent]
      simpa using hsettled'
  · rename_i hconf
    split at h
    · cases h
      have hnone : sentOn (if packet.header.priority = .p0 then [.backpressure link packet]
          else [.drop (.queueFull packet.header.priority) packet]) = [] := by
        split <;> rfl
      rw [hnone]
      refine hf.set state hsame hup (fun l => ?_) rfl ?_ ?_
      · rw [OrdMap.get_insert]
      · simpa [charges] using hsettled
      · simp [charges]
    · obtain ⟨state', sent, htry, rfl, hsent⟩ :=
        trySendOne_link (state.pushBack ⟨incoming, packet⟩)
          (by rw [OrdMap.get_insert, if_pos rfl]) h
      refine hf.set state' hsame hup (fun l => ?_) rfl ?_ hothers
      · simp only [OrdMap.get_insert]
        split <;> rfl
      · rw [hsent, owedOn_sent]
        by_cases howed : owedOn link owed = []
        · -- nothing else waits: the packet goes out at once
          obtain ⟨hwritable, hempty⟩ := hsettled.idle howed
          have hcredit := hsettled.balance
          rw [howed] at hcredit ⊢
          refine LinkQueues.settled_of_full (state.pushBack ⟨incoming, packet⟩)
            (by simpa [LinkQueues.pushBack] using hcredit) hwritable ?_ htry
          intro priority q hq
          rw [LinkQueues.pushBack] at hq
          by_cases hpr : priority = packet.header.priority
          · subst hpr
            simp only [Function.update_self, hempty, List.nil_append, List.mem_singleton] at hq
            rw [hq]
            exact hpacket
          · simp [Function.update_of_ne hpr, hempty] at hq
        · obtain ⟨rfl, hsettled'⟩ :=
            hsettled.wait howed (state.pushBack ⟨incoming, packet⟩) rfl rfl htry
          simpa using hsettled'

theorem Enqueues.accounts {f f' : Forwarder} {sent : List (LinkId × ForwardPacket)}
    (h : Enqueues ForwardPacketCodec.Encodable f sent f') (hguard : f.Guarded live)
    (hf : f.Accounts live owed) : f'.Accounts live (owed ++ charges sent) := by
  induction h generalizing owed with
  | refl => simpa [charges] using hf
  | park links routes downLinks parks rest ih =>
    refine ih ((Enqueues.of_parks links routes downLinks parks).guarded hguard).1 ⟨?_, ?_, ?_⟩
    · rw [links]
      exact hf.settled
    · rw [downLinks]
      exact hf.up
    · rw [links]
      exact hf.known
  | enqueue offered ok h rest ih =>
    have hone := Enqueues.enqueue offered ok h .refl
    have hf1 := enqueue_accounts hf (hguard.up_of_offers offered) (encodedLen_le_of_encodable ok) h
    rw [charges_append, ← List.append_assoc]
    exact ih (hone.guarded hguard).1 hf1

/-- Giving back what makes the credit full, then the permit: what waits is sent. -/
theorem regrant {f f1 f2 : Forwarder} {link : LinkId} {bytes : Nat} {a1 a2 : List ForwardAction}
    (hup : link ∉ f.downLinks) (hpermit : (f.linkState link).writable = false)
    (hcredit : (f.linkState link).availableCreditBytes + bytes = maxPayloadLen)
    (hfit : ∀ priority, ∀ q ∈ f.queue link priority, q.packet.encodedLen ≤ maxPayloadLen)
    (h1 : f.grantCredit link bytes = some (f1, a1)) (h2 : f1.markWritable link = some (f2, a2)) :
    ∃ (state : LinkQueues) (sent : Option QueuedPacket),
      (∀ l : LinkId, f2.links[l]? = if link = l then some state else f.links[l]?) ∧
      f2.downLinks = f.downLinks ∧
      state.Settled (sent.map fun q => q.packet.encodedLen).toList ∧
      sentOn (a1 ++ a2) = (sent.map fun q => (link, q.packet)).toList ∧
      (∀ q, sent = some q → ∃ priority, q ∈ f.queue link priority) := by
  simp only [grantCredit, if_neg hup] at h1
  obtain ⟨state1, sent1, htry1, rfl, hsent1⟩ :=
    trySendOne_link _ (by rw [OrdMap.get_insert, if_pos rfl]) h1
  cases LinkQueues.trySendOne_charged htry1 with
  | sent queued permit fits credit writable =>
    rw [hpermit] at permit
    cases permit
  | idle queues credit writable why =>
    simp only at queues credit writable
    simp only [markWritable, if_neg hup] at h2
    obtain ⟨state, sent, htry, rfl, hsent⟩ :=
      trySendOne_link _ (by rw [OrdMap.get_insert, if_pos rfl]) h2
    refine ⟨state, sent, fun l => ?_, rfl, ?_, ?_, ?_⟩
    · simp only [OrdMap.get_insert]
      split <;> rfl
    · refine LinkQueues.settled_of_full _ ?_ ?_ ?_ htry
      · simp only [linkState, OrdMap.get_insert, if_true, Option.getD_some, credit]
        rw [← linkState, satAdd_eq, hcredit]
        rw [hcredit]
        decide
      · rfl
      · intro priority q hq
        simp only [linkState, OrdMap.get_insert, if_true, Option.getD_some, queues] at hq
        exact hfit priority q hq
    · rw [sentOn_append, hsent1, hsent]
      rfl
    · rintro q rfl
      cases LinkQueues.trySendOne_spec htry with
      | head priority _ rest front popped =>
        refine ⟨priority, ?_⟩
        simp only [linkState, OrdMap.get_insert, if_true, Option.getD_some, queues] at front
        rw [queue, linkState, front]
        exact List.mem_cons_self

/-! ## Encodable packets -/

/-- A copy for some of the destinations of a multicast packet is encodable. -/
theorem copyFor_encodable {packet : ForwardPacket} {ds g : List NodeId} (ttl : UInt8)
    (hm : packet.header.packetType = .multicast) (hds : accepted packet = some ds)
    (hsub : g.Sublist ds) (hne : g ≠ []) :
    ForwardPacketCodec.Encodable (copyFor packet g ttl) := by
  obtain ⟨m, -, rfl, hbody⟩ := accepted_multicast hm hds
  obtain ⟨m', hnew', -⟩ := m.new_sublist hne hsub
  rw [hbody] at hnew'
  refine .inr ⟨?_, ?_⟩
  · simp [copyFor, hm]
  · simp only [copyFor, hm, if_true]
    exact MulticastPayload.new_iff.mp ⟨m', hnew'⟩

/-- A copy for some of the destinations of an encodable packet is encodable. -/
theorem inherited_encodable : Inherited ForwardPacketCodec.Encodable := by
  intro packet ds g ttl hpacket hds hsub hne
  by_cases hm : packet.header.packetType = .multicast
  · exact copyFor_encodable ttl hm hds hsub hne
  · simp only [copyFor, if_neg hm]
    exact hpacket

theorem outboundPacket_encodable {destinations : List NodeId} {packet : ForwardPacket}
    {m : MulticastPayload} (h : MulticastPayload.new destinations packet.payload = .ok m) :
    ForwardPacketCodec.Encodable (outboundPacket destinations packet) := by
  simp only [outboundPacket, h]
  exact .inr ⟨rfl, MulticastPayload.new_iff.mp ⟨m, m.new_self⟩⟩

theorem processed_multicast_encodable {destinations : List NodeId} {packet p : ForwardPacket}
    {incoming : Option LinkId}
    (h : processed (.outboundMulticast destinations packet) = some (incoming, p)) :
    ForwardPacketCodec.Encodable p := by
  simp only [processed] at h
  split at h
  · cases h
  · rename_i m hm
    cases h
    exact outboundPacket_encodable hm

/-! ## Events -/

/-- What the driver keeps of a forwarder. -/
structure Sound (live : LinkId → Prop) (owed : List (LinkId × Nat)) (f : Forwarder) : Prop where
  guarded : f.Guarded live
  accounts : f.Accounts live owed
  holds : Holds ForwardPacketCodec.Encodable f

theorem handle_sound {now : MonoTime} {f f' : Forwarder} {event : ForwardEvent}
    {acts : List ForwardAction} (hguard : (f.prepared event).Guarded live)
    (haccounts : (f.prepared event).Accounts live owed)
    (hholds : Holds ForwardPacketCodec.Encodable f) (hgrants : grants event = false)
    (hevent : ∀ incoming packet, processed event = some (incoming, packet) →
      ForwardPacketCodec.Encodable packet)
    (h : f.handle now event = some (f', acts)) :
    f'.Sound live (owed ++ charges (sentOn acts)) ∧
      (∀ x ∈ sentOn acts, ForwardPacketCodec.Encodable x.2) ∧
      f'.downLinks = (f.prepared event).downLinks := by
  have henq := handle_enqueues inherited_encodable hholds
    (fun i p hp => inherited_encodable.copied (hevent i p hp)) hgrants h
  obtain ⟨hholds', hsent⟩ := henq.holds (hholds.prepared event)
  exact ⟨⟨(henq.guarded hguard).1, henq.accounts hguard haccounts, hholds'⟩, hsent, henq.downLinks⟩

/-- The full credit and the permit, for a link that is new or has its one write reported. -/
theorem Sound.regrant (live' : LinkId → Prop) (owed' : List (LinkId × Nat)) {now : MonoTime}
    {f f' : Forwarder} (hf : f.Sound live owed) {link : LinkId} {bytes : Nat}
    {acts : List ForwardAction} (hlive : ∀ l, live' l ↔ l = link ∨ live l)
    (hup : link ∉ f.downLinks) (hpermit : (f.linkState link).writable = false)
    (hcredit : (f.linkState link).availableCreditBytes + bytes = maxPayloadLen)
    (howed : owedOn link owed' = [])
    (hothers : ∀ l, l ≠ link → owedOn l owed' = owedOn l owed)
    (h : emitAll (fun f e => f.handle now e) f [.linkCredit link bytes, .linkWritable link] =
      some (f', acts)) :
    f'.Sound live' (owed' ++ charges (sentOn acts)) ∧
      (∀ x ∈ sentOn acts, ForwardPacketCodec.Encodable x.2) ∧ f'.downLinks = f.downLinks := by
  have hguard :=
    (emitAll_guarded (by simp) (hf.guarded.mono fun l hl => (hlive l).mpr (.inr hl)) h).1
  obtain ⟨f1, a1, rest, h1, hrest, rfl⟩ := emitAll_cons_inv h
  obtain ⟨f2, a2, rest, h2, hnil, rfl⟩ := emitAll_cons_inv hrest
  cases hnil
  rw [List.append_nil]
  have hfit : ∀ priority, ∀ q ∈ f.queue link priority, q.packet.encodedLen ≤ maxPayloadLen :=
    fun priority q hq => encodedLen_le_of_encodable (hf.holds.queues link priority q hq)
  obtain ⟨state, sent, hlinks, hdown, hsettled, hsent, hqueued⟩ :=
    Forwarder.regrant hup hpermit hcredit hfit h1 h2
  have hsentOk : ∀ x ∈ sentOn (a1 ++ a2), ForwardPacketCodec.Encodable x.2 := by
    rw [hsent]
    intro x hx
    obtain ⟨q, hq, rfl⟩ := Option.map_eq_some_iff.mp (Option.mem_toList.mp hx)
    obtain ⟨priority, hmem⟩ := hqueued q hq
    exact hf.holds.queues link priority q hmem
  refine ⟨⟨hguard, ?_, ?_⟩, hsentOk, hdown⟩
  · refine hf.accounts.set state hlive hup hlinks hdown ?_ ?_
    · rw [hsent, owedOn_sent, howed]
      exact hsettled
    · intro l hl
      have hon : ∀ x ∈ sentOn (a1 ++ a2), x.1 = link := by
        rw [hsent]
        intro x hx
        obtain ⟨q, -, rfl⟩ := Option.map_eq_some_iff.mp (Option.mem_toList.mp hx)
        rfl
      rw [owedOn_append, owedOn_charges_ne hon hl, List.append_nil, hothers l hl]
  · exact (hf.holds.tried (grantCredit_granted h1).tried).tried (markWritable_granted h2).tried

/-- Events that neither grant anything nor take a link away. -/
theorem emitAll_sound {now : MonoTime} : ∀ {events : List ForwardEvent} {f f' : Forwarder}
    {acts : List ForwardAction} {owed : List (LinkId × Nat)},
    (∀ e ∈ events, grants e = false ∧ (∀ link, e ≠ .linkDown link) ∧
      (∀ table, e = .routesUpdated table → ∀ d r, table.get d = some r → live r.nextHop) ∧
      ∀ incoming packet, processed e = some (incoming, packet) →
        ForwardPacketCodec.Encodable packet) →
    f.Sound live owed → emitAll (fun f e => f.handle now e) f events = some (f', acts) →
    f'.Sound live (owed ++ charges (sentOn acts)) ∧
      (∀ x ∈ sentOn acts, ForwardPacketCodec.Encodable x.2) ∧ f'.downLinks ⊆ f.downLinks := by
  intro events
  induction events with
  | nil =>
    intro f f' acts owed _ hf h
    cases h
    exact ⟨by simpa [charges] using hf, by simp, Finset.Subset.refl _⟩
  | cons e events ih =>
    intro f f' acts owed hevents hf h
    obtain ⟨f1, out, rest, h1, h2, rfl⟩ := emitAll_cons_inv h
    obtain ⟨hgrants, hdown, hroutes, hpackets⟩ := hevents e List.mem_cons_self
    have hprep : (f.prepared e).Guarded live ∧ (f.prepared e).Accounts live owed ∧
        (f.prepared e).downLinks ⊆ f.downLinks := by
      cases e with
      | routesUpdated table =>
        refine ⟨⟨fun d r hr => .inl (hroutes table rfl d r hr), hf.guarded.queued⟩,
          ⟨?_, ?_, ?_⟩, ?_⟩
        · exact hf.accounts.settled
        · intro l hl hmem
          exact hf.accounts.up l hl (Finset.mem_inter.mp hmem).1
        · exact hf.accounts.known
        · exact Finset.inter_subset_left
      | linkDown link => exact absurd rfl (hdown link)
      | outbound _ | outboundMulticast _ _ | inbound _ _ | linkCredit _ _ | linkWritable _
      | timer _ => exact ⟨hf.guarded, hf.accounts, Finset.Subset.refl _⟩
    obtain ⟨hguard, haccounts, hsub⟩ := hprep
    obtain ⟨hf1, hout, hdown1⟩ := handle_sound hguard haccounts hf.holds hgrants hpackets h1
    obtain ⟨hf2, hrest, hdown2⟩ := ih (fun x hx => hevents x (List.mem_cons_of_mem _ hx)) hf1 h2
    rw [sentOn_append, charges_append, ← List.append_assoc]
    refine ⟨hf2, ?_, hdown2.trans (hdown1 ▸ hsub)⟩
    intro x hx
    exact (List.mem_append.mp hx).elim (hout x) (hrest x)

end Forwarder
end Forward
end MeshBus
