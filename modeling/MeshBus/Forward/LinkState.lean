import MeshBus.Forward.Conservation
import MeshBus.Forward.Credit
import MeshBus.Forward.LinkOps

/-!
# Forward.LinkState

The state of a link in every run.

* `handle_link_inv`: what every operation of the machine of a link keeps, the events of the
  forwarder keep.
* `queues_represented`: each queue holds only packets of its class, within its limit, at most one
  for a conflation key, and the byte counter is the sum of their lengths.
-/

namespace MeshBus
namespace Forward

open Wire
open Control (RouteTable)

variable {f f' : Forwarder} {now : MonoTime} {event : ForwardEvent} {acts : List ForwardAction}

/-- The bytes a queue holds. -/
def queueLen (queue : List QueuedPacket) : Nat := (queue.map fun q => q.packet.encodedLen).sum

/-- The conflation keys of a queue. -/
def keysOf (queue : List QueuedPacket) : List ConflationKey :=
  queue.filterMap fun q => ConflationKey.fromPacket q.packet

@[simp] theorem queueLen_nil : queueLen [] = 0 := rfl

@[simp] theorem queueLen_cons (q : QueuedPacket) (queue : List QueuedPacket) :
    queueLen (q :: queue) = q.packet.encodedLen + queueLen queue := by
  simp [queueLen]

@[simp] theorem queueLen_append (a b : List QueuedPacket) :
    queueLen (a ++ b) = queueLen a + queueLen b := by
  simp [queueLen]

theorem queueLen_le {queue : List QueuedPacket}
    (h : ∀ q ∈ queue, q.packet.encodedLen ≤ maxPayloadLen) :
    queueLen queue ≤ queue.length * maxPayloadLen := by
  induction queue with
  | nil => simp
  | cons q queue ih =>
    have hq := h q List.mem_cons_self
    have hrest := ih fun x hx => h x (List.mem_cons_of_mem _ hx)
    rw [queueLen_cons, List.length_cons, Nat.succ_mul]
    omega

/-! ## One queue -/

/-- What one queue and its byte counter satisfy. -/
structure QueueOk (priority : Priority) (queue : List QueuedPacket) (bytes : Nat) : Prop where
  classed : ∀ q ∈ queue, q.packet.header.priority = priority
  room : queue.length ≤ queueLimitPackets priority
  short : ∀ q ∈ queue, q.packet.encodedLen ≤ maxPayloadLen
  bytes : bytes = queueLen queue
  keys : (keysOf queue).Nodup

namespace QueueOk

variable {priority : Priority} {queue : List QueuedPacket} {bytes : Nat}

/-- One more packet than the limit allows still fits the counter. -/
theorem bytes_le (h : QueueOk priority queue bytes) : bytes + maxPayloadLen ≤ u64Max := by
  have hlen := queueLen_le h.short
  have hlimit : queueLimitPackets priority ≤ 4096 := by cases priority <;> decide
  have hmul : queue.length * maxPayloadLen ≤ 4096 * maxPayloadLen :=
    Nat.mul_le_mul_right _ (h.room.trans hlimit)
  have hmax : 4096 * maxPayloadLen + maxPayloadLen ≤ u64Max := by decide
  rw [h.bytes]
  omega

theorem push (h : QueueOk priority queue bytes) {q : QueuedPacket}
    (hclass : q.packet.header.priority = priority)
    (hroom : queue.length < queueLimitPackets priority)
    (hshort : q.packet.encodedLen ≤ maxPayloadLen)
    (hkey : ∀ key, ConflationKey.fromPacket q.packet = some key → key ∉ keysOf queue) :
    QueueOk priority (queue ++ [q]) (satAdd bytes q.packet.encodedLen) := by
  refine ⟨?_, ?_, ?_, ?_, ?_⟩
  · exact List.forall_mem_append.mpr ⟨h.classed, by simpa using hclass⟩
  · rw [List.length_append]
    exact hroom
  · exact List.forall_mem_append.mpr ⟨h.short, by simpa using hshort⟩
  · have hle := h.bytes_le
    rw [satAdd_eq (by omega), h.bytes]
    simp
  · cases hk : ConflationKey.fromPacket q.packet with
    | none => simpa [keysOf, hk] using h.keys
    | some key =>
      have hnew : keysOf (queue ++ [q]) = keysOf queue ++ [key] := by simp [keysOf, hk]
      rw [hnew, List.nodup_append]
      exact ⟨h.keys, List.nodup_singleton _, fun a ha b hb =>
        fun heq => hkey key hk (List.mem_singleton.mp hb ▸ heq ▸ ha)⟩

theorem replace {pre post : List QueuedPacket} {old q : QueuedPacket}
    (h : QueueOk priority (pre ++ old :: post) bytes) (hclass : q.packet.header.priority = priority)
    (hshort : q.packet.encodedLen ≤ maxPayloadLen)
    (hkey : ConflationKey.fromPacket old.packet = ConflationKey.fromPacket q.packet) :
    QueueOk priority (pre ++ q :: post)
      (satAdd (bytes - old.packet.encodedLen) q.packet.encodedLen) := by
  have hmem : ∀ {P : QueuedPacket → Prop}, (∀ x ∈ pre ++ old :: post, P x) → P q →
      ∀ x ∈ pre ++ q :: post, P x := by
    intro P hall hq x hx
    rcases List.mem_append.mp hx with hx | hx
    · exact hall x (List.mem_append_left _ hx)
    · rcases List.mem_cons.mp hx with rfl | hx
      · exact hq
      · exact hall x (List.mem_append_right _ (List.mem_cons_of_mem _ hx))
  refine ⟨hmem h.classed hclass, by simpa using h.room, hmem h.short hshort, ?_, ?_⟩
  · have hle := h.bytes_le
    have hbytes := h.bytes
    rw [queueLen_append, queueLen_cons] at hbytes
    rw [satAdd_eq (by omega), queueLen_append, queueLen_cons]
    omega
  · have hsame : keysOf (pre ++ q :: post) = keysOf (pre ++ old :: post) := by
      simp [keysOf, List.filterMap_cons, hkey]
    rw [hsame]
    exact h.keys

theorem pop {q : QueuedPacket} (h : QueueOk priority (q :: queue) bytes) :
    QueueOk priority queue (bytes - q.packet.encodedLen) := by
  refine ⟨fun x hx => h.classed x (List.mem_cons_of_mem _ hx), ?_,
    fun x hx => h.short x (List.mem_cons_of_mem _ hx), ?_, ?_⟩
  · exact (Nat.le_succ _).trans h.room
  · rw [h.bytes, queueLen_cons]
    omega
  · exact h.keys.sublist ((List.sublist_cons_self q queue).filterMap _)

end QueueOk

namespace LinkQueues

/-! ## The four queues of a link -/

def Represented (state : LinkQueues) : Prop :=
  ∀ priority, QueueOk priority (state.queues priority) (state.queuedBytes priority)

theorem represented_default : (default : LinkQueues).Represented :=
  fun _ => ⟨by simp [default], Nat.zero_le _, by simp [default], rfl, List.nodup_nil⟩

/-- One queue changes. -/
theorem Represented.update {state state' : LinkQueues} (h : state.Represented)
    {priority : Priority} {queue : List QueuedPacket} {bytes : Nat}
    (hq : QueueOk priority queue bytes)
    (hqueues : state'.queues = Function.update state.queues priority queue)
    (hbytes : state'.queuedBytes = Function.update state.queuedBytes priority bytes) :
    state'.Represented := by
  intro p
  rw [hqueues, hbytes]
  by_cases hp : p = priority
  · subst hp
    rwa [Function.update_self, Function.update_self]
  · rw [Function.update_of_ne hp, Function.update_of_ne hp]
    exact h p

/-- An operation brings only packets that fit a frame. -/
def ShortOp : LinkOp → Prop
  | .enqueue queued => queued.packet.encodedLen ≤ maxPayloadLen
  | _ => True

theorem key_not_mem_of_victim {state : LinkQueues} {packet : ForwardPacket} {key : ConflationKey}
    (h : state.victim packet = none) (hkey : ConflationKey.fromPacket packet = some key) :
    key ∉ keysOf (state.queues packet.header.priority) := by
  rw [victim, hkey, Option.bind_some, List.find?_eq_none] at h
  intro hmem
  obtain ⟨q, hq, hk⟩ := List.mem_filterMap.mp hmem
  exact h q hq (by simpa using hk)

theorem exists_split_of_get {α : Type} {l : List α} {k : Nat} {x : α} (h : l[k]? = some x) :
    ∃ pre post, l = pre ++ x :: post ∧ ∀ y, l.set k y = pre ++ y :: post := by
  obtain ⟨hk, hx⟩ := List.getElem?_eq_some_iff.mp h
  refine ⟨l.take k, l.drop (k + 1), ?_, fun y => ?_⟩
  · rw [← hx, List.cons_getElem_drop_succ, List.take_append_drop]
  · exact List.set_eq_take_append_cons_drop.trans (if_pos hk)

theorem Represented.store {state : LinkQueues} (h : state.Represented) {op : LinkOp}
    (hshort : ShortOp op) (hroom : state.refuses op = false) :
    (state.store op).1.Represented := by
  cases op with
  | credit bytes => exact h
  | writable => exact h
  | enqueue queued =>
    have hstores := state.store_stores queued
    generalize state.store (.enqueue queued) = r at hstores ⊢
    cases hstores with
    | append victim =>
      have hlen : (state.queues queued.packet.header.priority).length <
          queueLimitPackets queued.packet.header.priority := by
        simpa [refuses, conflate_none.mpr victim] using hroom
      exact h.update ((h _).push rfl hlen hshort fun key hkey =>
        key_not_mem_of_victim victim hkey) rfl rfl
    | replace old key same found =>
      obtain ⟨pre, post, hqueue, hset⟩ := exists_split_of_get found
      have hok := h queued.packet.header.priority
      rw [hqueue] at hok
      refine h.update (hok.replace rfl hshort same) ?_ rfl
      rw [← hset queued]

theorem Represented.took {state state' : LinkQueues} {sent : Option QueuedPacket}
    (h : state.Represented) (ht : Took state state' sent) : state'.Represented := by
  cases ht with
  | nothing queues bytes credit writable why =>
    intro p
    rw [queues, bytes]
    exact h p
  | head priority queued rest permit strict front fits queues bytes credit writable =>
    have hok := h priority
    rw [front] at hok
    exact h.update hok.pop queues bytes

theorem Represented.apply {state state' : LinkQueues} {op : LinkOp} {log : List LinkAct}
    (h : state.Represented) (hshort : ShortOp op) (happly : state.apply op = some (state', log)) :
    state'.Represented := by
  cases apply_applied happly with
  | refused href => exact h
  | tried sent href tries => exact (h.store hshort href).took tries.took

end LinkQueues

namespace Forwarder

/-! ## Links that have a state -/

/-- A failed link has no state. -/
def UpLinks (f : Forwarder) : Prop := ∀ l, l ∈ f.links → l ∉ f.downLinks

theorem trySendOne_keys {link : LinkId} (h : f.trySendOne link = some (f', acts)) (l : LinkId) :
    l ∈ f'.links ↔ l ∈ f.links := by
  cases hstate : f.links[link]? with
  | none =>
    simp only [trySendOne, hstate] at h
    cases h
    rfl
  | some state =>
    obtain ⟨state', sent, -, rfl, -⟩ := trySendOne_link state hstate h
    rw [OrdMap.mem_insert]
    refine ⟨fun hl => hl.elim (fun heq => ?_) id, .inr⟩
    exact OrdMap.mem_iff_get.mpr ⟨state, heq ▸ hstate⟩

theorem enqueue_keys {link : LinkId} {packet : ForwardPacket} {incoming : Option LinkId}
    (h : f.enqueue link packet incoming = some (f', acts)) (l : LinkId) :
    l ∈ f'.links → l = link ∨ l ∈ f.links := by
  simp only [enqueue] at h
  split at h
  · cases h
    exact .inr
  · have hinsert : ∀ {state : LinkQueues}, l ∈ f.links.insert link state → l = link ∨ l ∈ f.links :=
      fun hl => ((OrdMap.mem_insert _ _ _ _).mp hl).imp_left Eq.symm
    split at h
    · intro hl
      exact hinsert ((trySendOne_keys h l).mp hl)
    · split at h
      · cases h
        exact hinsert
      · intro hl
        exact hinsert ((trySendOne_keys h l).mp hl)

theorem Enqueues.upLinks {P : ForwardPacket → Prop} {sent : List (LinkId × ForwardPacket)}
    (h : Enqueues P f sent f') (hf : f.UpLinks) : f'.UpLinks := by
  induction h with
  | refl => exact hf
  | park links routes downLinks parks _ ih =>
    refine ih fun l hl => ?_
    rw [downLinks]
    exact hf l (links ▸ hl)
  | enqueue offered ok h _ ih =>
    refine ih fun l hl => ?_
    rw [(enqueue_spec h).keeps.downLinks]
    rcases enqueue_keys h l hl with rfl | hl
    · exact offered.1
    · exact hf l hl

theorem UpLinks.prepared {f : Forwarder} (hf : f.UpLinks) (event : ForwardEvent) :
    (f.prepared event).UpLinks := by
  cases event with
  | linkDown link =>
    intro l hl
    obtain ⟨hne, hl⟩ := (OrdMap.mem_erase _ _ _).mp hl
    simp only [Forwarder.prepared, Finset.mem_insert, not_or]
    exact ⟨Ne.symm hne, hf l hl⟩
  | routesUpdated routes =>
    exact fun l hl hdown => hf l hl (Finset.mem_inter.mp hdown).1
  | outbound _ | outboundMulticast _ _ | inbound _ _ | linkCredit _ _ | linkWritable _
  | timer _ => exact hf

/-- Every packet is as good as any other. -/
theorem handle_calls (hgrants : grants event = false) (h : f.handle now event = some (f', acts)) :
    Enqueues (fun _ => True) (f.prepared event) (sentOn acts) f' :=
  handle_enqueues (fun _ _ _ _ _ _ _ _ => trivial)
    ⟨fun _ _ _ _ => trivial, fun _ _ _ _ _ => trivial⟩ (fun _ _ _ _ _ _ _ _ _ => trivial) hgrants h

theorem setLink_upLinks (hf : f.UpLinks) {link : LinkId} {state : LinkQueues}
    (hup : link ∉ f.downLinks)
    (h : trySendOne { f with links := f.links.insert link state } link = some (f', acts)) :
    f'.UpLinks := by
  intro l hl
  rw [(trySendOne_tried h).keeps.downLinks]
  rcases (OrdMap.mem_insert _ _ _ _).mp ((trySendOne_keys h l).mp hl) with rfl | hl
  · exact hup
  · exact hf l hl

theorem UpLinks.handle (hf : f.UpLinks) (h : f.handle now event = some (f', acts)) :
    f'.UpLinks := by
  cases hgrants : grants event with
  | false => exact (handle_calls hgrants h).upLinks (hf.prepared event)
  | true =>
    obtain ⟨link, hgranted⟩ := handle_granted hgrants h
    cases hgranted with
    | down => exact hf
    | up hup htry _ => exact setLink_upLinks hf hup htry

theorem run_upLinks {me : NodeId} {routes : RouteTable} {events : List (MonoTime × ForwardEvent)}
    {f : Forwarder} (h : (new me routes).run events = some (f, acts)) : f.UpLinks :=
  emitAll_inv (fun _ _ _ _ hs hstep => hs.handle hstep)
    (by intro l hl; simp [new] at hl) h

/-! ## From one link to the forwarder -/

theorem prepared_linkState_cases (f : Forwarder) (event : ForwardEvent) (l : LinkId) :
    (f.prepared event).linkState l = f.linkState l ∨ (f.prepared event).linkState l = default := by
  cases event with
  | linkDown link =>
    simp only [Forwarder.prepared, linkState, OrdMap.get_erase]
    split
    · exact .inr rfl
    · exact .inl rfl
  | routesUpdated _ | outbound _ | outboundMulticast _ _ | inbound _ _ | linkCredit _ _
  | linkWritable _ | timer _ => exact .inl rfl

/-- What every operation of a link keeps, an event keeps. -/
theorem handle_link_inv {Q : LinkQueues → Prop} {R : LinkOp → Prop} (hdefault : Q default)
    (hstep : ∀ state op state' log, Q state → R op → state.apply op = some (state', log) → Q state')
    {l : LinkId} (hops : ∀ op ∈ f.ops now l event, R op) (hf : Q (f.linkState l))
    (h : f.handle now event = some (f', acts)) : Q (f'.linkState l) := by
  obtain ⟨log, hrun, -⟩ := handle_link h l
  have hstart : Q ((f.prepared event).linkState l) := by
    rcases f.prepared_linkState_cases event l with heq | heq
    · rw [heq]
      exact hf
    · rw [heq]
      exact hdefault
  exact (emitAll_out (Q := fun _ => True)
    (fun _ _ _ _ hs hop happly => ⟨hstep _ _ _ _ hs hop happly, fun _ _ => trivial⟩)
    hops hstart hrun).1

/-- What the copies of all packets inherit, the packets of all `enqueue` calls have. -/
theorem calls_hold {P : ForwardPacket → Prop} (hP : Inherited P) {f : Forwarder} (hf : Holds P f)
    (hevent : ∀ incoming packet, processed event = some (incoming, packet) → Copied P packet) :
    ∀ c ∈ f.calls now event, P c.2.packet := by
  have hbranch : ∀ {fates : NodeId → Fate} {packet : ForwardPacket} {ds : List NodeId} {ttl : UInt8}
      {incoming : Option LinkId}, Copied P packet → accepted packet = some ds →
      ∀ c ∈ (branches fates packet ds ttl).map fun b => (b.1, (⟨incoming, b.2⟩ : QueuedPacket)),
        P c.2.packet := by
    intro fates packet ds ttl incoming hpacket hds c hc
    obtain ⟨⟨link, copy⟩, hb, rfl⟩ := List.mem_map.mp hc
    obtain ⟨hne, rfl⟩ := mem_branches.mp hb
    exact hpacket ds _ ttl hds (Split.group_sublist ds _) hne
  have hreroute : ∀ (g : Forwarder) (q : QueuedPacket), P q.packet →
      ∀ c ∈ g.rerouteCalls q, P c.2.packet := by
    intro g q hq c hc
    cases hds : accepted q.packet with
    | none => simp [rerouteCalls, hds] at hc
    | some ds =>
      rw [rerouteCalls_some hds] at hc
      exact hbranch (hP.copied hq) hds c hc
  have harrive : ∀ incoming packet, processed event = some (incoming, packet) →
      ∀ c ∈ f.arrivalCalls incoming packet, P c.2.packet := by
    intro incoming packet hp c hc
    simp only [arrivalCalls] at hc
    split at hc
    · simp at hc
    · split at hc
      · simp at hc
      · rename_i ds hds
        exact hbranch (hevent incoming packet hp) hds c hc
  cases event with
  | linkDown link =>
    intro c hc
    obtain ⟨q, hq, hc⟩ := List.mem_flatMap.mp hc
    exact hreroute _ q (hf.queues link .p2 q hq) c hc
  | routesUpdated routes =>
    intro c hc
    obtain ⟨q, hq, hc⟩ := List.mem_flatMap.mp hc
    obtain ⟨⟨g, batch⟩, hbatch, hq⟩ := List.mem_flatMap.mp hq
    have hget := OrdMap.mem_toList.mp (List.mem_filter.mp hbatch).1
    exact hreroute _ q (hf.parked g batch hget q hq) c hc
  | outbound _ | outboundMulticast _ _ | inbound _ _ | linkCredit _ _ | linkWritable _
  | timer _ =>
    intro c hc
    simp only [calls] at hc
    split at hc
    · cases hc
    · rename_i incoming packet hp
      exact harrive incoming packet hp c hc

theorem ops_short {P : ForwardPacket → Prop}
    (hP : ∀ packet, P packet → packet.encodedLen ≤ maxPayloadLen) {f : Forwarder}
    (hcalls : ∀ c ∈ f.calls now event, P c.2.packet) (l : LinkId) :
    ∀ op ∈ f.ops now l event, LinkQueues.ShortOp op := by
  intro op hop
  rcases mem_ops hop with ⟨c, hc, rfl⟩ | ⟨bytes, -, rfl⟩ | ⟨-, rfl⟩
  · exact hP _ (hcalls c hc)
  · trivial
  · trivial

/-! ## Packets that fit a frame -/

/-- The packet an event brings. -/
def fed : ForwardEvent → Option ForwardPacket
  | .outbound packet => some packet
  | .outboundMulticast _ packet => some packet
  | .inbound _ packet => some packet
  | _ => none

/-- The packet of an event fits a frame. -/
def ShortEvent (event : ForwardEvent) : Prop :=
  ∀ packet, fed event = some packet → packet.encodedLen ≤ maxPayloadLen

instance (event : ForwardEvent) : Decidable (ShortEvent event) :=
  decidable_of_iff ((fed event).all fun packet => packet.encodedLen ≤ maxPayloadLen) (by
    simp [ShortEvent, Option.all_eq_true])

def Short (packet : ForwardPacket) : Prop := packet.encodedLen ≤ maxPayloadLen

theorem copied_short_of_multicast {packet : ForwardPacket}
    (hm : packet.header.packetType = .multicast) : Copied Short packet :=
  fun _ _ ttl hds hsub hne => encodedLen_le_of_encodable (copyFor_encodable ttl hm hds hsub hne)

theorem inherited_short : Inherited Short := by
  intro packet ds g ttl hpacket hds hsub hne
  by_cases hm : packet.header.packetType = .multicast
  · exact copied_short_of_multicast hm ds g ttl hds hsub hne
  · simp only [copyFor, if_neg hm]
    exact hpacket

theorem ShortEvent.copied (h : ShortEvent event) :
    ∀ incoming packet, processed event = some (incoming, packet) → Copied Short packet := by
  intro incoming packet hp
  cases event with
  | outbound p =>
    cases hp
    exact inherited_short.copied (h packet rfl)
  | inbound link p =>
    cases hp
    exact inherited_short.copied (h packet rfl)
  | outboundMulticast ds p =>
    exact inherited_short.copied (encodedLen_le_of_encodable (processed_multicast_encodable hp))
  | routesUpdated _ | linkCredit _ _ | linkWritable _ | linkDown _ | timer _ => cases hp

/-- The invariant of all links, with packets that fit a frame. -/
structure Represented (f : Forwarder) : Prop where
  links : ∀ l, (f.linkState l).Represented
  held : Holds Short f

theorem Represented.new (me : NodeId) (routes : RouteTable) : (new me routes).Represented := by
  have hlink : ∀ l, (Forwarder.new me routes).linkState l = default := fun l => by
    simp [linkState, Forwarder.new]
  refine ⟨fun l => ?_, ?_, ?_⟩
  · rw [hlink]
    exact LinkQueues.represented_default
  · intro l priority q hq
    rw [queue, hlink] at hq
    cases hq
  · intro g batch hg
    simp [Forwarder.new] at hg

theorem Represented.handle (hf : f.Represented) (hshort : ShortEvent event)
    (h : f.handle now event = some (f', acts)) : f'.Represented := by
  have hcalls : ∀ c ∈ f.calls now event, Short c.2.packet :=
    calls_hold inherited_short hf.held hshort.copied
  refine ⟨fun l => ?_, (handle_holds inherited_short hf.held hshort.copied h).1⟩
  exact handle_link_inv LinkQueues.represented_default
    (fun _ _ _ _ hs hop happly => hs.apply hop happly) (ops_short (fun _ hp => hp) hcalls l)
    (hf.links l) h

theorem run_represented {me : NodeId} {routes : RouteTable}
    {events : List (MonoTime × ForwardEvent)} {f : Forwarder}
    (hshort : ∀ e ∈ events, ShortEvent e.2)
    (h : (Forwarder.new me routes).run events = some (f, acts)) : f.Represented :=
  (emitAll_out (Q := fun _ => True)
    (fun _ _ _ _ hs he hstep => ⟨hs.handle he hstep, fun _ _ => trivial⟩) hshort
    (Represented.new me routes) h).1

/-- Every link a run leaves with a state has all four queues in order, and has not failed. No
counter is near the point where it would saturate. -/
theorem queues_represented {me : NodeId} {routes : RouteTable}
    {events : List (MonoTime × ForwardEvent)} {f : Forwarder} {acts : List ForwardAction}
    (hshort : ∀ e ∈ events, ShortEvent e.2)
    (h : (Forwarder.new me routes).run events = some (f, acts)) {l : LinkId} {state : LinkQueues}
    (hstate : f.links[l]? = some state) :
    (∀ priority, QueueOk priority (state.queues priority) (state.queuedBytes priority) ∧
      (∀ q ∈ state.queues priority, q.packet.encodedLen ≤ state.queuedBytes priority) ∧
      ∀ packet : ForwardPacket, packet.encodedLen ≤ maxPayloadLen →
        satAdd (state.queuedBytes priority) packet.encodedLen =
          state.queuedBytes priority + packet.encodedLen) ∧
    l ∉ f.downLinks := by
  have hrep := (run_represented hshort h).links l
  rw [linkState_eq hstate] at hrep
  refine ⟨fun priority => ⟨hrep priority, fun q hq => ?_, fun packet hpacket => ?_⟩, ?_⟩
  · rw [(hrep priority).bytes]
    exact List.single_le_sum (by simp) _ (List.mem_map_of_mem hq)
  · have hle := (hrep priority).bytes_le
    exact satAdd_eq (by omega)
  · exact run_upLinks h l (OrdMap.mem_iff_get.mpr ⟨state, hstate⟩)

/-- A conflatable P1 packet waits on link 7. -/
theorem queues_represented_waiting : ∃ f acts state,
    (Forwarder.new (.ofByte 1) sampleRoutes).run
      [(0, .outbound (samplePacket .unicast .p1 ⟨2, by decide⟩ (.ofByte 2)))] = some (f, acts) ∧
    f.links[7]? = some state ∧ (state.queues .p1).length = 1 ∧
    QueueOk .p1 (state.queues .p1) (state.queuedBytes .p1) ∧ 7 ∉ f.downLinks := by
  have h : (((Forwarder.new (.ofByte 1) sampleRoutes).run
      [(0, .outbound (samplePacket .unicast .p1 ⟨2, by decide⟩ (.ofByte 2)))]).bind fun r =>
      (r.1.links[7]?).map fun state => decide ((state.queues .p1).length = 1)) = some true := by
    decide +kernel
  simp only [Option.bind_eq_some_iff, Option.map_eq_some_iff] at h
  obtain ⟨⟨f, acts⟩, hrun, state, hstate, hlen⟩ := h
  have hall := queues_represented (by decide +kernel) hrun hstate
  exact ⟨f, acts, state, hrun, hstate, of_decide_eq_true hlen, (hall.1 .p1).1, hall.2⟩

end Forwarder
end Forward
end MeshBus
