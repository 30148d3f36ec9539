import MeshBus.Forward.Handle

/-!
# Forward.Total

A forwarder never panics and its loops end: the scheduler's round-robin index stays in range, a
part of an accepted destination list is accepted, ttl 0 is refused before the decrement, and a free
generation exists as long as fewer than `2 ^ 64` batches are parked.
-/

namespace MeshBus
namespace Forward

open Wire
open Control (RouteTable)

namespace Forwarder

/-- The round-robin index of every link is in range. -/
def DrrReady (f : Forwarder) : Prop :=
  ∀ (l : LinkId) state, f.links[l]? = some state → state.nextDrr < 3

theorem DrrReady.linkState {f : Forwarder} (h : f.DrrReady) (link : LinkId) :
    (f.linkState link).nextDrr < 3 := by
  rw [Forwarder.linkState]
  cases hstate : f.links[link]? with
  | none => exact (by decide : (0 : Nat) < 3)
  | some state => exact h link state hstate

theorem DrrReady.insert {f : Forwarder} (h : f.DrrReady) (link : LinkId) {state : LinkQueues}
    (hstate : state.nextDrr < 3) (log : List Replacement) :
    DrrReady { f with links := f.links.insert link state, conflated := log } := by
  intro l s hs
  rw [OrdMap.get_insert] at hs
  split at hs
  · cases hs
    exact hstate
  · exact h l s hs

theorem trySendOne_ends {f : Forwarder} (h : f.DrrReady) (link : LinkId) :
    Ends (f.trySendOne link) fun r => r.1.DrrReady := by
  simp only [trySendOne]
  split
  · exact .pure h
  · rename_i state hstate
    obtain ⟨⟨state', sent⟩, heq, hlt⟩ := LinkQueues.trySendOne_total (h link state hstate)
    rw [heq]
    exact .pure (h.insert link hlt f.conflated)

theorem conflate_nextDrr {state state' : LinkQueues} {queued old : QueuedPacket}
    (h : state.conflate queued = some (state', old)) : state'.nextDrr = state.nextDrr := by
  simp only [LinkQueues.conflate] at h
  split at h
  · cases h
  · split at h
    · cases h
    · cases h
      rfl

theorem enqueue_ends {f : Forwarder} (h : f.DrrReady) (link : LinkId) (packet : ForwardPacket)
    (incoming : Option LinkId) :
    Ends (f.enqueue link packet incoming) fun r => r.1.DrrReady := by
  simp only [enqueue]
  split
  · exact .pure h
  · split
    · rename_i state' old hconf
      refine trySendOne_ends (h.insert link ?_ _) link
      rw [conflate_nextDrr hconf]
      exact h.linkState link
    · split
      · exact .pure (h.insert link (h.linkState link) f.conflated)
      · have hpush : ((f.linkState link).pushBack ⟨incoming, packet⟩).nextDrr < 3 :=
          h.linkState link
        exact trySendOne_ends (h.insert link hpush f.conflated) link

theorem enqueueAll_ends {f : Forwarder} (h : f.DrrReady) (incoming : Option LinkId)
    (bs : List (LinkId × ForwardPacket)) :
    Ends (f.enqueueAll incoming bs) fun r => r.1.DrrReady :=
  emitAll_ends (P := DrrReady) (fun _ b hr => enqueue_ends hr b.1 b.2 incoming) bs h

theorem processPacket_ends {f : Forwarder} (h : f.DrrReady) (incoming : Option LinkId)
    (packet : ForwardPacket) : Ends (f.processPacket incoming packet) fun r => r.1.DrrReady := by
  by_cases hrefused : packet.header.ttl = 0 ∨ accepted packet = none
  · obtain ⟨reason, -, heq⟩ := processPacket_refused f incoming hrefused
    rw [heq]
    exact .pure h
  · rw [not_or] at hrefused
    obtain ⟨ds, hds⟩ := Option.ne_none_iff_exists'.mp hrefused.2
    obtain ⟨r, hr, hready⟩ := enqueueAll_ends h incoming
      (branches (f.fate incoming) packet ds (packet.header.ttl - 1))
    rw [processPacket_eq hrefused.1 hds, hr]
    exact .pure hready

theorem rerouteQueued_ends {f : Forwarder} (h : f.DrrReady) (queued : QueuedPacket) :
    Ends (f.rerouteQueued queued) fun r => r.1.DrrReady := by
  cases hds : accepted queued.packet with
  | none =>
    obtain ⟨reason, -, heq⟩ := rerouteQueued_refused f hds
    rw [heq]
    exact .pure h
  | some ds =>
    obtain ⟨r, hr, hready⟩ := enqueueAll_ends h queued.incoming
      (branches (f.rerouteFate queued.incoming) queued.packet ds queued.packet.header.ttl)
    rw [rerouteQueued_eq hds, hr]
    exact .pure hready

theorem rerouteBatch_ends : ∀ (packets : List QueuedPacket) {f : Forwarder}, f.DrrReady →
    Ends (f.rerouteBatch packets) fun r => r.1.DrrReady := by
  intro packets
  induction packets with
  | nil => exact fun h => .pure h
  | cons queued packets ih =>
    intro f h
    rw [rerouteBatch]
    refine (rerouteQueued_ends h queued).bind fun r hr => ?_
    exact (ih hr).bind fun r' hr' => .pure hr'

theorem rerouteOrDrop_ends {f : Forwarder} (h : f.DrrReady) (queued : QueuedPacket) :
    Ends (f.rerouteOrDrop queued) fun r => r.1.DrrReady := by
  rw [rerouteOrDrop]
  exact (rerouteQueued_ends h queued).bind fun r hr => .pure hr

/-! ## A free generation -/

theorem freeGeneration_none {pending : OrdMap Nat PendingP0Batch} : ∀ {fuel generation : Nat},
    generation < 2 ^ 64 → freeGeneration pending fuel generation = none →
    ∀ i < fuel, (generation + i) % 2 ^ 64 ∈ pending := by
  intro fuel
  induction fuel with
  | zero =>
    intro generation _ _ i hi
    omega
  | succ fuel ih =>
    intro generation hlt h i hi
    simp only [freeGeneration] at h
    split at h
    · rename_i htaken
      cases i with
      | zero =>
        rw [Nat.add_zero, Nat.mod_eq_of_lt hlt]
        exact Std.ExtTreeMap.mem_iff_contains.mpr htaken
      | succ i =>
        have hmem := ih (Nat.mod_lt _ (by decide)) h i (by omega)
        rw [Nat.mod_add_mod] at hmem
        rwa [show generation + (i + 1) = generation + 1 + i by omega]
    · cases h

/-- `size + 1` generations in a row cannot all be taken. -/
theorem freeGeneration_ends {pending : OrdMap Nat PendingP0Batch} {generation : Nat}
    (hlt : generation < 2 ^ 64) (hsize : pending.size < 2 ^ 64) :
    ∃ g, freeGeneration pending (pending.size + 1) generation = some g := by
  rw [← Option.ne_none_iff_exists']
  intro hnone
  have htaken := freeGeneration_none hlt hnone
  have hcard : (Finset.range (pending.size + 1)).card ≤ pending.keys.toFinset.card := by
    refine Finset.card_le_card_of_injOn (fun i => (generation + i) % 2 ^ 64) ?_ ?_
    · intro i hi
      rw [Finset.mem_coe, List.mem_toFinset, Std.ExtTreeMap.mem_keys]
      exact htaken i (Finset.mem_range.mp hi)
    · intro i hi j hj heq
      have hi := Finset.mem_range.mp hi
      have hj := Finset.mem_range.mp hj
      simp only at heq
      omega
  rw [Finset.card_range, OrdMap.card_keys] at hcard
  omega

/-! ## Events -/

/-- What lets every event be handled, with at most `n` batches parked. -/
structure Ready (f : Forwarder) (n : Nat) : Prop where
  drr : f.DrrReady
  generation : f.nextPendingGeneration < 2 ^ 64
  parked : f.pendingP0.size ≤ n

theorem Ready.of_keeps {f f' : Forwarder} {n : Nat} (h : f.Ready n) (hdrr : f'.DrrReady)
    (hk : Keeps f f') : f'.Ready (n + 1) := by
  refine ⟨hdrr, ?_, ?_⟩
  · rw [hk.nextPendingGeneration]
    exact h.generation
  · rw [hk.pendingP0]
    exact Nat.le_succ_of_le h.parked

/-- A generation is free for the batch that an event parks. -/
def HasGeneration (f : Forwarder) (event : ForwardEvent) : Prop :=
  ∀ link, event = .linkDown link → f.queue link .p0 ≠ [] →
    ∃ g, freeGeneration f.pendingP0 (f.pendingP0.size + 1) f.nextPendingGeneration = some g

theorem Ready.hasGeneration {f : Forwarder} {n : Nat} (h : f.Ready n) (hn : n < 2 ^ 64)
    (event : ForwardEvent) : f.HasGeneration event :=
  fun _ _ _ => freeGeneration_ends h.generation (h.parked.trans_lt hn)

theorem parkP0_ends {f : Forwarder} {n : Nat} (h : f.Ready n) (now : MonoTime)
    {p0 : List QueuedPacket} (hfree : p0 ≠ [] →
      ∃ g, freeGeneration f.pendingP0 (f.pendingP0.size + 1) f.nextPendingGeneration = some g) :
    Ends (f.parkP0 now p0) fun r => r.1.Ready (n + 1) := by
  rw [parkP0]
  split
  · exact .pure ⟨h.drr, h.generation, Nat.le_succ_of_le h.parked⟩
  · rename_i hne
    obtain ⟨g, hg⟩ := hfree (by simpa using hne)
    rw [hg]
    refine .pure ⟨h.drr, Nat.mod_lt _ (by decide), ?_⟩
    exact Std.ExtTreeMap.size_insert_le.trans (Nat.succ_le_succ h.parked)

theorem handleLinkDown_ends {f : Forwarder} {n : Nat} (h : f.Ready n) (now : MonoTime)
    {link : LinkId} (hfree : f.HasGeneration (.linkDown link)) :
    Ends (f.handleLinkDown now link) fun r => r.1.Ready (n + 1) := by
  simp only [handleLinkDown]
  split
  · exact .pure ⟨h.drr, h.generation, Nat.le_succ_of_le h.parked⟩
  · rename_i failed hfailed
    have hqueue : f.queue link .p0 = failed.queues .p0 := by
      rw [queue, Forwarder.linkState, hfailed]
      rfl
    have herase : Ready { f with
        downLinks := insert link f.downLinks, links := f.links.erase link } n := by
      refine ⟨fun l state hl => ?_, h.generation, h.parked⟩
      rw [OrdMap.get_erase] at hl
      split at hl
      · cases hl
      · exact h.drr l state hl
    refine (parkP0_ends herase now fun hne => hfree link rfl (hqueue ▸ hne)).bind fun r hr => ?_
    obtain ⟨⟨f2, rerouted⟩, heq, hdrr⟩ :=
      emitAll_ends (P := DrrReady) (fun _ q hr => rerouteOrDrop_ends hr q)
        (failed.queues .p2) hr.drr
    have hkeeps := (rerouteOrDrop_all heq).moves.keeps
    rw [heq]
    refine .pure ⟨hdrr, ?_, ?_⟩
    · rw [hkeeps.nextPendingGeneration]
      exact hr.generation
    · rw [hkeeps.pendingP0]
      exact hr.parked

theorem retryBatch_ends {f : Forwarder} {now : MonoTime} (h : f.DrrReady)
    (hg : f.nextPendingGeneration < 2 ^ 64) (entry : Nat × PendingP0Batch) :
    Ends (retryBatch now f entry) fun r =>
      r.1.DrrReady ∧ r.1.nextPendingGeneration < 2 ^ 64 := by
  simp only [retryBatch]
  split
  · exact .pure ⟨h, hg⟩
  · obtain ⟨⟨f1, actions, remaining⟩, heq, hdrr⟩ := rerouteBatch_ends entry.2.packets h
    have hgen : f1.nextPendingGeneration < 2 ^ 64 := by
      rw [(rerouteBatch_spec heq).moves.keeps.nextPendingGeneration]
      exact hg
    simp only [heq, bind, Option.bind_some]
    split
    · exact .pure ⟨hdrr, hgen⟩
    · exact .pure ⟨hdrr, hgen⟩

theorem handleRoutesUpdated_ends {f : Forwarder} {n : Nat} (h : f.Ready n) (now : MonoTime)
    (routes : RouteTable) :
    Ends (f.handleRoutesUpdated now routes) fun r => r.1.Ready (n + 1) := by
  obtain ⟨⟨f', acts⟩, heq, hdrr, hgen⟩ : Ends (f.handleRoutesUpdated now routes) fun r =>
      r.1.DrrReady ∧ r.1.nextPendingGeneration < 2 ^ 64 := by
    simp only [handleRoutesUpdated, retryPendingP0]
    exact emitAll_ends (P := fun f : Forwarder => f.DrrReady ∧ f.nextPendingGeneration < 2 ^ 64)
      (fun _ e hr => retryBatch_ends hr.1 hr.2 e) _ ⟨h.drr, h.generation⟩
  refine ⟨(f', acts), heq, hdrr, hgen, ?_⟩
  -- Batches are only taken out.
  obtain ⟨f1, hr, -, -, hempty, -, -⟩ := handleRoutesUpdated_spec heq
  have hkeys : ∀ g, g ∈ f'.pendingP0 → g ∈ f.pendingP0 := by
    intro g hg
    obtain ⟨batch, hbatch⟩ := OrdMap.mem_iff_get.mp hg
    rcases hr.pending g batch hbatch with hold | ⟨old, hold, -⟩
    · rw [hempty] at hold
      simp at hold
    · exact OrdMap.mem_iff_get.mpr ⟨old, OrdMap.mem_toList.mp hold⟩
  exact (OrdMap.size_le_of_keys hkeys).trans (Nat.le_succ_of_le h.parked)

theorem handle_ends {f : Forwarder} {n : Nat} (h : f.Ready n) (now : MonoTime)
    {event : ForwardEvent} (hfree : f.HasGeneration event) :
    Ends (f.handle now event) fun r => r.1.Ready (n + 1) := by
  have harrive : ∀ incoming packet,
      Ends (f.processPacket incoming packet) fun r => r.1.Ready (n + 1) := by
    intro incoming packet
    obtain ⟨⟨f', acts⟩, heq, hdrr⟩ := processPacket_ends h.drr incoming packet
    exact ⟨_, heq, h.of_keeps hdrr (processPacket_moves heq).keeps⟩
  have hset : ∀ link (state : LinkQueues), state.nextDrr < 3 →
      Ends (trySendOne { f with links := f.links.insert link state } link) fun r =>
        r.1.Ready (n + 1) := by
    intro link state hstate
    obtain ⟨⟨f', acts⟩, heq, hdrr⟩ := trySendOne_ends (h.drr.insert link hstate f.conflated) link
    refine ⟨_, heq, h.of_keeps hdrr ?_⟩
    have hk := (trySendOne_tried heq).keeps
    exact ⟨hk.me, hk.routes, hk.downLinks, hk.pendingP0, hk.nextPendingGeneration⟩
  have hself : f.Ready (n + 1) := h.of_keeps h.drr (.refl f)
  cases event with
  | outbound packet => exact harrive none packet
  | inbound link packet => exact harrive (some link) packet
  | outboundMulticast ds packet =>
    rw [handle]
    rcases f.processOutboundMulticast_cases ds packet with ⟨error, -, heq⟩ | ⟨m, -, heq⟩
    · rw [heq]
      exact .pure hself
    · rw [heq]
      exact harrive none _
  | routesUpdated routes => exact handleRoutesUpdated_ends h now routes
  | linkCredit link bytes =>
    simp only [handle, grantCredit]
    split
    · exact .pure hself
    · exact hset link _ (h.drr.linkState link)
  | linkWritable link =>
    simp only [handle, markWritable]
    split
    · exact .pure hself
    · exact hset link _ (h.drr.linkState link)
  | linkDown link => exact handleLinkDown_ends h now hfree
  | timer t =>
    obtain ⟨g⟩ := t
    rw [handle]
    rcases f.handleTimer_cases now g with ⟨acts, heq, -⟩ | ⟨batch, -, -, heq⟩
    · rw [heq]
      exact .pure hself
    · rw [heq]
      refine .pure ⟨h.drr, h.generation, ?_⟩
      exact (Std.ExtTreeMap.size_erase_le).trans (Nat.le_succ_of_le h.parked)

theorem run_ends : ∀ {events : List (MonoTime × ForwardEvent)} {f : Forwarder} {n : Nat},
    f.Ready n → n + events.length ≤ 2 ^ 64 → (f.run events).isSome := by
  intro events
  induction events with
  | nil => intro f n _ _; rfl
  | cons e events ih =>
    intro f n h hn
    rw [List.length_cons] at hn
    obtain ⟨⟨f1, out⟩, heq, h1⟩ := handle_ends h e.1 (h.hasGeneration (by omega) e.2)
    have hrest := ih h1 (by omega)
    obtain ⟨⟨f2, rest⟩, hr⟩ := Option.isSome_iff_exists.mp hrest
    rw [run, emitAll_cons_some heq hr]
    rfl

theorem ready_new (me : NodeId) (routes : RouteTable) : (new me routes).Ready 0 :=
  ⟨by intro l state h; simp [new] at h, by simp [new], by simp [new]⟩

end Forwarder
end Forward
end MeshBus
