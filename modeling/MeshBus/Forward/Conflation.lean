import MeshBus.Forward.Conservation

/-!
# Forward.Conflation

Conflation compares the key of a packet, not its recipients: a queued P1 packet gives its place to
a newer one with the same `(source, flow_id, conflate_key)`, whoever the two are for. This module
says exactly when no recipient is lost that way (`no_silent_loss_iff`), and gives a run in which
one is.
-/

namespace MeshBus
namespace Forward

open Wire
open Control (RouteTable)

namespace Forwarder

def Reachable (f : Forwarder) : Prop :=
  ∃ me routes events acts, (new me routes).run events = some (f, acts)

theorem Reachable.classed {f : Forwarder} (h : f.Reachable) : f.Classed := by
  obtain ⟨me, routes, events, acts, hrun⟩ := h
  exact emitAll_inv (fun s e s' out hs hstep => (handle_handled hstep).classed hs)
    (classed_new me routes) hrun

/-- Every recipient of a packet replaced in this step is a recipient of its replacement, or is
named by a `Drop` or `Backpressure` of the step. -/
def NoSilentLoss (f f' : Forwarder) (acts : List ForwardAction) : Prop :=
  ∀ replacement ∈ f'.conflated.drop f.conflated.length, ∀ r ∈ recipients replacement.replaced,
    r ∈ recipients replacement.replacement ∨ ∃ p ∈ refused acts, r ∈ recipients p

instance (f f' : Forwarder) (acts : List ForwardAction) : Decidable (NoSilentLoss f f' acts) :=
  inferInstanceAs (Decidable (∀ replacement ∈ _, ∀ r ∈ _, _ ∨ ∃ p ∈ _, _))

/-- A recipient of the packet for which there is no link, or only a full queue. -/
def Dropped (f : Forwarder) (incoming : Option LinkId) (packet : ForwardPacket) (d : NodeId) :
    Prop :=
  f.fate incoming d = .noRoute ∨ f.fate incoming d = .looped ∨
    ∃ link, f.fate incoming d = .via link ∧ f.Full link packet

/-- Wherever a packet for `ds` meets a queued packet with its key, it is also for everyone that
packet was for: they have the same next hop, or are dropped with an action. -/
def Covers (f : Forwarder) (incoming : Option LinkId) (packet : ForwardPacket)
    (ds : List NodeId) : Prop :=
  ∀ link d, d ∈ ds → f.fate incoming d = .via link →
    ∀ q, (f.linkState link).victim packet = some q → ∀ r ∈ recipients q.packet,
      r ∈ ds ∧ (f.fate incoming r = .via link ∨ f.Dropped incoming packet r)

def CoversQueued (f : Forwarder) (event : ForwardEvent) : Prop :=
  ∀ incoming packet ds, processed event = some (incoming, packet) → packet.header.ttl ≠ 0 →
    accepted packet = some ds → f.Covers incoming packet ds

/-- The victim depends on the class and the key of the packet only. -/
theorem victim_copyFor (state : LinkQueues) (packet : ForwardPacket) (g : List NodeId)
    (ttl : UInt8) : state.victim (copyFor packet g ttl) = state.victim packet := by
  simp only [LinkQueues.victim, copyFor_key, copyFor_priority]

theorem full_copyFor (f : Forwarder) (link : LinkId) (packet : ForwardPacket) (g : List NodeId)
    (ttl : UInt8) : f.Full link (copyFor packet g ttl) ↔ f.Full link packet := by
  simp only [Full, victim_copyFor, copyFor_priority]

section Processing

variable {f : Forwarder} {incoming : Option LinkId} {packet : ForwardPacket} {ds : List NodeId}
  {ttl : UInt8}

variable (ttl) in
theorem mem_replacements {replacement : Replacement} :
    replacement ∈ (branches (f.fate incoming) packet ds ttl).flatMap
        (fun b => f.replacements b.1 b.2) ↔
      ∃ link q, Split.group (f.fate incoming) ds (.via link) ≠ [] ∧
        (f.linkState link).victim packet = some q ∧ replacement = ⟨link, q.packet,
          copyFor packet (Split.group (f.fate incoming) ds (.via link)) ttl⟩ := by
  rw [List.mem_flatMap]
  constructor
  · rintro ⟨⟨link, p⟩, hb, hrep⟩
    obtain ⟨hne, rfl⟩ := mem_branches.mp hb
    simp only [replacements, victim_copyFor] at hrep
    split at hrep
    · simp at hrep
    · rw [List.mem_map] at hrep
      obtain ⟨q, hq, rfl⟩ := hrep
      exact ⟨link, q, hne, Option.mem_toList.mp hq, rfl⟩
  · rintro ⟨link, q, hne, hq, rfl⟩
    refine ⟨(link, _), mem_branches.mpr ⟨hne, rfl⟩, ?_⟩
    obtain ⟨d, hd⟩ := List.exists_mem_of_ne_nil _ hne
    have hup := fate_via (Split.mem_group.mp hd).2
    simp [replacements, victim_copyFor, hup, hq]

theorem mem_refusals (hds : accepted packet = some ds) {r : NodeId} :
    (∃ p ∈ (branches (f.fate incoming) packet ds ttl).flatMap f.refusals, r ∈ recipients p) ↔
      r ∈ ds ∧ ∃ link, f.fate incoming r = .via link ∧ f.Full link packet := by
  constructor
  · rintro ⟨p, hp, hr⟩
    obtain ⟨⟨link, p'⟩, hb, hp⟩ := List.mem_flatMap.mp hp
    obtain ⟨hne, rfl⟩ := mem_branches.mp hb
    simp only [refusals] at hp
    split at hp
    · rename_i hcase
      rw [List.mem_singleton] at hp
      subst hp
      rw [recipients_copyFor hds (Split.group_sublist _ _) hne] at hr
      obtain ⟨hmem, hfate⟩ := Split.mem_group.mp hr
      refine ⟨hmem, link, hfate, ?_⟩
      exact (full_copyFor ..).mp (hcase.resolve_left (fate_via hfate))
    · simp at hp
  · rintro ⟨hmem, link, hfate, hfull⟩
    have hr : r ∈ Split.group (f.fate incoming) ds (.via link) := Split.mem_group.mpr ⟨hmem, hfate⟩
    have hne := List.ne_nil_of_mem hr
    refine ⟨copyFor packet (Split.group (f.fate incoming) ds (.via link)) ttl,
      List.mem_flatMap.mpr ⟨(link, _), mem_branches.mpr ⟨hne, rfl⟩, ?_⟩, ?_⟩
    · rw [refusals, if_pos (.inr ((full_copyFor ..).mpr hfull))]
      exact List.mem_singleton_self _
    · rwa [recipients_copyFor hds (Split.group_sublist _ _) hne]

theorem mem_refused_dropActs (hds : accepted packet = some ds) (reason : DropReason) (fate : Fate)
    {r : NodeId} :
    (∃ p ∈ refused (dropActs reason packet (Split.group (f.fate incoming) ds fate)),
      r ∈ recipients p) ↔ r ∈ ds ∧ f.fate incoming r = fate := by
  have hgroup : r ∈ Split.group (f.fate incoming) ds fate ↔ r ∈ ds ∧ f.fate incoming r = fate :=
    Split.mem_group
  rw [← hgroup, dropActs]
  by_cases hg : Split.group (f.fate incoming) ds fate = []
  · simp [hg]
  · rw [if_neg (by simp [hg])]
    simp [recipients_copyFor hds (Split.group_sublist _ _) hg]

theorem refused_localActs : refused (f.localActs (f.fate incoming) packet ds) = [] := by
  rw [localActs]
  split <;> rfl

/-- The recipients a processed packet is refused for. -/
theorem mem_refused (hds : accepted packet = some ds) {out : List ForwardAction}
    (hout : refused out = (branches (f.fate incoming) packet ds ttl).flatMap f.refusals)
    {r : NodeId} :
    (∃ p ∈ refused (f.localActs (f.fate incoming) packet ds ++
        dropActs .noRoute packet (Split.of (f.fate incoming) ds).noRoute ++
        dropActs .loopDetected packet (Split.of (f.fate incoming) ds).looped ++ out),
      r ∈ recipients p) ↔ r ∈ ds ∧ f.Dropped incoming packet r := by
  have hno : (∃ p ∈ refused (dropActs .noRoute packet (Split.group (f.fate incoming) ds .noRoute)),
      r ∈ recipients p) ↔ r ∈ ds ∧ f.fate incoming r = .noRoute := mem_refused_dropActs hds _ _
  have hloop : (∃ p ∈ refused (dropActs .loopDetected packet
      (Split.group (f.fate incoming) ds .looped)), r ∈ recipients p) ↔
      r ∈ ds ∧ f.fate incoming r = .looped := mem_refused_dropActs hds _ _
  have hfull : (∃ p ∈ refused out, r ∈ recipients p) ↔
      r ∈ ds ∧ ∃ link, f.fate incoming r = .via link ∧ f.Full link packet := by
    rw [hout]
    exact mem_refusals hds
  rw [Split.of_noRoute, Split.of_looped]
  simp only [refused_append, refused_localActs, List.nil_append, List.mem_append, or_and_right,
    exists_or, hno, hloop, hfull, Dropped]
  rw [← and_or_left, ← and_or_left, or_assoc]

end Processing

/-- Events that process no packet conflate nothing. -/
theorem conflated_of_not_processed {f f' : Forwarder} {now : MonoTime} {event : ForwardEvent}
    {acts : List ForwardAction} (hf : f.Classed) (hp : processed event = none)
    (h : f.handle now event = some (f', acts)) : f'.conflated = f.conflated := by
  cases event with
  | outbound p => cases hp
  | inbound link p => cases hp
  | outboundMulticast ds p =>
    rcases f.processOutboundMulticast_cases ds p with ⟨error, -, heq⟩ | ⟨m, hm, -⟩
    · rw [handle, heq] at h
      cases h
      rfl
    · simp [processed, hm] at hp
  | routesUpdated _ | linkCredit _ _ | linkWritable _ | linkDown _ | timer _ =>
    exact (handle_handled h).conflated hf fun incoming packet harr => by cases harr

theorem noSilentLoss_of_same {f f' : Forwarder} (acts : List ForwardAction)
    (h : f'.conflated = f.conflated) : NoSilentLoss f f' acts := by
  simp [NoSilentLoss, h]

theorem processPacket_loss_iff {f f' : Forwarder} {incoming : Option LinkId}
    {packet : ForwardPacket} {ds : List NodeId} {acts : List ForwardAction}
    (httl : packet.header.ttl ≠ 0) (hds : accepted packet = some ds)
    (h : f.processPacket incoming packet = some (f', acts)) :
    NoSilentLoss f f' acts ↔ f.Covers incoming packet ds := by
  rw [processPacket_eq httl hds] at h
  obtain ⟨⟨f1, out⟩, hout, heq⟩ := Option.map_eq_some_iff.mp h
  cases heq
  have hb := enqueueAll_spec branches_keys_nodup hout
  have hlog : f1.conflated.drop f.conflated.length =
      (branches (f.fate incoming) packet ds (packet.header.ttl - 1)).flatMap
        fun b => f.replacements b.1 b.2 := by
    rw [hb.conflated, List.drop_left]
  have hrec : ∀ link r, Split.group (f.fate incoming) ds (.via link) ≠ [] →
      (r ∈ recipients (copyFor packet (Split.group (f.fate incoming) ds (.via link))
        (packet.header.ttl - 1)) ↔ r ∈ ds ∧ f.fate incoming r = .via link) := by
    intro link r hne
    rw [recipients_copyFor hds (Split.group_sublist _ _) hne, Split.mem_group]
  constructor
  · intro hloss link d hd hfate q hq r hr
    have hne : Split.group (f.fate incoming) ds (.via link) ≠ [] :=
      List.ne_nil_of_mem (Split.mem_group.mpr ⟨hd, hfate⟩)
    have hmem := (mem_replacements (packet.header.ttl - 1)).mpr ⟨link, q, hne, hq, rfl⟩
    rw [← hlog] at hmem
    rcases hloss _ hmem r hr with hrep | hrep
    · exact ((hrec link r hne).mp hrep).imp_right .inl
    · exact ((mem_refused hds hb.refused).mp hrep).imp_right .inr
  · intro hcover replacement hrep r hr
    rw [hlog] at hrep
    obtain ⟨link, q, hne, hq, rfl⟩ := (mem_replacements _).mp hrep
    obtain ⟨d, hd⟩ := List.exists_mem_of_ne_nil _ hne
    obtain ⟨hmem, hfate⟩ := Split.mem_group.mp hd
    obtain ⟨hr', hcase⟩ := hcover link d hmem hfate q hq r hr
    rcases hcase with hsame | hdropped
    · exact .inl ((hrec link r hne).mpr ⟨hr', hsame⟩)
    · exact .inr ((mem_refused hds hb.refused).mpr ⟨hr', hdropped⟩)

/-- In one step of a reachable forwarder no recipient is lost silently if and only if the packet
that arrives is, at every link where it meets a queued packet with its key, for all recipients of
that packet. -/
theorem no_silent_loss_iff {f f' : Forwarder} {now : MonoTime} {event : ForwardEvent}
    {acts : List ForwardAction} (hf : f.Reachable) (h : f.handle now event = some (f', acts)) :
    NoSilentLoss f f' acts ↔ f.CoversQueued event := by
  cases hp : processed event with
  | none =>
    refine iff_of_true (noSilentLoss_of_same acts (conflated_of_not_processed hf.classed hp h)) ?_
    intro incoming packet ds hp'
    rw [hp] at hp'
    cases hp'
  | some arrived =>
    obtain ⟨incoming, packet⟩ := arrived
    have hproc := handle_processed hp h
    by_cases hrefused : packet.header.ttl = 0 ∨ accepted packet = none
    · obtain ⟨reason, -, heq⟩ := processPacket_refused f incoming hrefused
      rw [heq] at hproc
      cases hproc
      refine iff_of_true (noSilentLoss_of_same _ rfl) ?_
      intro incoming' packet' ds hp' httl hds
      rw [hp] at hp'
      cases hp'
      rcases hrefused with h0 | hnone
      · exact absurd h0 httl
      · rw [hds] at hnone
        cases hnone
    · rw [not_or] at hrefused
      obtain ⟨ds, hds⟩ := Option.ne_none_iff_exists'.mp hrefused.2
      rw [processPacket_loss_iff hrefused.1 hds hproc]
      constructor
      · intro hcover incoming' packet' ds' hp' _ hds'
        rw [hp] at hp'
        cases hp'
        rw [hds] at hds'
        cases hds'
        exact hcover
      · intro hcover
        exact hcover incoming packet ds hp hrefused.1 hds

/-- A P1 CONFLATABLE multicast of node 1. -/
def update (destinations : List NodeId) : ForwardEvent :=
  .outboundMulticast destinations (samplePacket .multicast .p1 ⟨2, by decide⟩ default)

/-- The packet for node 2 waits on link 7; the one for node 3 takes its place. -/
theorem conflation_loses_recipient : ∃ f out f' acts,
    (new (.ofByte 1) sampleRoutes).run [(0, update [.ofByte 2])] = some (f, out) ∧
    f.handle 1 (update [.ofByte 3]) = some (f', acts) ∧ ¬ NoSilentLoss f f' acts := by
  have h : (((new (.ofByte 1) sampleRoutes).run [(0, update [.ofByte 2])]).bind fun r =>
      (r.1.handle 1 (update [.ofByte 3])).map fun s => decide (NoSilentLoss r.1 s.1 s.2)) =
      some false := by decide +kernel
  simp only [Option.bind_eq_some_iff, Option.map_eq_some_iff] at h
  obtain ⟨⟨f, out⟩, hrun, ⟨f', acts⟩, hstep, hloss⟩ := h
  exact ⟨f, out, f', acts, hrun, hstep, of_decide_eq_false hloss⟩

/-- A second update for the same recipients replaces the first and loses nobody. -/
theorem no_silent_loss_iff_same : ∃ f out f' acts,
    (new (.ofByte 1) sampleRoutes).run [(0, update [.ofByte 2, .ofByte 3])] = some (f, out) ∧
    f.handle 1 (update [.ofByte 2, .ofByte 3]) = some (f', acts) ∧ f'.conflated.length = 1 ∧
    NoSilentLoss f f' acts ∧ f.CoversQueued (update [.ofByte 2, .ofByte 3]) := by
  have h : (((new (.ofByte 1) sampleRoutes).run [(0, update [.ofByte 2, .ofByte 3])]).bind fun r =>
      (r.1.handle 1 (update [.ofByte 2, .ofByte 3])).map fun s =>
        decide (s.1.conflated.length = 1 ∧ NoSilentLoss r.1 s.1 s.2)) = some true := by
    decide +kernel
  simp only [Option.bind_eq_some_iff, Option.map_eq_some_iff] at h
  obtain ⟨⟨f, out⟩, hrun, ⟨f', acts⟩, hstep, hloss⟩ := h
  obtain ⟨hlen, hloss⟩ := of_decide_eq_true hloss
  exact ⟨f, out, f', acts, hrun, hstep, hlen, hloss,
    (no_silent_loss_iff ⟨_, _, _, _, hrun⟩ hstep).mp hloss⟩

end Forwarder
end Forward
end MeshBus
