import MeshBus.Forward.Credit
import MeshBus.Runtime.Live

/-!
# Runtime.Writes

The loop, the forwarder and the transport together: no packet waits on a live link without a write
going on. A transport brings every link up once, reports the frames it has written in the order
they were sent, and takes a link down once; `Driven` runs the loop under such a transport and
remembers the Forward frames that are not reported yet.
-/

namespace MeshBus
namespace Runtime

open Control Forward Wire PubSub

/-- The loop with its links: those that are live, those that are up for the transport, those that
ever were, and the Forward frames on their way. -/
structure Driven where
  rt : RuntimeState
  live : Finset LinkId
  opened : Finset LinkId
  seen : Finset LinkId
  unsent : List (LinkId × WireFrame)

variable {outside : Outside} {input : RuntimeInput} {acts : List ForwardAction} {s : Driven}
  {f : Forwarder}

namespace Driven

def start (me : NodeId) (epoch : UInt32) (persistedSeq : UInt64) (policies : TopicPolicies) :
    Driven where
  rt := .spawn me epoch persistedSeq policies
  live := ∅
  opened := ∅
  seen := ∅
  unsent := []

/-- The Forward frames sent on a link and not reported, oldest first. -/
def unsentOn (s : Driven) (link : LinkId) : List WireFrame :=
  (s.unsent.filter fun x => x.1 = link).map Prod.snd

/-- What may come next: link ids are never reused, a link has its `Up` before its `Down` and its
other events in between, `Sent` reports the oldest frame of its kind, and the application's packets
have passed the encoder. -/
def allows (s : Driven) : RuntimeInput → Bool
  | .link (.up link _) => link ∉ s.seen
  | .link (.down link) => link ∈ s.opened
  | .link (.frame link _) => link ∈ s.opened
  | .link (.sent link frameType _ payloadBytes) => link ∈ s.opened &&
    (frameType ≠ .forward ||
      (s.unsentOn link).head?.map (fun frame => frame.payload.length) = some payloadBytes)
  | .forward (.outbound packet) => (ForwardPacketCodec.encode packet).isOk
  | _ => true

def openedAfter (opened : Finset LinkId) : RuntimeInput → Finset LinkId
  | .link (.up link _) => insert link opened
  | .link (.down link) => opened.erase link
  | _ => opened

def seenAfter (seen : Finset LinkId) : RuntimeInput → Finset LinkId
  | .link (.up link _) => insert link seen
  | _ => seen

/-- A reported frame is no longer unsent, and a link that is down has none. -/
def unsentAfter (unsent : List (LinkId × WireFrame)) : RuntimeInput → List (LinkId × WireFrame)
  | .link (.down link) => unsent.filter fun x => x.1 ≠ link
  | .link (.sent link .forward _ _) => unsent.eraseP fun x => x.1 = link
  | _ => unsent

/-- One iteration after which the loop goes on. -/
def step (build : Build) (s : Driven) (x : Outside × RuntimeInput) : Option Driven :=
  if s.allows x.2 then do
    let (rt, effects, continues) ← s.rt.iterate build x.1 x.2
    if continues then
      some
        { rt := rt
          live := liveAfter x.1 s.live x.2
          opened := openedAfter s.opened x.2
          seen := seenAfter s.seen x.2
          unsent := unsentAfter s.unsent x.2 ++
            (frames effects).filter fun x => x.2.frameType = .forward }
    else none
  else none

theorem subset_seenAfter (seen : Finset LinkId) (input : RuntimeInput) :
    seen ⊆ seenAfter seen input := by
  unfold seenAfter
  split
  · exact Finset.subset_insert _ _
  · exact Finset.Subset.refl _

theorem unsentAfter_of_close {build : Build} (h : meaning build outside input = none)
    (unsent : List (LinkId × WireFrame)) : unsentAfter unsent input = unsent := by
  unfold unsentAfter
  split
  · cases h
  · cases h
  · rfl

/-- The lengths the transport owes a report of. -/
def lengths (unsent : List (LinkId × WireFrame)) : List (LinkId × Nat) :=
  unsent.map fun x => (x.1, x.2.payload.length)

structure Inv (s : Driven) : Prop where
  links : Linked.Inv s.rt s.live
  sound : s.rt.forwarder.Sound (· ∈ s.live) (lengths s.unsent)
  down : s.rt.forwarder.downLinks ⊆ s.seen
  opened : s.live ⊆ s.opened
  seen : s.opened ⊆ s.seen
  unsent : ∀ x ∈ s.unsent, x.1 ∈ s.live

theorem inv_start (me : NodeId) (epoch : UInt32) (persistedSeq : UInt64)
    (policies : TopicPolicies) : Inv (start me epoch persistedSeq policies) := by
  have hlinks := Linked.inv_start me epoch persistedSeq policies
  refine ⟨hlinks, ⟨hlinks.forwarder, ⟨?_, ?_, ?_⟩, ?_, ?_⟩, ?_, ?_, ?_, ?_⟩
  · intro l hl
    simp [start] at hl
  · intro l hl
    simp [start] at hl
  · intro l hl
    simp [start, RuntimeState.spawn, Forwarder.new] at hl
  · intro l priority q hq
    simp only [start, RuntimeState.spawn, Forwarder.new, Forwarder.queue, Forwarder.linkState,
      Std.ExtTreeMap.getElem?_empty, Option.getD_none] at hq
    cases hq
  · intro g batch hbatch
    simp [start, RuntimeState.spawn, Forwarder.new] at hbatch
  · exact Finset.Subset.refl _
  · exact Finset.Subset.refl _
  · exact Finset.Subset.refl _
  · simp [start]

theorem owedOn_lengths (s : Driven) (link : LinkId) :
    owedOn link (lengths s.unsent) = (s.unsentOn link).map fun frame => frame.payload.length := by
  simp only [owedOn, lengths, unsentOn, List.filter_map, List.map_map]
  rfl

theorem owedOn_filter_ne (link l : LinkId) (unsent : List (LinkId × WireFrame)) :
    owedOn l (lengths (unsent.filter fun x => x.1 ≠ link)) =
      if l = link then [] else owedOn l (lengths unsent) := by
  simp only [owedOn, lengths, List.filter_map, List.map_map, List.filter_filter, Function.comp_def]
  split
  · rename_i heq
    subst heq
    rw [List.map_eq_nil_iff, List.filter_eq_nil_iff]
    simp
  · rename_i hne
    congr 1
    refine List.filter_congr fun x _ => ?_
    by_cases hx : x.1 = l
    · simp [hx, hne]
    · simp [hx]

/-- Reporting the oldest frame of a link. -/
theorem owedOn_eraseP (link l : LinkId) : ∀ unsent : List (LinkId × WireFrame),
    owedOn l (lengths (unsent.eraseP fun x => x.1 = link)) =
      if l = link then (owedOn l (lengths unsent)).tail else owedOn l (lengths unsent) := by
  intro unsent
  induction unsent with
  | nil => simp [owedOn, lengths]
  | cons x unsent ih =>
    have hcons : ∀ (y : LinkId × WireFrame) ys, owedOn l (lengths (y :: ys)) =
        if y.1 = l then y.2.payload.length :: owedOn l (lengths ys) else owedOn l (lengths ys) := by
      intro y ys
      by_cases hy : y.1 = l <;> simp [owedOn, lengths, hy]
    by_cases hx : x.1 = link
    · rw [List.eraseP_cons_of_pos (by simpa using hx), hcons]
      by_cases hl : l = link
      · simp [hl, hx]
      · rw [if_neg hl, if_neg (fun heq => hl (heq.symm.trans hx))]
    · rw [List.eraseP_cons_of_neg (by simpa using hx), hcons, hcons, ih]
      by_cases hl : l = link
      · subst hl
        simp [hx]
      · simp [hl]

/-- The Forward frames of encodable packets, by length. -/
theorem lengths_forwardFrames (h : ∀ x ∈ sentOn acts, ForwardPacketCodec.Encodable x.2) :
    lengths (forwardFrames acts) = charges (sentOn acts) ∧
      (forwardFrames acts).filter (fun x => x.2.frameType = .forward) = forwardFrames acts ∧
      (forwardFrames acts).map Prod.fst = (sentOn acts).map Prod.fst := by
  induction acts with
  | nil => exact ⟨rfl, rfl, rfl⟩
  | cons action acts ih =>
    cases action with
    | send link packet =>
      rw [sentOn_cons_send] at h
      obtain ⟨ih1, ih2, ih3⟩ := ih fun x hx => h x (List.mem_cons_of_mem _ hx)
      obtain ⟨b, hb⟩ := (ForwardPacketCodec.encode_iff packet).mpr (h _ List.mem_cons_self)
      have hcons : forwardFrames (.send link packet :: acts) =
          (link, ⟨.forward, channelForPriority packet.header.priority, b⟩) ::
            forwardFrames acts := by
        simp only [forwardFrames, List.filterMap_cons, forwardFrame, hb]
      rw [hcons, sentOn_cons_send]
      refine ⟨?_, ?_, ?_⟩
      · simp only [lengths, charges, List.map_cons] at ih1 ⊢
        rw [ih1, ForwardPacketCodec.length_encode hb]
      · rw [List.filter_cons_of_pos (by simp), ih2]
      · rw [List.map_cons, List.map_cons, ih3]
    | deliverLocal _ | drop _ _ | backpressure _ _ | setTimer _ _ => exact ih h

theorem decodeForwardFrame_encodable {frame : WireFrame} {packet : ForwardPacket}
    (h : decodeForwardFrame frame = .ok packet) : ForwardPacketCodec.Encodable packet := by
  obtain ⟨b, hb, -⟩ := ForwardPacketCodec.encode_decode (decodeForwardFrame_ok h)
  exact (ForwardPacketCodec.encode_iff packet).mp ⟨b, hb⟩

/-- What the events of an input leave of the forwarder. -/
def Leaves (s : Driven) (outside : Outside) (input : RuntimeInput) (f : Forwarder)
    (acts : List ForwardAction) : Prop :=
  f.Sound (· ∈ liveAfter outside s.live input)
      (lengths (unsentAfter s.unsent input) ++ charges (sentOn acts)) ∧
    (∀ x ∈ sentOn acts, ForwardPacketCodec.Encodable x.2) ∧ f.downLinks ⊆ seenAfter s.seen input

theorem Inv.live_seen (hs : s.Inv) : s.live ⊆ s.seen := hs.opened.trans hs.seen

theorem Inv.leaves_nothing (hs : s.Inv) (hlive : liveAfter outside s.live input = s.live)
    (hunsent : unsentAfter s.unsent input = s.unsent) :
    s.Leaves outside input s.rt.forwarder [] := by
  refine ⟨?_, by simp, hs.down.trans (subset_seenAfter s.seen input)⟩
  rw [hlive, hunsent]
  simpa [charges] using hs.sound

/-- One event that grants nothing and takes no link away. -/
theorem Inv.leaves_event (hs : s.Inv) {event : ForwardEvent}
    (hlive : liveAfter outside s.live input = s.live)
    (hunsent : unsentAfter s.unsent input = s.unsent) (hgrants : Forwarder.grants event = false)
    (hdown : ∀ link, event ≠ .linkDown link) (hroutes : ∀ table, event ≠ .routesUpdated table)
    (hpacket : ∀ incoming packet, Forwarder.processed event = some (incoming, packet) →
      ForwardPacketCodec.Encodable packet)
    (h : emitAll (fun f e => f.handle outside.now e) s.rt.forwarder [event] = some (f, acts)) :
    s.Leaves outside input f acts := by
  obtain ⟨hsound, hsent, hsub⟩ := Forwarder.emitAll_sound (by
    intro e he
    rw [List.mem_singleton.mp he]
    exact ⟨hgrants, hdown, fun table heq => absurd heq (hroutes table), hpacket⟩) hs.sound h
  refine ⟨?_, hsent, hsub.trans (hs.down.trans (subset_seenAfter s.seen input))⟩
  rw [hlive, hunsent]
  exact hsound

theorem Inv.owedOn_of_not_live (hs : s.Inv) {link : LinkId} (h : link ∉ s.live) :
    owedOn link (lengths s.unsent) = [] := by
  simp only [owedOn, lengths, List.map_eq_nil_iff, List.filter_eq_nil_iff, List.mem_map,
    decide_eq_true_eq]
  rintro _ ⟨x, hx, rfl⟩ heq
  exact h (heq ▸ hs.unsent x hx)

theorem Inv.leaves_up (hs : s.Inv) {link : LinkId} {peer : NodeId} {cost : LinkCost}
    (hnew : link ∉ s.seen) (hcost : outside.peerCosts[peer]? = some cost)
    (h : emitAll (fun f e => f.handle outside.now e) s.rt.forwarder
      [.linkCredit link maxPayloadLen, .linkWritable link] = some (f, acts)) :
    s.Leaves outside (.link (.up link peer)) f acts := by
  have hlive : link ∉ s.live := fun hl => hnew (hs.live_seen hl)
  have hstate : s.rt.forwarder.linkState link = default := by
    cases hget : s.rt.forwarder.links[link]? with
    | none =>
      rw [Forwarder.linkState, hget]
      rfl
    | some state =>
      exact absurd (hs.sound.accounts.known link (OrdMap.mem_iff_get.mpr ⟨state, hget⟩)) hlive
  have hafter : liveAfter outside s.live (.link (.up link peer)) = insert link s.live := by
    simp [liveAfter, hcost]
  obtain ⟨hsound, hsent, hsub⟩ := hs.sound.regrant
    (· ∈ liveAfter outside s.live (.link (.up link peer)))
    (lengths (unsentAfter s.unsent (.link (.up link peer))))
    (fun l => by rw [hafter, Finset.mem_insert]) (fun hmem => hnew (hs.down hmem))
    (by rw [hstate]; rfl) (by rw [hstate]; rfl) (hs.owedOn_of_not_live hlive) (fun _ _ => rfl) h
  refine ⟨hsound, hsent, ?_⟩
  rw [hsub]
  exact hs.down.trans (subset_seenAfter s.seen (.link (.up link peer)))

theorem Inv.leaves_down (hs : s.Inv) {link : LinkId} (hopened : link ∈ s.opened)
    (h : emitAll (fun f e => f.handle outside.now e) s.rt.forwarder [.linkDown link] =
      some (f, acts)) : s.Leaves outside (.link (.down link)) f acts := by
  obtain ⟨f1, out, rest, h1, h2, rfl⟩ := emitAll_cons_inv h
  cases h2
  have hguard : (s.rt.forwarder.prepared (.linkDown link)).Guarded (· ∈ s.live.erase link) :=
    (hs.sound.guarded.linkDown link).mono fun l hl => Finset.mem_erase.mpr ⟨hl.2, hl.1⟩
  have haccounts : (s.rt.forwarder.prepared (.linkDown link)).Accounts (· ∈ s.live.erase link)
      (lengths (s.unsent.filter fun x => x.1 ≠ link)) := by
    refine ⟨?_, ?_, ?_⟩
    · intro l hl
      obtain ⟨hne, hl⟩ := Finset.mem_erase.mp hl
      obtain ⟨state, hstate, hsettled⟩ := hs.sound.accounts.settled l hl
      refine ⟨state, ?_, ?_⟩
      · simp only [Forwarder.prepared, OrdMap.get_erase]
        rw [if_neg (Ne.symm hne), hstate]
      · rw [owedOn_filter_ne, if_neg hne]
        exact hsettled
    · intro l hl
      obtain ⟨hne, hl⟩ := Finset.mem_erase.mp hl
      simp only [Forwarder.prepared, Finset.mem_insert, not_or]
      exact ⟨hne, hs.sound.accounts.up l hl⟩
    · intro l hl
      simp only [Forwarder.prepared, OrdMap.mem_erase] at hl
      obtain ⟨hne, hl⟩ := hl
      exact Finset.mem_erase.mpr ⟨Ne.symm hne, hs.sound.accounts.known l hl⟩
  obtain ⟨hsound, hsent, hdown⟩ := Forwarder.handle_sound hguard haccounts hs.sound.holds rfl
    (by simp [Forwarder.processed, Forwarder.arrival]) h1
  rw [List.append_nil]
  refine ⟨hsound, hsent, ?_⟩
  rw [hdown]
  exact Finset.insert_subset (hs.seen hopened) hs.down

/-- The one write of a link is reported. -/
theorem Inv.leaves_sent (hs : s.Inv) {link : LinkId} {channel : Channel} {bytes : Nat}
    (hhead : (s.unsentOn link).head?.map (fun frame => frame.payload.length) = some bytes)
    (h : emitAll (fun f e => f.handle outside.now e) s.rt.forwarder
      [.linkCredit link bytes, .linkWritable link] = some (f, acts)) :
    s.Leaves outside (.link (.sent link .forward channel bytes)) f acts := by
  have howed : ∃ rest, owedOn link (lengths s.unsent) = bytes :: rest := by
    rw [owedOn_lengths]
    obtain ⟨frame, hframe, rfl⟩ := Option.map_eq_some_iff.mp hhead
    obtain ⟨rest, hrest⟩ := List.head?_eq_some_iff.mp hframe
    exact ⟨rest.map fun frame => frame.payload.length, by rw [hrest, List.map_cons]⟩
  obtain ⟨rest, howed⟩ := howed
  have hlive : link ∈ s.live := by
    by_contra hnot
    rw [hs.owedOn_of_not_live hnot] at howed
    cases howed
  obtain ⟨state, hstate, hsettled⟩ := hs.sound.accounts.settled link hlive
  have hlink : s.rt.forwarder.linkState link = state := by
    rw [Forwarder.linkState, hstate]
    rfl
  rw [howed] at hsettled
  obtain rfl : rest = [] := by
    have hone := hsettled.one
    rw [List.length_cons] at hone
    exact List.length_eq_zero_iff.mp (by omega)
  have hbalance : state.availableCreditBytes + bytes = maxPayloadLen := by
    simpa using hsettled.balance
  obtain ⟨hsound, hsent, hsub⟩ := hs.sound.regrant (· ∈ s.live)
    (lengths (s.unsent.eraseP fun x => x.1 = link))
    (fun l => ⟨.inr, fun hl => hl.elim (fun heq => heq ▸ hlive) id⟩)
    (hs.sound.accounts.up link hlive) (hlink ▸ hsettled.busy (by simp)) (hlink ▸ hbalance)
    (by rw [owedOn_eraseP, if_pos rfl, howed, List.tail_cons])
    (fun l hl => by rw [owedOn_eraseP, if_neg hl]) h
  exact ⟨hsound, hsent, hsub ▸ hs.down⟩

/-- Every input leaves the forwarder sound for the links and the frames that are left. -/
theorem Inv.leaves {build : Build} (hs : s.Inv) {events : List ForwardEvent}
    {controlEvent : Option ControlEvent} (hallows : s.allows input = true)
    (hmeaning : meaning build outside input = some (events, controlEvent))
    (h : emitAll (fun f e => f.handle outside.now e) s.rt.forwarder events = some (f, acts)) :
    s.Leaves outside input f acts := by
  cases input with
  | timer timer =>
    cases timer with
    | control timer =>
      cases hmeaning
      cases h
      exact hs.leaves_nothing rfl rfl
    | forward timer =>
      cases hmeaning
      exact hs.leaves_event rfl rfl rfl (by simp) (by simp)
        (by simp [Forwarder.processed, Forwarder.arrival]) h
  | pubSub event =>
    cases hmeaning
    cases h
    exact hs.leaves_nothing rfl rfl
  | forward input =>
    cases input with
    | outbound packet =>
      cases hmeaning
      refine hs.leaves_event rfl rfl rfl (by simp) (by simp) ?_ h
      rintro _ _ ⟨rfl⟩
      rw [← ForwardPacketCodec.encode_iff]
      simp only [allows] at hallows
      cases hencode : ForwardPacketCodec.encode packet with
      | ok b => exact ⟨b, rfl⟩
      | error e =>
        rw [hencode] at hallows
        cases hallows
    | outboundMulticast destinations packet =>
      cases hmeaning
      exact hs.leaves_event rfl rfl rfl (by simp) (by simp)
        (fun _ _ hp => Forwarder.processed_multicast_encodable hp) h
  | link event =>
    cases event with
    | up link peer =>
      obtain ⟨cost, hcost, heq⟩ := Option.map_eq_some_iff.mp hmeaning
      cases heq
      exact hs.leaves_up (by simpa [allows] using hallows) hcost h
    | down link =>
      cases hmeaning
      exact hs.leaves_down (by simpa [allows] using hallows) h
    | frame link frame =>
      simp only [meaning] at hmeaning
      split at hmeaning
      · split at hmeaning
        · cases hmeaning
        · rename_i packet hdecode
          cases hmeaning
          refine hs.leaves_event rfl rfl rfl (by simp) (by simp) ?_ h
          rintro _ _ ⟨rfl⟩
          exact decodeForwardFrame_encodable hdecode
      · split at hmeaning
        · cases hmeaning
        · cases hmeaning
          cases h
          exact hs.leaves_nothing rfl rfl
    | sent link frameType channel bytes =>
      simp only [meaning] at hmeaning
      split at hmeaning
      · rename_i hforward
        cases hmeaning
        subst hforward
        simp only [allows, ne_eq, not_true_eq_false, decide_false, Bool.false_or, Bool.and_eq_true,
          decide_eq_true_eq] at hallows
        exact hs.leaves_sent hallows.2 h
      · rename_i hcontrol
        cases hmeaning
        cases h
        refine hs.leaves_nothing rfl ?_
        cases frameType <;> first | rfl | exact absurd rfl hcontrol

/-- What an iteration leaves before the forward actions are executed. -/
theorem Inv.collect {build : Build} (hs : s.Inv) {progress : Progress} {continues : Bool}
    (hallows : s.allows input = true)
    (h : s.rt.collect build outside input = some (progress, continues)) :
    s.Leaves outside input progress.state.forwarder progress.forwardActions := by
  have hspec := (collect_spec h).1
  cases hm : meaning build outside input with
  | none =>
    simp only [hm] at hspec
    rw [hspec.1, hspec.2]
    exact hs.leaves_nothing (liveAfter_of_close hm s.live) (unsentAfter_of_close hm s.unsent)
  | some m =>
    obtain ⟨events, controlEvent⟩ := m
    simp only [hm] at hspec
    obtain ⟨planeActions, done, multicasts, hrun, hkind, hpre, hplane⟩ := hspec.forwarded
    obtain ⟨f1, out, rest, h1, h2, hacts⟩ := emitAll_append_inv hrun
    obtain ⟨hsound, hsent, hdown⟩ := hs.leaves hallows hm h1
    have hlive := Linked.plane_live (meaning_spec hm) hs.links.plane hplane
    obtain ⟨hsound', hsent', hdown'⟩ := Forwarder.emitAll_sound (by
      intro e he
      obtain ⟨table, rfl, htable⟩ | ⟨destinations, packet, rfl⟩ :=
        Linked.later_events hlive hkind hpre hplane e he
      · refine ⟨rfl, by simp, ?_, by simp [Forwarder.processed, Forwarder.arrival]⟩
        rintro _ ⟨rfl⟩
        exact htable
      · exact ⟨rfl, by simp, by simp, fun _ _ hp => Forwarder.processed_multicast_encodable hp⟩)
      hsound h2
    rw [hacts]
    refine ⟨?_, ?_, hdown'.trans hdown⟩
    · rw [sentOn_append, charges_append, ← List.append_assoc]
      exact hsound'
    · intro x hx
      rw [sentOn_append, List.mem_append] at hx
      exact hx.elim (hsent x) (hsent' x)

theorem Inv.links_after (hs : s.Inv) (outside : Outside) (input : RuntimeInput) :
    liveAfter outside s.live input ⊆ openedAfter s.opened input ∧
      openedAfter s.opened input ⊆ seenAfter s.seen input := by
  cases input with
  | timer _ | forward _ | pubSub _ => exact ⟨hs.opened, hs.seen⟩
  | link event =>
    cases event with
    | up link peer =>
      refine ⟨?_, Finset.insert_subset_insert link hs.seen⟩
      simp only [liveAfter, openedAfter]
      split
      · exact Finset.insert_subset_insert link hs.opened
      · exact hs.opened.trans (Finset.subset_insert _ _)
    | down link =>
      exact ⟨Finset.erase_subset_erase _ hs.opened, (Finset.erase_subset _ _).trans hs.seen⟩
    | frame _ _ | sent _ _ _ _ => exact ⟨hs.opened, hs.seen⟩

theorem Inv.unsent_after (hs : s.Inv) (outside : Outside) (input : RuntimeInput) :
    ∀ x ∈ unsentAfter s.unsent input, x.1 ∈ liveAfter outside s.live input := by
  intro x hx
  cases input with
  | timer _ | forward _ | pubSub _ => exact hs.unsent x hx
  | link event =>
    cases event with
    | up link peer =>
      simp only [liveAfter]
      split
      · exact Finset.mem_insert_of_mem (hs.unsent x hx)
      · exact hs.unsent x hx
    | down link =>
      obtain ⟨hx, hne⟩ := List.mem_filter.mp hx
      exact Finset.mem_erase.mpr ⟨by simpa using hne, hs.unsent x hx⟩
    | frame link frame => exact hs.unsent x hx
    | sent link frameType channel bytes =>
      refine hs.unsent x ?_
      cases frameType with
      | forward => exact List.mem_of_mem_eraseP hx
      | _ => exact hx

theorem Inv.step {build : Build} {s s' : Driven} {x : Outside × RuntimeInput} (hs : s.Inv)
    (h : s.step build x = some s') : s'.Inv := by
  simp only [Driven.step] at h
  split at h
  · rename_i hallows
    simp only [bind, Option.bind_eq_some_iff] at h
    obtain ⟨⟨rt, effects, continues⟩, hiter, h⟩ := h
    split at h
    · rename_i hc
      have hc : continues = true := hc
      subst hc
      cases h
      obtain ⟨progress, hcollect, hexec, hframes⟩ := iterate_collect hiter
      obtain ⟨hlinks, hlive⟩ := hs.links.collect hcollect
      obtain ⟨hsound, hsent, hdown⟩ := hs.collect hallows hcollect
      obtain ⟨hlengths, hforward, hfst⟩ := lengths_forwardFrames hsent
      -- only the forward actions make Forward frames
      have hnew : (frames effects).filter (fun x => x.2.frameType = .forward) =
          forwardFrames progress.forwardActions := by
        have hcontrol :
            (frames progress.effects).filter (fun x => x.2.frameType = .forward) = [] := by
          rw [List.filter_eq_nil_iff]
          intro y hy
          simpa using (collect_spec hcollect).2 y hy
        rw [hframes, List.filter_append, hforward, hcontrol, List.nil_append]
      obtain ⟨hopened, hseen⟩ := hs.links_after x.1 x.2
      refine ⟨⟨?_, ?_⟩, ?_, ?_, hopened, hseen, ?_⟩
      · simp only [hexec.plane]
        exact hlinks.plane
      · simp only [hexec.forwarder]
        exact hlinks.forwarder
      · simp only [hexec.forwarder, hnew]
        rw [lengths, List.map_append, ← lengths, ← lengths, hlengths]
        exact hsound
      · simp only [hexec.forwarder]
        exact hdown
      · intro y hy
        simp only [hnew] at hy
        rcases List.mem_append.mp hy with hy | hy
        · exact hs.unsent_after x.1 x.2 y hy
        · have hmem : y.1 ∈ (sentOn progress.forwardActions).map Prod.fst :=
            hfst ▸ List.mem_map_of_mem hy
          obtain ⟨z, hz, heq⟩ := List.mem_map.mp hmem
          exact heq ▸ hlive z hz
    · cases h
  · cases h

/-- No packet is stranded on a link that is up: the credit and what is being written always make
the full credit, at most one frame is being written, and nothing waits when none is. -/
theorem no_packet_stranded {build : Build} {me : NodeId} {epoch : UInt32} {persistedSeq : UInt64}
    {policies : TopicPolicies} {inputs : List (Outside × RuntimeInput)} {s : Driven}
    (hrun : inputs.foldlM (step build) (start me epoch persistedSeq policies) = some s)
    {link : LinkId} (hlive : link ∈ s.live) :
    ∃ state, s.rt.forwarder.links[link]? = some state ∧
      state.availableCreditBytes + ((s.unsentOn link).map fun frame => frame.payload.length).sum =
        maxPayloadLen ∧
      (s.unsentOn link).length ≤ 1 ∧
      (s.unsentOn link = [] → ∀ priority, state.queues priority = []) := by
  have hinv : s.Inv := foldlM_inv (P := Inv) (fun _ _ _ hs hstep => hs.step hstep)
    (inv_start me epoch persistedSeq policies) hrun
  obtain ⟨state, hstate, hsettled⟩ := hinv.sound.accounts.settled link hlive
  rw [owedOn_lengths] at hsettled
  refine ⟨state, hstate, hsettled.balance, ?_, ?_⟩
  · simpa using hsettled.one
  · intro hnone
    exact (hsettled.idle (by rw [hnone, List.map_nil])).2

/-- The neighbour is up, and three packets are sent to it while the first write is reported. -/
def busyInputs : List (Outside × RuntimeInput) :=
  Linked.neighbourInputs ++
    [(Linked.beside 101, .forward (.outbound Linked.neighbourPacket)),
      (Linked.beside 102, .forward (.outbound Linked.neighbourPacket)),
      (Linked.beside 103, .link (.sent 7 .forward .pubSubP1 Linked.neighbourPacket.encodedLen)),
      (Linked.beside 104, .forward (.outbound Linked.neighbourPacket))]

theorem no_packet_stranded_neighbour :
    ∃ s, busyInputs.foldlM (step Linked.neighbourBuild) (start (.ofByte 1) 1 0 .empty) = some s ∧
      7 ∈ s.live ∧ (s.unsentOn 7).length = 1 ∧ (s.rt.forwarder.queue 7 .p1).length = 1 ∧
      ∃ state, s.rt.forwarder.links[7]? = some state ∧
        state.availableCreditBytes + ((s.unsentOn 7).map fun frame => frame.payload.length).sum =
          maxPayloadLen ∧
        (s.unsentOn 7).length ≤ 1 ∧
        (s.unsentOn 7 = [] → ∀ priority, state.queues priority = []) := by
  have hfacts : ((busyInputs.foldlM (step Linked.neighbourBuild)
      (start (.ofByte 1) 1 0 .empty)).map fun s =>
        decide (7 ∈ s.live ∧ (s.unsentOn 7).length = 1 ∧
          (s.rt.forwarder.queue 7 .p1).length = 1)) = some true := by
    decide +kernel
  obtain ⟨s, hrun, heq⟩ := Option.map_eq_some_iff.mp hfacts
  obtain ⟨hlive, hone, hqueue⟩ := of_decide_eq_true heq
  exact ⟨s, hrun, hlive, hone, hqueue, no_packet_stranded hrun hlive⟩

end Driven
end Runtime
end MeshBus
