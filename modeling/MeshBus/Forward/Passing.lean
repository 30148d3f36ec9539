import MeshBus.Forward.Steps

/-!
# Forward.Passing

What a forwarder does with one packet, new or taken out of a queue: its recipients are split by
fate, the parts are delivered, refused, queued elsewhere or left over, and nothing else changes.
-/

namespace MeshBus
namespace Forward

open Wire

namespace Forwarder

variable {f f' : Forwarder} {incoming : Option LinkId} {packet : ForwardPacket}
  {acts : List ForwardAction} {fates : NodeId → Fate} {ds : List NodeId}

/-! ## The branches of a split -/

section Branches

variable {ttl : UInt8}

theorem branches_keys_nodup : ((branches fates packet ds ttl).map Prod.fst).Nodup := by
  have h := OrdMap.nodup_fst_toList (Split.of fates ds).byLink
  rw [branches, List.map_map]
  exact h

theorem mem_branches {link : LinkId} {p : ForwardPacket} :
    (link, p) ∈ branches fates packet ds ttl ↔ Split.group fates ds (.via link) ≠ [] ∧
      p = copyFor packet (Split.group fates ds (.via link)) ttl := by
  rw [branches, List.mem_map]
  constructor
  · rintro ⟨e, he, heq⟩
    obtain ⟨hgroup, hne⟩ := byLink_mem he
    cases heq
    rw [← hgroup]
    exact ⟨hne, rfl⟩
  · rintro ⟨hne, rfl⟩
    refine ⟨(link, Split.group fates ds (.via link)), ?_, rfl⟩
    rw [OrdMap.mem_toList, Split.of_byLink, if_neg hne]

/-- A link gets one copy, for all recipients that go there. -/
theorem branches_on (link : LinkId) : (branches fates packet ds ttl).filter (fun b => b.1 = link) =
    if Split.group fates ds (.via link) = [] then []
    else [(link, copyFor packet (Split.group fates ds (.via link)) ttl)] := by
  split
  · rename_i hempty
    rw [List.filter_eq_nil_iff]
    rintro ⟨l, p⟩ hb hl
    have heq : l = link := of_decide_eq_true hl
    exact (mem_branches.mp hb).1 (heq ▸ hempty)
  · rename_i hne
    exact OrdMap.filter_key_eq branches_keys_nodup (mem_branches.mpr ⟨hne, rfl⟩)

theorem heldOf_copyFor {g : List NodeId} (h : accepted packet = some ds) (hg : g.Sublist ds)
    (hne : g ≠ []) : heldOf (copyFor packet g ttl) = lives (ident packet) g (ttl.toNat + 1) := by
  rw [heldOf, copyFor_ident, copyFor_ttl, recipients_copyFor h hg hne]

theorem heldOf_branches (h : accepted packet = some ds) :
    ((branches fates packet ds ttl).map fun b => heldOf b.2).sum =
      lives (ident packet)
        (OrdMap.total (fun _ (l : List NodeId) => (l : Multiset NodeId)) (Split.of fates ds).byLink)
        (ttl.toNat + 1) := by
  have key : ∀ es : List (LinkId × List NodeId), (∀ e ∈ es, e.2.Sublist ds ∧ e.2 ≠ []) →
      (es.map fun e => heldOf (copyFor packet e.2 ttl)).sum =
        lives (ident packet) (es.map fun e => (e.2 : Multiset NodeId)).sum (ttl.toNat + 1) := by
    intro es
    induction es with
    | nil => intro _; rfl
    | cons e es ih =>
      intro hes
      obtain ⟨hsub, hne⟩ := hes e List.mem_cons_self
      rw [List.map_cons, List.sum_cons, List.map_cons, List.sum_cons, lives_add,
        heldOf_copyFor h hsub hne, ih fun e he => hes e (List.mem_cons_of_mem _ he)]
  rw [branches, List.map_map, OrdMap.total]
  refine key _ fun e he => ?_
  obtain ⟨hgroup, hne⟩ := byLink_mem he
  refine ⟨?_, hne⟩
  rw [hgroup]
  exact Split.group_sublist _ _

/-- The copies of a packet keep its class and its conflation key. -/
theorem copyFor_priority (packet : ForwardPacket) (g : List NodeId) (ttl : UInt8) :
    (copyFor packet g ttl).header.priority = packet.header.priority := by
  rw [copyFor]
  split <;> rfl

theorem copyFor_key (packet : ForwardPacket) (g : List NodeId) (ttl : UInt8) :
    ConflationKey.fromPacket (copyFor packet g ttl) = ConflationKey.fromPacket packet := by
  rw [copyFor]
  split <;> rfl

end Branches

/-- The recipients delivered here are the node itself, or nobody. -/
theorem group_here {f : Forwarder} (hnodup : ds.Nodup) (hhere : ∀ d, fates d = .here ↔ d = f.me) :
    Split.group fates ds .here = [] ∨ Split.group fates ds .here = [f.me] := by
  have hall : ∀ d ∈ Split.group fates ds .here, d = f.me := fun d hd =>
    (hhere d).mp (Split.mem_group.mp hd).2
  have hnd : (Split.group fates ds .here).Nodup := hnodup.sublist (Split.group_sublist _ _)
  cases hg : Split.group fates ds .here with
  | nil => exact .inl rfl
  | cons d rest =>
    right
    rw [hg] at hall hnd
    have hd : d = f.me := hall d List.mem_cons_self
    cases rest with
    | nil => rw [hd]
    | cons e rest =>
      have he : e = f.me := hall e (by simp)
      rw [hd, he] at hnd
      simp at hnd

theorem localOf_destination {f : Forwarder} (h : accepted packet = some ds) (hmem : f.me ∈ ds) :
    (f.localOf packet).header.destination = f.me := by
  rw [localOf]
  split
  · rfl
  · rename_i hm
    rw [(accepted_unicast hm h).2, List.mem_singleton] at hmem
    exact hmem.symm

theorem localActs_balanced {f : Forwarder} (ttl : ℕ) (h : accepted packet = some ds)
    (hhere : ∀ d, fates d = .here ↔ d = f.me) :
    Balanced f (lives (ident packet) (Split.group fates ds .here) ttl) f
      (f.localActs fates packet ds) := by
  rw [localActs, Split.of_deliverLocal]
  rcases group_here (accepted_nodup h) hhere with hg | hg
  · rw [hg]
    exact .refl f
  · have hmem : f.me ∈ ds := by
      have : f.me ∈ Split.group fates ds .here := by simp [hg]
      exact (Split.mem_group.mp this).1
    rw [hg]
    exact .deliver (f.localOf_ident packet) (localOf_destination h hmem)

theorem dropActs_balanced {f : Forwarder} {ds g : List NodeId} (reason : DropReason) (ttl : ℕ)
    (h : accepted packet = some ds) (hg : g.Sublist ds) :
    Balanced f (lives (ident packet) g ttl) f (dropActs reason packet g) := by
  rw [dropActs]
  cases hcase : g with
  | nil => exact .refl f
  | cons d rest =>
    rw [← hcase]
    have hne : g ≠ [] := by simp [hcase]
    rw [if_neg (by simp [hne])]
    refine .refuse rfl rfl rfl ?_
    rw [tokensOf, copyFor_ident, recipients_copyFor h hg hne]

/-! ## Moving packets -/

/-- A step that may move packets between queues but leaves the rest of the state alone. -/
structure Moves (f f' : Forwarder) (acts : List ForwardAction) : Prop where
  keeps : Keeps f f'
  classed : ∀ l priority q, q ∈ f'.queue l priority → q ∈ f.queue l priority ∨
    q.packet.header.priority = priority
  own : ∀ p ∈ delivered acts, p.header.destination = f.me

theorem Moves.refl (f : Forwarder) (h : delivered acts = []) : Moves f f acts :=
  ⟨.refl f, fun _ _ _ hq => .inl hq, by simp [h]⟩

theorem Moves.trans {f f1 f2 : Forwarder} {a b : List ForwardAction} (h1 : Moves f f1 a)
    (h2 : Moves f1 f2 b) : Moves f f2 (a ++ b) := by
  refine ⟨h1.keeps.trans h2.keeps, ?_, ?_⟩
  · intro l priority q hq
    rcases h2.classed l priority q hq with hq | hq
    · exact h1.classed l priority q hq
    · exact .inr hq
  · intro p hp
    rw [delivered_append, List.mem_append] at hp
    rcases hp with hp | hp
    · exact h1.own p hp
    · rw [h2.own p hp, h1.keeps.me]

theorem Branched.moves {bs : List (LinkId × ForwardPacket)} (h : Branched f incoming bs f' acts) :
    Moves f f' acts := by
  refine ⟨h.keeps, ?_, by simp [h.delivered]⟩
  intro l priority q hq
  rcases h.sub l priority q hq with hq | ⟨b, -, rfl, rfl⟩
  · exact .inl hq
  · exact .inr rfl

theorem localActs_moves {f : Forwarder} (h : accepted packet = some ds)
    (hhere : ∀ d, fates d = .here ↔ d = f.me) : Moves f f (f.localActs fates packet ds) := by
  refine ⟨.refl f, fun _ _ _ hq => .inl hq, ?_⟩
  rw [localActs, Split.of_deliverLocal]
  rcases group_here (accepted_nodup h) hhere with hg | hg
  · simp [hg]
  · have hmem : f.me ∈ ds := by
      have : f.me ∈ Split.group fates ds .here := by simp [hg]
      exact (Split.mem_group.mp this).1
    simp [hg, localOf_destination h hmem]

theorem delivered_dropActs (reason : DropReason) (packet : ForwardPacket) (g : List NodeId) :
    delivered (dropActs reason packet g) = [] := by
  rw [dropActs]
  split <;> rfl

/-- Packets without a conflation key replace nothing. -/
theorem replacements_eq_nil {f : Forwarder} {link : LinkId}
    (h : ConflationKey.fromPacket packet = none) : f.replacements link packet = [] := by
  simp [replacements, LinkQueues.victim, h]

theorem Branched.conflated_same {ttl : UInt8}
    (h : Branched f incoming (branches fates packet ds ttl) f' acts)
    (hkey : ConflationKey.fromPacket packet = none) : f'.conflated = f.conflated := by
  rw [h.conflated, List.append_right_eq_self, List.flatMap_eq_nil_iff]
  rintro ⟨link, p⟩ hb
  obtain ⟨-, rfl⟩ := mem_branches.mp hb
  exact replacements_eq_nil (by rw [copyFor_key, hkey])

/-! ## Processing a packet -/

theorem processPacket_moves (h : f.processPacket incoming packet = some (f', acts)) :
    Moves f f' acts := by
  rcases processPacket_cases h with ⟨reason, -, -, rfl, rfl⟩ | ⟨ds, out, -, hds, hout, rfl⟩
  · exact .refl f' rfl
  · exact (((localActs_moves hds fun _ => fate_here).trans
      (.refl f (delivered_dropActs _ _ _))).trans (.refl f (delivered_dropActs _ _ _))).trans
      (enqueueAll_spec branches_keys_nodup hout).moves

theorem processPacket_conflated (h : f.processPacket incoming packet = some (f', acts))
    (hkey : ConflationKey.fromPacket packet = none) : f'.conflated = f.conflated := by
  rcases processPacket_cases h with ⟨reason, -, -, rfl, -⟩ | ⟨ds, out, -, -, hout, -⟩
  · rfl
  · exact (enqueueAll_spec branches_keys_nodup hout).conflated_same hkey

theorem pred_toNat_succ {ttl : UInt8} (h : ttl ≠ 0) : (ttl - 1).toNat + 1 = ttl.toNat := by
  have hne : ttl.toNat ≠ 0 := fun h0 => h (UInt8.toNat_inj.mp h0)
  have hle : (1 : UInt8) ≤ ttl := by
    rw [UInt8.le_iff_toNat_le]
    exact Nat.one_le_iff_ne_zero.mpr hne
  rw [UInt8.toNat_sub_of_le _ _ hle]
  have : (1 : UInt8).toNat = 1 := rfl
  omega

/-- The lives of a packet are those of its groups. -/
theorem lives_split (fates : NodeId → Fate) (ds : List NodeId) (k : ForwardPacket) (ttl : ℕ) :
    lives k (Split.group fates ds .here) ttl + lives k (Split.of fates ds).noRoute ttl +
      lives k (Split.of fates ds).looped ttl +
      lives k (OrdMap.total (fun _ (l : List NodeId) => (l : Multiset NodeId))
        (Split.of fates ds).byLink) ttl = lives k ds ttl := by
  rw [← lives_add, ← lives_add, ← lives_add, Split.total_of]

theorem processPacket_balanced (h : f.processPacket incoming packet = some (f', acts)) :
    Balanced f (arrivingOf packet) f' acts := by
  rcases processPacket_cases h with ⟨reason, -, -, rfl, rfl⟩ | ⟨ds, out, httl, hds, hout, rfl⟩
  · exact .refuse rfl rfl rfl rfl
  · have hbranches := (enqueueAll_spec branches_keys_nodup hout).balanced
    rw [heldOf_branches hds, pred_toNat_succ httl] at hbranches
    have hlocal : Balanced f (lives (ident packet) (Split.group (f.fate incoming) ds .here)
        packet.header.ttl.toNat) f (f.localActs (f.fate incoming) packet ds) :=
      localActs_balanced _ hds fun _ => fate_here
    have hall := ((hlocal.seq (dropActs_balanced .noRoute packet.header.ttl.toNat hds
      (Split.noRoute_sublist (f.fate incoming) ds))).seq (dropActs_balanced .loopDetected
      packet.header.ttl.toNat hds (Split.looped_sublist (f.fate incoming) ds))).seq hbranches
    rw [lives_split, accepted_coe hds] at hall
    exact hall

/-! ## Rerouting -/

/-- Packets taken out of a queue are put into other queues, except for what is `left`: packets for
recipients that have no other link. -/
structure Rerouted (f : Forwarder) (packets : List QueuedPacket) (f' : Forwarder)
    (acts : List ForwardAction) (left : List QueuedPacket) : Prop where
  moves : Moves f f' acts
  balanced : ∃ x, x + queueLives left = queueLives packets ∧ Balanced f x f' acts
  conflated : (∀ q ∈ packets, ConflationKey.fromPacket q.packet = none) →
    f'.conflated = f.conflated
  left : ∀ q ∈ left, ∃ p ∈ packets, q.incoming = p.incoming ∧
    q.packet.header.priority = p.packet.header.priority ∧
    ∀ r ∈ recipients q.packet, r ∈ recipients p.packet ∧ f.rerouteLink r q.incoming = none

theorem Keeps.rerouteLink (h : Keeps f f') (d : NodeId) (incoming : Option LinkId) :
    f'.rerouteLink d incoming = f.rerouteLink d incoming := by
  simp only [Forwarder.rerouteLink, h.routes, h.downLinks]

theorem Rerouted.nil (f : Forwarder) : Rerouted f [] f [] [] :=
  ⟨.refl f rfl, ⟨0, rfl, .refl f⟩, fun _ => rfl, by simp⟩

theorem Rerouted.append {f f1 f2 : Forwarder} {p1 p2 l1 l2 : List QueuedPacket}
    {a b : List ForwardAction} (h1 : Rerouted f p1 f1 a l1) (h2 : Rerouted f1 p2 f2 b l2) :
    Rerouted f (p1 ++ p2) f2 (a ++ b) (l1 ++ l2) := by
  refine ⟨h1.moves.trans h2.moves, ?_, ?_, ?_⟩
  · obtain ⟨x, hx, hb1⟩ := h1.balanced
    obtain ⟨y, hy, hb2⟩ := h2.balanced
    refine ⟨x + y, ?_, hb1.seq hb2⟩
    rw [queueLives_append, queueLives_append, ← hx, ← hy]
    abel
  · intro hkey
    rw [h2.conflated fun q hq => hkey q (List.mem_append_right _ hq),
      h1.conflated fun q hq => hkey q (List.mem_append_left _ hq)]
  · intro q hq
    rcases List.mem_append.mp hq with hq | hq
    · obtain ⟨p, hp, h⟩ := h1.left q hq
      exact ⟨p, List.mem_append_left _ hp, h⟩
    · obtain ⟨p, hp, hin, hpr, hrec⟩ := h2.left q hq
      refine ⟨p, List.mem_append_right _ hp, hin, hpr, fun r hr => ?_⟩
      rw [← h1.moves.keeps.rerouteLink]
      exact hrec r hr

theorem leftOver_lives {queued : QueuedPacket} (h : accepted queued.packet = some ds) :
    queueLives (leftOver fates queued ds) = lives (ident queued.packet)
      (Split.of fates ds).noRoute (queued.packet.header.ttl.toNat + 1) := by
  rw [leftOver, Split.of_noRoute]
  by_cases hg : Split.group fates ds .noRoute = []
  · simp [hg]
  · rw [if_neg (by simp [hg])]
    simp [heldOf_copyFor h (Split.group_sublist _ _) hg]

theorem reroute_looped (f : Forwarder) (incoming : Option LinkId) (ds : List NodeId) :
    (Split.of (f.rerouteFate incoming) ds).looped = [] := by
  rw [Split.of_looped, List.eq_nil_iff_forall_not_mem]
  intro d hd
  exact f.rerouteFate_ne_looped incoming d (Split.mem_group.mp hd).2

theorem rerouteQueued_spec {queued : QueuedPacket} {left : List QueuedPacket}
    (h : f.rerouteQueued queued = some (f', acts, left)) : Rerouted f [queued] f' acts left := by
  rcases rerouteQueued_cases h with ⟨reason, -, -, rfl, rfl, rfl⟩ | ⟨ds, out, hds, hout, rfl, rfl⟩
  · exact ⟨.refl f' rfl, ⟨heldOf queued.packet, by simp, .refuse rfl rfl rfl rfl⟩,
      fun _ => rfl, by simp⟩
  · have hbranched := enqueueAll_spec branches_keys_nodup hout
    refine ⟨(localActs_moves hds fun _ => rerouteFate_here).trans hbranched.moves, ?_, ?_, ?_⟩
    · have hlocal : Balanced f (lives (ident queued.packet)
          (Split.group (f.rerouteFate queued.incoming) ds .here)
          (queued.packet.header.ttl.toNat + 1)) f
          (f.localActs (f.rerouteFate queued.incoming) queued.packet ds) :=
        localActs_balanced _ hds fun _ => rerouteFate_here
      refine ⟨_, ?_, hlocal.seq hbranched.balanced⟩
      have hsplit := lives_split (f.rerouteFate queued.incoming) ds (ident queued.packet)
        (queued.packet.header.ttl.toNat + 1)
      rw [reroute_looped] at hsplit
      rw [heldOf_branches hds, leftOver_lives hds, queueLives_cons, queueLives_nil, add_zero,
        heldOf, ← accepted_coe hds, ← hsplit]
      simp only [Multiset.coe_nil, lives_zero]
      abel
    · intro hkey
      exact hbranched.conflated_same (hkey queued List.mem_cons_self)
    · intro q hq
      rw [leftOver] at hq
      split at hq
      · simp at hq
      · rename_i hne
        rw [List.mem_singleton] at hq
        subst hq
        rw [Split.of_noRoute] at hne ⊢
        refine ⟨queued, List.mem_cons_self, rfl, copyFor_priority _ _ _, fun r hr => ?_⟩
        rw [recipients_copyFor hds (Split.group_sublist _ _) (by simpa using hne)] at hr
        obtain ⟨hmem, hfate⟩ := Split.mem_group.mp hr
        refine ⟨?_, rerouteFate_noRoute hfate⟩
        rw [← Multiset.mem_coe, ← accepted_coe hds]
        exact hmem

theorem rerouteBatch_spec : ∀ {packets : List QueuedPacket} {f f' : Forwarder}
    {acts : List ForwardAction} {left : List QueuedPacket},
    f.rerouteBatch packets = some (f', acts, left) → Rerouted f packets f' acts left := by
  intro packets
  induction packets with
  | nil =>
    intro f f' acts left h
    cases h
    exact .nil f
  | cons queued packets ih =>
    intro f f' acts left h
    simp only [rerouteBatch, bind, Option.bind_eq_some_iff] at h
    obtain ⟨⟨f1, routed, unresolved⟩, h1, ⟨f2, actions, remaining⟩, h2, heq⟩ := h
    cases heq
    exact (rerouteQueued_spec h1).append (ih h2)

theorem dropQueuedPackets_balanced (f : Forwarder) (reason : DropReason) :
    ∀ packets : List QueuedPacket,
      Balanced f (queueLives packets) f (dropQueuedPackets packets reason) := by
  intro packets
  induction packets with
  | nil => exact .refl f
  | cons q packets ih =>
    have hq : Balanced f (heldOf q.packet) f [.drop reason q.packet] := .refuse rfl rfl rfl rfl
    rw [queueLives_cons]
    exact hq.seq ih

theorem delivered_dropQueuedPackets (packets : List QueuedPacket) (reason : DropReason) :
    delivered (dropQueuedPackets packets reason) = [] := by
  induction packets with
  | nil => rfl
  | cons q packets ih => exact ih

/-- What is left of a reroute may be dropped. -/
theorem Rerouted.dropLeft {packets left : List QueuedPacket} (h : Rerouted f packets f' acts left)
    (reason : DropReason) : Rerouted f packets f' (acts ++ dropQueuedPackets left reason) [] := by
  refine ⟨h.moves.trans (.refl f' (delivered_dropQueuedPackets _ _)), ?_, h.conflated, by simp⟩
  obtain ⟨x, hx, hb⟩ := h.balanced
  exact ⟨_, by rw [hx]; simp, hb.seq (dropQueuedPackets_balanced f' reason left)⟩

theorem rerouteOrDrop_all : ∀ {packets : List QueuedPacket} {f f' : Forwarder}
    {acts : List ForwardAction}, emitAll rerouteOrDrop f packets = some (f', acts) →
    Rerouted f packets f' acts [] := by
  intro packets
  induction packets with
  | nil =>
    intro f f' acts h
    cases h
    exact .nil f
  | cons q packets ih =>
    intro f f' acts h
    obtain ⟨f1, out, rest, h1, h2, rfl⟩ := emitAll_cons_inv h
    simp only [rerouteOrDrop, bind, Option.bind_eq_some_iff] at h1
    obtain ⟨⟨f2, routed, unresolved⟩, h1, heq⟩ := h1
    cases heq
    exact ((rerouteQueued_spec h1).dropLeft .linkDown).append (ih h2)

end Forwarder
end Forward
end MeshBus
