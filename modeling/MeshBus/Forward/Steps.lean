import MeshBus.Forward.Split

/-!
# Forward.Steps

What the functions of the forwarder do, one statement per function: which state they leave alone,
what they add to the conflation log, which packets they refuse, which packets can be queued
afterwards, and that they are balanced.
-/

namespace MeshBus
namespace Forward

open Wire

namespace Forwarder

variable {f f' : Forwarder} {link : LinkId} {packet : ForwardPacket} {incoming : Option LinkId}
  {acts : List ForwardAction}

/-- Only link queues and the conflation log may differ. -/
structure Keeps (f f' : Forwarder) : Prop where
  me : f'.me = f.me
  routes : f'.routes = f.routes
  downLinks : f'.downLinks = f.downLinks
  pendingP0 : f'.pendingP0 = f.pendingP0
  nextPendingGeneration : f'.nextPendingGeneration = f.nextPendingGeneration

theorem Keeps.refl (f : Forwarder) : Keeps f f := ⟨rfl, rfl, rfl, rfl, rfl⟩

theorem Keeps.trans {f f1 f2 : Forwarder} (h1 : Keeps f f1) (h2 : Keeps f1 f2) : Keeps f f2 where
  me := h2.me.trans h1.me
  routes := h2.routes.trans h1.routes
  downLinks := h2.downLinks.trans h1.downLinks
  pendingP0 := h2.pendingP0.trans h1.pendingP0
  nextPendingGeneration := h2.nextPendingGeneration.trans h1.nextPendingGeneration

theorem queue_insert (f : Forwarder) (link l : LinkId) (state : LinkQueues) (priority : Priority) :
    queue { f with links := f.links.insert link state } l priority =
      if link = l then state.queues priority else f.queue l priority := by
  simp only [queue, linkState, OrdMap.get_insert]
  split <;> rfl

theorem queue_insert_self (f : Forwarder) (link : LinkId) (state : LinkQueues)
    (priority : Priority) :
    queue { f with links := f.links.insert link state } link priority = state.queues priority := by
  rw [queue_insert, if_pos rfl]

theorem queue_insert_ne (f : Forwarder) {link l : LinkId} (state : LinkQueues) (h : l ≠ link)
    (priority : Priority) :
    queue { f with links := f.links.insert link state } l priority = f.queue l priority := by
  rw [queue_insert, if_neg (Ne.symm h)]

/-- A new state of a link with the queues it has changes no queue. -/
theorem queue_setLink {f : Forwarder} {state : LinkQueues}
    (hqueues : state.queues = (f.linkState link).queues) (l : LinkId) (priority : Priority) :
    queue { f with links := f.links.insert link state } l priority = f.queue l priority := by
  rw [queue_insert]
  split
  · rename_i heq
    rw [← heq, hqueues]
    rfl
  · rfl

/-! ## Sending -/

/-- `try_send_one` takes at most one head from the queues of its link, and sends it. -/
structure Tried (f : Forwarder) (link : LinkId) (f' : Forwarder) (acts : List ForwardAction) :
    Prop where
  keeps : Keeps f f'
  conflated : f'.conflated = f.conflated
  others : ∀ l, l ≠ link → ∀ priority, f'.queue l priority = f.queue l priority
  sub : ∀ priority q, q ∈ f'.queue link priority → q ∈ f.queue link priority
  balanced : Balanced f 0 f' acts
  onlySends : delivered acts = [] ∧ refused acts = []

theorem trySendOne_tried (h : f.trySendOne link = some (f', acts)) : Tried f link f' acts := by
  simp only [trySendOne] at h
  split at h
  · cases h
    exact ⟨.refl f, rfl, fun _ _ _ => rfl, fun _ _ hq => hq, .refl f, rfl, rfl⟩
  · rename_i state hstate
    split at h
    · cases h
    · rename_i state' sent hsent
      cases h
      have hlink : f.linkState link = state := by rw [linkState, hstate]; rfl
      have hheld := heldLives_insert f link state'
      rw [hlink] at hheld
      refine ⟨⟨rfl, rfl, rfl, rfl, rfl⟩, rfl, ?_, ?_, ?_, ?_⟩
      · intro l hl priority
        rw [queue_insert, if_neg (Ne.symm hl)]
      · intro priority q hq
        rw [queue_insert, if_pos rfl] at hq
        rw [queue, hlink]
        cases LinkQueues.trySendOne_spec hsent with
        | nothing same => rwa [same] at hq
        | head pr queued rest front popped =>
          rw [popped] at hq
          by_cases hpr : priority = pr
          · subst hpr
            rw [Function.update_self] at hq
            rw [front]
            exact List.mem_cons_of_mem _ hq
          · rwa [Function.update_of_ne hpr] at hq
      · cases LinkQueues.trySendOne_spec hsent with
        | nothing same =>
          refine Balanced.of_same ?_ rfl
          rw [LinkQueues.lives_congr same] at hheld
          exact add_right_cancel hheld
        | head pr queued rest front popped =>
          refine ⟨0, ?_, by simp [deliveredTokens, refusedTokens]⟩
          have hlives := LinkQueues.lives_update popped
          rw [front, queueLives_cons] at hlives
          have hsentOne : sentLives (((some queued).map fun queued =>
              ForwardAction.send link queued.packet).toList) = heldOf queued.packet := by
            simp [sentLives]
          rw [hsentOne]
          refine add_right_cancel (b := state.lives + queueLives rest) ?_
          calc heldLives { f with links := f.links.insert link state' } + heldOf queued.packet + 0 +
                (state.lives + queueLives rest)
              = heldLives { f with links := f.links.insert link state' } + state.lives +
                (heldOf queued.packet + queueLives rest) := by abel
            _ = heldLives f + (state'.lives + (heldOf queued.packet + queueLives rest)) := by
                rw [hheld]; abel
            _ = heldLives f + 0 + (state.lives + queueLives rest) := by rw [hlives]; abel
      · cases sent <;> simp

/-! ## Enqueueing -/

/-- The queue of the packet's class is at its limit and no queued packet gives way. -/
def Full (f : Forwarder) (link : LinkId) (packet : ForwardPacket) : Prop :=
  (f.linkState link).victim packet = none ∧
    queueLimitPackets packet.header.priority ≤ (f.queue link packet.header.priority).length

instance (f : Forwarder) (link : LinkId) (packet : ForwardPacket) :
    Decidable (f.Full link packet) := inferInstanceAs (Decidable (_ ∧ _))

/-- What `enqueue` appends to the conflation log. -/
def replacements (f : Forwarder) (link : LinkId) (packet : ForwardPacket) : List Replacement :=
  if link ∈ f.downLinks then []
  else ((f.linkState link).victim packet).toList.map fun old => ⟨link, old.packet, packet⟩

structure Enqueued (f : Forwarder) (link : LinkId) (packet : ForwardPacket)
    (incoming : Option LinkId) (f' : Forwarder) (acts : List ForwardAction) : Prop where
  keeps : Keeps f f'
  conflated : f'.conflated = f.conflated ++ f.replacements link packet
  others : ∀ l, l ≠ link → ∀ priority, f'.queue l priority = f.queue l priority
  sub : ∀ priority q, q ∈ f'.queue link priority → q ∈ f.queue link priority ∨
    (priority = packet.header.priority ∧ q = ⟨incoming, packet⟩)
  balanced : Balanced f (heldOf packet) f' acts
  refused : refused acts = if link ∈ f.downLinks ∨ f.Full link packet then [packet] else []
  delivered : delivered acts = []

/-- Storing the packet, then trying to send. -/
theorem Enqueued.of_tried {state : LinkQueues} (log : List Replacement) (hup : link ∉ f.downLinks)
    (hfull : ¬ f.Full link packet) (hlog : log = f.replacements link packet)
    (hsub : ∀ priority q, q ∈ state.queues priority → q ∈ f.queue link priority ∨
      (priority = packet.header.priority ∧ q = ⟨incoming, packet⟩))
    (hlives : state.lives + (log.map fun r => heldOf r.replaced).sum =
      (f.linkState link).lives + heldOf packet)
    (h : Tried { f with links := f.links.insert link state, conflated := f.conflated ++ log } link
      f' acts) : Enqueued f link packet incoming f' acts := by
  have hkeeps : Keeps f { f with
      links := f.links.insert link state, conflated := f.conflated ++ log } :=
    ⟨rfl, rfl, rfl, rfl, rfl⟩
  have hheld := heldLives_insert f link state
  refine ⟨hkeeps.trans h.keeps, by rw [h.conflated, hlog], ?_, ?_, ?_, ?_, h.onlySends.1⟩
  · intro l hl priority
    rw [h.others l hl, ← queue_insert_ne f state hl]
    rfl
  · intro priority q hq
    have hq' := h.sub priority q hq
    refine hsub priority q ?_
    rw [← queue_insert_self f link state]
    exact hq'
  · -- The packet's lives come in, those of the replaced packet are gone.
    have hstore : Balanced f (heldOf packet) { f with
        links := f.links.insert link state, conflated := f.conflated ++ log } [] := by
      refine ⟨(log.map fun r => heldOf r.replaced).sum, ?_, ?_⟩
      · refine add_right_cancel (b := (f.linkState link).lives) ?_
        calc heldLives { f with links := f.links.insert link state } + sentLives [] +
              (log.map fun r => heldOf r.replaced).sum + (f.linkState link).lives
            = heldLives { f with links := f.links.insert link state } + (f.linkState link).lives +
              (log.map fun r => heldOf r.replaced).sum := by simp only [sentLives]; simp; abel
          _ = heldLives f + (state.lives + (log.map fun r => heldOf r.replaced).sum) := by
              rw [hheld]; abel
          _ = heldLives f + heldOf packet + (f.linkState link).lives := by rw [hlives]; abel
      · simp [deliveredTokens, refusedTokens, map_fst_replaced]
    have := hstore.seq h.balanced
    simpa using this
  · rw [h.onlySends.2, if_neg]
    rintro (hd | hf)
    · exact hup hd
    · exact hfull hf

theorem enqueue_spec (h : f.enqueue link packet incoming = some (f', acts)) :
    Enqueued f link packet incoming f' acts := by
  simp only [enqueue] at h
  split at h
  · rename_i hdown
    cases h
    refine ⟨.refl f, by simp [replacements, hdown], fun _ _ _ => rfl, fun _ _ hq => .inl hq, ?_, ?_,
      rfl⟩
    · exact .refuse rfl rfl rfl rfl
    · rw [if_pos (.inl hdown)]
      rfl
  · rename_i hup
    split at h
    · rename_i state' old hconf
      obtain ⟨hvictim, pre, post, hqueue, hqueues⟩ := LinkQueues.conflate_some hconf
      have hlives := LinkQueues.lives_update hqueues
      rw [hqueue] at hlives
      refine Enqueued.of_tried _ hup (fun hf => ?_) ?_ ?_ ?_ (trySendOne_tried h)
      · rw [Full, hvictim] at hf
        cases hf.1
      · simp [replacements, hup, hvictim]
      · intro priority q hq
        rw [hqueues] at hq
        by_cases hpr : priority = packet.header.priority
        · subst hpr
          rw [Function.update_self] at hq
          rw [queue, hqueue]
          simp only [List.mem_append, List.mem_cons] at hq ⊢
          rcases hq with hq | rfl | hq
          · exact .inl (.inl hq)
          · exact .inr ⟨trivial, rfl⟩
          · exact .inl (.inr (.inr hq))
        · rw [Function.update_of_ne hpr] at hq
          exact .inl hq
      · simp only [queueLives_append, queueLives_cons] at hlives
        simp only [List.map_cons, List.map_nil, List.sum_cons, List.sum_nil, add_zero]
        refine add_right_cancel (b := queueLives pre + queueLives post) ?_
        calc state'.lives + heldOf old.packet + (queueLives pre + queueLives post)
            = state'.lives + (queueLives pre + (heldOf old.packet + queueLives post)) := by abel
          _ = (f.linkState link).lives + (queueLives pre + (heldOf packet + queueLives post)) :=
              hlives
          _ = _ := by abel
    · rename_i hconf
      have hnone := LinkQueues.conflate_none.mp hconf
      split at h
      · rename_i hfull
        cases h
        obtain ⟨act, hact, hsent, hdel, href⟩ : ∃ act,
            (if packet.header.priority = .p0 then [ForwardAction.backpressure link packet]
              else [.drop (.queueFull packet.header.priority) packet]) = [act] ∧
            sent [act] = [] ∧ Forward.delivered [act] = [] ∧ Forward.refused [act] = [packet] := by
          split
          · exact ⟨_, rfl, rfl, rfl, rfl⟩
          · exact ⟨_, rfl, rfl, rfl, rfl⟩
        rw [hact]
        have hsame : Balanced f 0 { f with links := f.links.insert link (f.linkState link) } [] :=
          .of_same (add_right_cancel (heldLives_insert f link (f.linkState link))) rfl
        refine ⟨⟨rfl, rfl, rfl, rfl, rfl⟩, ?_, ?_, ?_, ?_, ?_, hdel⟩
        · rw [replacements, hnone, if_neg hup]
          simp
        · exact fun l hl priority => queue_insert_ne f _ hl priority
        · intro priority q hq
          rw [queue_insert_self] at hq
          exact .inl hq
        · have hrefuse : Balanced { f with links := f.links.insert link (f.linkState link) }
              (heldOf packet) { f with links := f.links.insert link (f.linkState link) } [act] :=
            .refuse hsent hdel href rfl
          have h := hsame.seq hrefuse
          rw [zero_add] at h
          exact h
        · rw [if_pos (.inr ⟨hnone, hfull⟩), href]
      · rename_i hroom
        have hpush : ((f.linkState link).pushBack ⟨incoming, packet⟩).queues =
            Function.update (f.linkState link).queues packet.header.priority
              ((f.linkState link).queues packet.header.priority ++ [⟨incoming, packet⟩]) := rfl
        have hlives := LinkQueues.lives_update hpush
        have hstored : ((f.linkState link).pushBack ⟨incoming, packet⟩).lives =
            (f.linkState link).lives + heldOf packet := by
          simp only [queueLives_append, queueLives_cons, queueLives_nil, add_zero] at hlives
          refine add_right_cancel
            (b := queueLives ((f.linkState link).queues packet.header.priority)) ?_
          rw [hlives]
          abel
        have htried := trySendOne_tried h
        have hlog : f.conflated = f.conflated ++ [] := (List.append_nil _).symm
        refine Enqueued.of_tried [] hup (fun hf => hroom hf.2) ?_ ?_ ?_
          (show Tried { f with
            links := f.links.insert link ((f.linkState link).pushBack ⟨incoming, packet⟩)
            conflated := f.conflated ++ [] } link f' acts by rw [← hlog]; exact htried)
        · rw [replacements, hnone, if_neg hup]
          rfl
        · intro priority q hq
          rw [hpush] at hq
          by_cases hpr : priority = packet.header.priority
          · subst hpr
            rw [Function.update_self, List.mem_append, List.mem_singleton] at hq
            exact hq.imp id fun hq => ⟨rfl, hq⟩
          · rw [Function.update_of_ne hpr] at hq
            exact .inl hq
        · rw [hstored]
          simp

/-! ## The branches of a packet -/

/-- What `enqueue` refuses of one branch. -/
def refusals (f : Forwarder) (branch : LinkId × ForwardPacket) : List ForwardPacket :=
  if branch.1 ∈ f.downLinks ∨ f.Full branch.1 branch.2 then [branch.2] else []

/-- One `enqueue` per branch, on pairwise different links. -/
structure Branched (f : Forwarder) (incoming : Option LinkId)
    (branches : List (LinkId × ForwardPacket)) (f' : Forwarder) (acts : List ForwardAction) :
    Prop where
  keeps : Keeps f f'
  conflated : f'.conflated = f.conflated ++ branches.flatMap fun b => f.replacements b.1 b.2
  sub : ∀ l priority q, q ∈ f'.queue l priority → q ∈ f.queue l priority ∨
    ∃ b ∈ branches, priority = b.2.header.priority ∧ q = ⟨incoming, b.2⟩
  balanced : Balanced f (branches.map fun b => heldOf b.2).sum f' acts
  refused : Forward.refused acts = branches.flatMap f.refusals
  delivered : Forward.delivered acts = []

/-- The effect of `enqueue` on a link depends on the queues of that link only. -/
theorem victim_congr (h : f'.queue link = f.queue link) (packet : ForwardPacket) :
    (f'.linkState link).victim packet = (f.linkState link).victim packet := by
  have hqueues : (f'.linkState link).queues = (f.linkState link).queues := h
  simp only [LinkQueues.victim, hqueues]

theorem Enqueued.replacements_eq (h : Enqueued f link packet incoming f' acts) {l : LinkId}
    (hl : l ≠ link) (p : ForwardPacket) : f'.replacements l p = f.replacements l p := by
  simp only [replacements, h.keeps.downLinks, victim_congr (funext (h.others l hl))]

theorem Enqueued.refusals_eq (h : Enqueued f link packet incoming f' acts)
    {branch : LinkId × ForwardPacket} (hl : branch.1 ≠ link) :
    f'.refusals branch = f.refusals branch := by
  have hfull : f'.Full branch.1 branch.2 ↔ f.Full branch.1 branch.2 := by
    simp only [Full, victim_congr (funext (h.others _ hl)), h.others _ hl]
  simp only [refusals, h.keeps.downLinks, hfull]

theorem enqueueAll_spec : ∀ {branches : List (LinkId × ForwardPacket)}
    {f f' : Forwarder} {acts : List ForwardAction}, (branches.map Prod.fst).Nodup →
    f.enqueueAll incoming branches = some (f', acts) → Branched f incoming branches f' acts := by
  intro branches
  induction branches with
  | nil =>
    intro f f' acts _ h
    cases h
    exact ⟨.refl f, by simp, fun _ _ _ hq => .inl hq, .refl f, rfl, rfl⟩
  | cons b branches ih =>
    intro f f' acts hnodup h
    obtain ⟨f1, out, rest, h1, h2, rfl⟩ := emitAll_cons_inv h
    have hb := enqueue_spec h1
    rw [List.map_cons, List.nodup_cons] at hnodup
    have hrest := ih hnodup.2 h2
    -- The other branches find their links as they were.
    have hne : ∀ c ∈ branches, c.1 ≠ b.1 := by
      intro c hc heq
      exact hnodup.1 (heq ▸ List.mem_map_of_mem hc)
    refine ⟨hb.keeps.trans hrest.keeps, ?_, ?_, ?_, ?_, ?_⟩
    · have hsame : branches.flatMap (fun c => f1.replacements c.1 c.2) =
          branches.flatMap fun c => f.replacements c.1 c.2 :=
        List.flatMap_congr fun c hc => hb.replacements_eq (hne c hc) c.2
      rw [hrest.conflated, hb.conflated, hsame, List.flatMap_cons, List.append_assoc]
    · intro l priority q hq
      rcases hrest.sub l priority q hq with hq | ⟨c, hc, hpr, rfl⟩
      · by_cases hl : l = b.1
        · subst hl
          rcases hb.sub priority q hq with hq | ⟨hpr, rfl⟩
          · exact .inl hq
          · exact .inr ⟨b, List.mem_cons_self, hpr, rfl⟩
        · rw [hb.others l hl] at hq
          exact .inl hq
      · exact .inr ⟨c, List.mem_cons_of_mem _ hc, hpr, rfl⟩
    · rw [List.map_cons, List.sum_cons]
      exact hb.balanced.seq hrest.balanced
    · have hsame : branches.flatMap f1.refusals = branches.flatMap f.refusals :=
        List.flatMap_congr fun c hc => hb.refusals_eq (hne c hc)
      rw [refused_append, hb.refused, hrest.refused, hsame, List.flatMap_cons, refusals]
    · rw [delivered_append, hb.delivered, hrest.delivered]
      rfl

end Forwarder
end Forward
end MeshBus
