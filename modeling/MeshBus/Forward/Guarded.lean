import MeshBus.Forward.Enqueues

/-!
# Forward.Guarded

A forwarder whose packets can only leave on links of a given set: every next hop of its table is in
the set or among its failed links, and whatever waits, waits for a link of the set. Every event
keeps this, for the set the event leaves.
-/

namespace MeshBus
namespace Forward

open Wire

namespace Forwarder

/-- What makes the forwarder send on links of `up` only. -/
structure Guarded (up : LinkId → Prop) (f : Forwarder) : Prop where
  routes : ∀ d r, f.routes.get d = some r → up r.nextHop ∨ r.nextHop ∈ f.downLinks
  queued : ∀ l priority, f.queue l priority ≠ [] → up l

variable {up : LinkId → Prop}

theorem Guarded.mono {f : Forwarder} (hf : f.Guarded up) {up' : LinkId → Prop}
    (h : ∀ l, up l → up' l) : f.Guarded up' :=
  ⟨fun d r hr => (hf.routes d r hr).imp_left (h _),
    fun l priority hne => h l (hf.queued l priority hne)⟩

theorem Guarded.up_of_offers {f : Forwarder} (hf : f.Guarded up) {link : LinkId}
    (h : f.Offers link) : up link := by
  obtain ⟨hup, d, r, hroute, rfl⟩ := h
  exact (hf.routes d r hroute).resolve_right hup

theorem Enqueues.guarded {P : ForwardPacket → Prop} {f f' : Forwarder}
    {sent : List (LinkId × ForwardPacket)} (h : Enqueues P f sent f') (hf : f.Guarded up) :
    f'.Guarded up ∧ ∀ x ∈ sent, up x.1 := by
  induction h with
  | refl => exact ⟨hf, by simp⟩
  | park links routes downLinks parks _ ih =>
    refine ih ⟨?_, ?_⟩
    · rw [routes, downLinks]
      exact hf.routes
    · intro l priority hne
      rw [queue, linkState, links] at hne
      exact hf.queued l priority hne
  | @enqueue f f1 f2 link packet incoming acts sent offered ok h _ ih =>
    have henq := enqueue_spec h
    have hup := hf.up_of_offers offered
    have hf1 : f1.Guarded up := by
      refine ⟨?_, ?_⟩
      · rw [henq.keeps.routes, henq.keeps.downLinks]
        exact hf.routes
      · intro l priority hne
        by_cases hl : l = link
        · exact hl ▸ hup
        · rw [henq.others l hl] at hne
          exact hf.queued l priority hne
    obtain ⟨hf2, hsent⟩ := ih hf1
    refine ⟨hf2, fun x hx => ?_⟩
    rcases List.mem_append.mp hx with hx | hx
    · rw [(enqueue_sentOn h x hx).1]
      exact hup
    · exact hsent x hx

theorem Guarded.tried {f f' : Forwarder} {link : LinkId} {acts : List ForwardAction}
    (hf : f.Guarded up) (h : Tried f link f' acts) : f'.Guarded up := by
  refine ⟨?_, ?_⟩
  · rw [h.keeps.routes, h.keeps.downLinks]
    exact hf.routes
  · intro l priority hne
    obtain ⟨q, hq⟩ := List.exists_mem_of_ne_nil _ hne
    refine hf.queued l priority ?_
    by_cases hl : l = link
    · subst hl
      exact List.ne_nil_of_mem (h.sub priority q hq)
    · rwa [h.others l hl] at hne

theorem handle_guarded {now : MonoTime} {f f' : Forwarder} {event : ForwardEvent}
    {acts : List ForwardAction} (hf : (f.prepared event).Guarded up)
    (h : f.handle now event = some (f', acts)) :
    f'.Guarded up ∧ ∀ x ∈ sentOn acts, up x.1 := by
  cases hgrants : grants event with
  | false =>
    have hall : Holds (fun _ => True) f := ⟨fun _ _ _ _ => trivial, fun _ _ _ _ _ => trivial⟩
    exact (handle_enqueues (fun _ _ _ _ _ _ _ _ => trivial) hall
      (fun _ _ _ _ _ _ _ _ _ => trivial) hgrants h).guarded hf
  | true =>
    rw [prepared_of_grants hgrants] at hf
    obtain ⟨link, htried, hsent⟩ := handle_grant hgrants h
    refine ⟨hf.tried htried, fun x hx => ?_⟩
    obtain ⟨hlink, priority, q, hq, -⟩ := hsent x hx
    exact hlink ▸ hf.queued link priority (List.ne_nil_of_mem hq)

/-- Events that take no link away and bring no routes that name other links. -/
theorem emitAll_guarded {now : MonoTime} : ∀ {events : List ForwardEvent} {f f' : Forwarder}
    {acts : List ForwardAction}, (∀ e ∈ events, (∀ link, e ≠ .linkDown link) ∧
      ∀ table, e = .routesUpdated table → ∀ d r, table.get d = some r → up r.nextHop) →
    f.Guarded up → emitAll (fun f e => f.handle now e) f events = some (f', acts) →
    f'.Guarded up ∧ ∀ x ∈ sentOn acts, up x.1 := by
  intro events
  induction events with
  | nil =>
    intro f f' acts _ hf h
    cases h
    exact ⟨hf, by simp⟩
  | cons e events ih =>
    intro f f' acts hevents hf h
    obtain ⟨f1, out, rest, h1, h2, rfl⟩ := emitAll_cons_inv h
    obtain ⟨hdown, hroutes⟩ := hevents e List.mem_cons_self
    have hprep : (f.prepared e).Guarded up := by
      cases e with
      | routesUpdated table => exact ⟨fun d r hr => .inl (hroutes table rfl d r hr), hf.queued⟩
      | linkDown link => exact absurd rfl (hdown link)
      | outbound _ | outboundMulticast _ _ | inbound _ _ | linkCredit _ _ | linkWritable _
      | timer _ => exact hf
    obtain ⟨hf1, hout⟩ := handle_guarded hprep h1
    obtain ⟨hf2, hrest⟩ := ih (fun x hx => hevents x (List.mem_cons_of_mem _ hx)) hf1 h2
    refine ⟨hf2, fun x hx => ?_⟩
    rw [sentOn_append, List.mem_append] at hx
    exact hx.elim (hout x) (hrest x)

theorem Guarded.linkDown {f : Forwarder} (hf : f.Guarded up) (link : LinkId) :
    (f.prepared (.linkDown link)).Guarded fun l => up l ∧ l ≠ link := by
  refine ⟨?_, ?_⟩
  · intro d r hr
    by_cases heq : r.nextHop = link
    · exact .inr (heq ▸ Finset.mem_insert_self _ _)
    · exact (hf.routes d r hr).imp (fun h => ⟨h, heq⟩) Finset.mem_insert_of_mem
  · intro l priority hne
    by_cases heq : l = link
    · subst heq
      simp [prepared, queue, linkState] at hne
      exact absurd rfl hne
    · refine ⟨hf.queued l priority ?_, heq⟩
      rwa [queue, linkState, prepared, OrdMap.get_erase, if_neg (Ne.symm heq)] at hne

end Forwarder
end Forward

end MeshBus
