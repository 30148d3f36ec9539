import MeshBus.Control.Steps

/-!
# Control.Regular

What every state of a node looks like that some run leads to, for nodes that authenticate what
they send: active messages stand under their own origin and version and pass the verifier, the
database keeps its limit, and a node with a link has an LSA of its own.
-/

namespace MeshBus
namespace Control
namespace ControlPlane

/-- What the nodes of a mesh share of `LsaSigner` and `LsaVerifier`: a signed message carries the
LSA it was made for, and it is accepted. -/
structure Signs (signer : Lsa → LsaMessage) (verifier : LsaMessage → Bool) : Prop where
  lsa : ∀ lsa, (signer lsa).lsa = lsa
  accepted : ∀ lsa, verifier (signer lsa) = true

/-- A state some run of a node leads to. -/
def Reached (verifier : LsaMessage → Bool) (p : ControlPlane) : Prop :=
  ∃ me epoch lastSeq signer events acts, Signs signer verifier ∧
    (withAuthAndSeq me epoch lastSeq signer verifier).run events = some (p, acts)

/-- What such a state looks like. -/
structure Regular (verifier : LsaMessage → Bool) (p : ControlPlane) : Prop where
  signs : Signs p.signer verifier
  verifies : p.verifier = verifier
  placed : Placed p
  accepted : ∀ o m, p.stored o = some m → verifier m = true
  size_le : p.lsdb.size ≤ maxLsdbEntries
  own : ∀ link, link ∈ p.adjacencies → p.me ∈ p.lsdb

/-- No origin leaves the database. -/
theorem Effect.mem_lsdb {p q : ControlPlane} {now : MonoTime} {event : ControlEvent}
    {acts : List ControlAction} (h : Effect p now event q acts) {o : NodeId} (ho : o ∈ p.lsdb) :
    o ∈ q.lsdb := by
  cases h with
  | reply same quiet =>
    rw [same.lsdb]
    exact ho
  | originate mid prepared horig quiet =>
    rw [horig.same.lsdb, originated, prepared.lsdb]
    exact (OrdMap.mem_insert ..).mpr (.inr ho)
  | install link m received foreign newer room same quiet =>
    rw [same.lsdb]
    exact (OrdMap.mem_insert ..).mpr (.inr ho)
  | expire origin entry current expiry same quiet =>
    rw [same.lsdb]
    exact (OrdMap.mem_insert ..).mpr (.inr ho)

theorem Originates.mem_me {p q : ControlPlane} {now : MonoTime} {acts : List ControlAction}
    {verifier : LsaMessage → Bool} (h : Originates p now q acts) (hs : Signs p.signer verifier) :
    p.me ∈ q.lsdb := by
  rw [h.same.lsdb, originated]
  refine (OrdMap.mem_insert ..).mpr (.inl ?_)
  rw [nextMessage, hs.lsa]
  rfl

theorem Regular.step {verifier : LsaMessage → Bool} {p q : ControlPlane} {now : MonoTime}
    {event : ControlEvent} {acts : List ControlAction} (hp : Regular verifier p)
    (h : p.handle now event = some (q, acts)) : Regular verifier q := by
  have hout := handle_spec h
  have heffect := hout.effect
  obtain ⟨hme, -, hsigner, hverifier⟩ := heffect.same
  refine ⟨by rw [hsigner]; exact hp.signs, hverifier.trans hp.verifies, hp.placed.step heffect, ?_,
    heffect.size_le hp.size_le, ?_⟩
  · intro o m hm
    obtain hold | ⟨mid, acts', hprep, -, rfl⟩ | ⟨link, rfl⟩ := stored_step heffect hm
    · exact hp.accepted o m hold
    · rw [nextMessage, hprep.signer]
      exact hp.signs.accepted _
    · -- a message that is received is checked before it is stored
      cases hout with
      | lsa _ _ hr =>
        cases hr with
        | ignored | full | stale => exact hp.accepted o m hm
        | installed hlink hvalid hver hme' hnew hroom hsame hsent hquiet =>
          exact hp.verifies ▸ hver
  · intro link hlink
    rw [handle_adjacencies h] at hlink
    rw [hme]
    cases event with
    | linkUp l peer cost =>
      cases hout with
      | linkUp _ _ _ ho => exact ho.mem_me (p := { p with adjacencies := _ }) hp.signs
    | linkDown l => exact heffect.mem_lsdb (hp.own link ((OrdMap.mem_erase ..).mp hlink).2)
    | localTopicAdsChanged _ | frame _ _ | timer _ => exact heffect.mem_lsdb (hp.own link hlink)

theorem Reached.regular {verifier : LsaMessage → Bool} {p : ControlPlane}
    (h : Reached verifier p) : Regular verifier p := by
  obtain ⟨me, epoch, lastSeq, signer, events, acts, hsigns, hrun⟩ := h
  refine emitAll_inv (P := Regular verifier) (fun s x s' out hs hstep => hs.step hstep) ?_ hrun
  refine ⟨hsigns, rfl, ?_, ?_, Nat.zero_le _, ?_⟩
  · intro o e active he
    simp [withAuthAndSeq] at he
  · intro o m hm
    simp [withAuthAndSeq, stored] at hm
  · intro link hlink
    simp [withAuthAndSeq] at hlink

end ControlPlane
end Control
end MeshBus
