import MeshBus.Control.Own
import MeshBus.Control.Regular
import MeshBus.Control.Exchange
import MeshBus.Control.Routing

/-!
# Control.Total

The control plane does not panic. No slot of the database is set aside for the node's own LSA; that
it always fits rests on the order of events: a node accepts an LSA only over a link, and with its
first link it has originated its own (`Bounded`). `handle_some` is one step, `run_total` whole runs.
-/

namespace MeshBus
namespace Control
namespace ControlPlane

/-- One of the counters that the source increments with a check is at its limit. -/
def Exhausted (p : ControlPlane) : Prop :=
  p.mySeq.toNat = u64Max ∨ u64Max ≤ p.spfGeneration ∨ u64Max ≤ p.routes.version

/-- The database keeps its limit, and the first entry is that of the node itself. -/
structure Bounded (p : ControlPlane) : Prop where
  own : Own p
  size_le : p.lsdb.size ≤ maxLsdbEntries
  first : p.lsdb = ∅ ∨ p.me ∈ p.lsdb

theorem bounded_new (me : NodeId) (epoch : UInt32) (lastSeq : UInt64) :
    Bounded (newUnsecuredWithSeq me epoch lastSeq) :=
  ⟨own_new me epoch lastSeq, Nat.zero_le _, .inl rfl⟩

/-- The node's own LSA fits. -/
theorem Bounded.room {p : ControlPlane} (h : Bounded p) :
    p.me ∈ p.lsdb ∨ p.lsdb.size < maxLsdbEntries := by
  rcases h.first with hempty | hmem
  · refine .inr ?_
    rw [hempty]
    exact Nat.zero_lt_succ _
  · exact .inl hmem

theorem Bounded.step {p q : ControlPlane} {now : MonoTime} {event : ControlEvent}
    {acts : List ControlAction} (hp : Bounded p) (h : p.handle now event = some (q, acts)) :
    Bounded q := by
  have heffect := (handle_spec h).effect
  refine ⟨hp.own.step heffect, heffect.size_le hp.size_le, ?_⟩
  rw [heffect.same.me]
  by_cases hme : p.me ∈ p.lsdb
  · exact .inr (heffect.mem_lsdb hme)
  · have hempty := hp.first.resolve_right hme
    cases heffect with
    | reply same quiet =>
      rw [same.lsdb]
      exact .inl hempty
    | originate mid prepared ho quiet =>
      refine .inr (OrdMap.mem_iff_get.mpr ?_)
      have hstored := ho.stored_me (prepared.signer.trans hp.own.signer)
      obtain ⟨e, active, he, -, -⟩ := stored_eq_some.mp hstored
      rw [ho.same.me] at he
      exact ⟨e, prepared.me ▸ he⟩
    | install link m received foreign newer room same quiet =>
      -- without an LSA of its own the node has no link, and the message is dropped
      have hlink : link ∉ p.adjacencies := by
        rw [(hp.own.blank hme).1]
        exact Std.ExtTreeMap.not_mem_empty
      subst received
      cases (receiveLsa_unknownLink hlink now m).symm.trans h
      exact .inl hempty
    | expire origin entry current expiry same quiet =>
      rw [hempty] at current
      simp at current

theorem recomputeRoutes_some (p : ControlPlane) (h : p.routes.version < u64Max) :
    ∃ r, p.recomputeRoutes = some r := by
  obtain ⟨routes, hroutes⟩ := shortestPaths_total p
  simp only [recomputeRoutes, hroutes, bind, Option.bind_some]
  split
  · exact ⟨_, rfl⟩
  · rw [if_neg (Nat.not_le.mpr h)]
    exact ⟨_, rfl⟩

theorem handleSpfTimer_some (p : ControlPlane) (now : MonoTime) (generation : Nat)
    (h : p.routes.version < u64Max) : ∃ r, p.handleSpfTimer now generation = some r := by
  simp only [handleSpfTimer]
  split
  · exact ⟨_, rfl⟩
  · split
    · exact ⟨_, rfl⟩
    · split
      · exact ⟨_, rfl⟩
      · obtain ⟨⟨routed, acts⟩, hr⟩ := recomputeRoutes_some { p with
          pendingSpf := none
          spfHoldMs := min (satMul p.spfHoldMs 2) spfMaxHoldMs } h
        rw [hr]
        exact ⟨_, rfl⟩

theorem handleExpireTimer_some (p : ControlPlane) (now : MonoTime) (origin : NodeId)
    (epoch : UInt32) (seq : UInt64) (h : p.spfGeneration < u64Max) :
    ∃ r, p.handleExpireTimer now origin epoch seq = some r := by
  simp only [handleExpireTimer]
  split
  · exact ⟨_, rfl⟩
  · rename_i entry _
    split
    · exact ⟨_, rfl⟩
    · split
      · exact ⟨_, rfl⟩
      · split
        · exact ⟨_, rfl⟩
        · obtain ⟨q, acts, hq, -⟩ := markSpfDirty_some { p with
            lsdb := p.lsdb.insert origin { entry with state := .tombstone } } now h
          exact ⟨_, hq⟩

theorem receiveDigest_returns (p : ControlPlane) (link : LinkId) (entries : List DigestEntry) :
    ∃ acts, p.receiveDigest link entries = some acts := by
  simp only [receiveDigest]
  split
  · exact ⟨_, rfl⟩
  · obtain ⟨compared, hcompared⟩ := p.compared_some link entries
    rw [hcompared]
    exact ⟨_, rfl⟩

/-- `mid` is `p` with its links and topic ads changed; it originates without a panic. -/
theorem Bounded.originate {p : ControlPlane} (hp : Bounded p) (mid : ControlPlane)
    (hprep : Prepared p mid) (hgen : mid.spfGeneration = p.spfGeneration)
    (hseq : p.mySeq.toNat ≠ u64Max) (hspf : p.spfGeneration < u64Max) (now : MonoTime) :
    ∃ r, mid.originateLsa now = some r := by
  refine originateLsa_some now (hprep.mySeq ▸ hseq) ?_ (hgen ▸ hspf)
  rw [nextMessage_unsecured (hprep.signer.trans hp.own.signer), hprep.lsdb]
  change mid.me ∈ p.lsdb ∨ _
  rw [hprep.me]
  exact hp.room

/-- As long as no counter is at its limit, every event is handled. -/
theorem handle_some {p : ControlPlane} (hp : Bounded p) (hcounters : ¬ Exhausted p) (now : MonoTime)
    (event : ControlEvent) : ∃ r, p.handle now event = some r := by
  simp only [Exhausted, not_or, Nat.not_le] at hcounters
  obtain ⟨hseq, hspf, hversion⟩ := hcounters
  cases event with
  | linkUp link peer cost =>
    obtain ⟨⟨q, acts⟩, hq⟩ := hp.originate
      { p with adjacencies := p.adjacencies.insert link ⟨peer, cost⟩ }
      ⟨rfl, rfl, rfl, rfl, rfl, rfl⟩ rfl hseq hspf now
    simp only [handle, hq, bind, Option.bind_some]
    exact ⟨_, rfl⟩
  | linkDown link =>
    simp only [handle]
    split
    · exact ⟨_, rfl⟩
    · exact hp.originate { p with adjacencies := p.adjacencies.erase link }
        ⟨rfl, rfl, rfl, rfl, rfl, rfl⟩ rfl hseq hspf now
  | localTopicAdsChanged ads =>
    simp only [handle]
    split
    · exact ⟨_, rfl⟩
    · exact hp.originate { p with localTopicAds := ads.insertionSort (· ≤ ·) }
        ⟨rfl, rfl, rfl, rfl, rfl, rfl⟩ rfl hseq hspf now
  | frame link f =>
    cases f with
    | lsa m =>
      obtain ⟨q, acts, hq, -⟩ := p.receiveLsa_some now link m hspf
      exact ⟨_, hq⟩
    | digest entries =>
      obtain ⟨acts, hacts⟩ := p.receiveDigest_returns link entries
      simp only [handle, hacts, bind, Option.bind_some]
      exact ⟨_, rfl⟩
    | digestReq origins => exact ⟨_, rfl⟩
  | timer t =>
    cases t with
    | digest link => exact ⟨_, rfl⟩
    | spfHold generation => exact p.handleSpfTimer_some now generation hversion
    | lsaRefresh epoch seq =>
      simp only [handle, handleRefreshTimer]
      split
      · exact hp.originate p ⟨rfl, rfl, rfl, rfl, rfl, rfl⟩ rfl hseq hspf now
      · exact ⟨_, rfl⟩
    | lsaExpire origin epoch seq => exact p.handleExpireTimer_some now origin epoch seq hspf

theorem Bounded.run {p q : ControlPlane} {events : List (MonoTime × ControlEvent)}
    {acts : List ControlAction} (hp : Bounded p) (h : p.run events = some (q, acts)) : Bounded q :=
  emitAll_inv (P := Bounded) (fun _ _ _ _ hs hstep => hs.step hstep) hp h

/-- A run that does not return has come to a state with a counter at its limit. -/
theorem Bounded.run_none : ∀ {events : List (MonoTime × ControlEvent)} {p : ControlPlane},
    Bounded p → p.run events = none →
    ∃ before rest q acts, events = before ++ rest ∧ p.run before = some (q, acts) ∧
      Exhausted q := by
  intro events
  induction events with
  | nil =>
    intro p _ hnone
    cases hnone
  | cons event events ih =>
    intro p hp hnone
    by_cases hcounters : Exhausted p
    · exact ⟨[], event :: events, p, [], rfl, rfl, hcounters⟩
    · obtain ⟨⟨q, acts⟩, hq⟩ := handle_some hp hcounters event.1 event.2
      have hrest : q.run events = none := by
        cases hr : q.run events with
        | none => rfl
        | some r =>
          have hsome : p.run (event :: events) = some (r.1, acts ++ r.2) :=
            emitAll_cons_some hq hr
          rw [hnone] at hsome
          cases hsome
      obtain ⟨before, rest, r, acts', rfl, hr, hfull⟩ := ih (hp.step hq) hrest
      exact ⟨event :: before, rest, r, acts ++ acts', rfl, emitAll_cons_some hq hr, hfull⟩

/-- In every run the database keeps its limit and holds the node's own entry if it holds any, and
the run goes on for as long as the sequence number, the generation and the version of the routes
are below the greatest `u64`. -/
theorem run_total (me : NodeId) (epoch : UInt32) (lastSeq : UInt64)
    (events : List (MonoTime × ControlEvent)) :
    (∀ q acts, (newUnsecuredWithSeq me epoch lastSeq).run events = some (q, acts) →
      q.lsdb.size ≤ maxLsdbEntries ∧ (q.lsdb ≠ ∅ → me ∈ q.lsdb)) ∧
    ((∀ before rest q acts, events = before ++ rest →
        (newUnsecuredWithSeq me epoch lastSeq).run before = some (q, acts) →
        q.mySeq.toNat < u64Max ∧ q.spfGeneration < u64Max ∧ q.routes.version < u64Max) →
      ∃ r, (newUnsecuredWithSeq me epoch lastSeq).run events = some r) := by
  have hnew := bounded_new me epoch lastSeq
  refine ⟨?_, ?_⟩
  · intro q acts hrun
    have hq := hnew.run hrun
    have hme : q.me = me := (run_same hrun).me
    exact ⟨hq.size_le, fun hne => hme ▸ hq.first.resolve_left hne⟩
  · intro hbelow
    cases hrun : (newUnsecuredWithSeq me epoch lastSeq).run events with
    | some r => exact ⟨r, rfl⟩
    | none =>
      obtain ⟨before, rest, q, acts, heq, hq, hfull⟩ := hnew.run_none hrun
      obtain ⟨hseq, hspf, hversion⟩ := hbelow before rest q acts heq hq
      rcases hfull with hfull | hfull | hfull <;> omega

end ControlPlane
end Control
end MeshBus
