import MeshBus.Control.Mesh
import MeshBus.Control.Own
import MeshBus.Control.Timers

/-!
# Control.Lifetime

How long an LSA lives in a network whose nodes share one clock. Frames take no time, every timer is
delivered at its deadline, and nodes may stop. A node that joins late is one whose first event
comes late.

* `Clocked.step`: the clock advances only while nothing is in flight and no running node has an
  earlier timer waiting; `born` records each LSA with the time it was originated at.
* `lsa_life_bounded`: an LSA is active for its TTL at most, counted from its origination, in every
  run in which no node is handed a new LSA after the moment it was originated.
* `relayed_lsa_outlives_ttl`: `install` counts the TTL from the moment the LSA is received, so a
  node that joins late keeps the LSA of a stopped one beyond that time.
-/

namespace MeshBus
namespace Control

/-- Nodes under one clock. -/
structure Clocked (ι : Type) where
  clock : MonoTime
  node : ι → Timed
  running : ι → Bool
  flight : List (InFlight ι)
  /-- Every LSA originated so far, with the time of its origination. -/
  born : List (Lsa × MonoTime)

inductive ClockedStep (ι : Type) where
  | event (i : ι) (event : ControlEvent)
  | fire (i : ι) (timer : ControlTimer)
  | deliver (n : Nat)
  | lose (n : Nat)
  | stop (i : ι)
  | tick (clock : MonoTime)

/-- Events that are neither a frame nor a timer. -/
def ControlEvent.isConfig : ControlEvent → Bool
  | .linkUp .. | .linkDown _ | .localTopicAdsChanged _ => true
  | .frame .. | .timer _ => false

namespace ControlPlane

/-! ## One step -/

theorem Effect.mySeq_le {p q : ControlPlane} {now : MonoTime} {event : ControlEvent}
    {acts : List ControlAction} (h : Effect p now event q acts) :
    p.mySeq.toNat ≤ q.mySeq.toNat := by
  rcases h.seq with hkeep | hadv
  · rw [hkeep.mySeq]
  · rw [hadv.mySeq]
    exact (seq_lt_succ hadv.seq_lt).le

theorem Effect.eq_mySeq_of_persists {p q : ControlPlane} {now : MonoTime} {event : ControlEvent}
    {acts : List ControlAction} (h : Effect p now event q acts) {seq : UInt64}
    (hseq : seq ∈ persists acts) : seq = q.mySeq := by
  rcases h.seq with hkeep | hadv
  · rw [hkeep.quiet] at hseq
    cases hseq
  · obtain ⟨rest, rfl, hrest⟩ := hadv.persisted
    rw [persists_cons_persistSeq, hrest] at hseq
    exact List.mem_singleton.mp hseq

/-- An active entry after a step was there before it, or the step has stored it: the next LSA of
the node itself, or a received one that was new. -/
theorem Effect.active_entry {p q : ControlPlane} {now : MonoTime} {event : ControlEvent}
    {acts : List ControlAction} (h : Effect p now event q acts)
    (hs : ∀ lsa, (p.signer lsa).lsa = lsa) {o : NodeId} {e : LsdbEntry} {active : ActiveLsa}
    (he : q.lsdb[o]? = some e) (hactive : e.active = some active) :
    p.lsdb[o]? = some e ∨
      (active.expiresAt = satAdd now (ttlMs active.message.lsa) ∧
        ((active.message.lsa.origin = p.me ∧ active.message.lsa.epoch = p.epoch ∧
            active.message.lsa.seq = q.mySeq ∧ p.mySeq.toNat < q.mySeq.toNat) ∨
          ∃ link, event = .frame link (.lsa active.message) ∧
            p.isNewer active.message.lsa = true)) := by
  cases h with
  | reply same quiet => exact .inl (same.lsdb ▸ he)
  | originate mid prepared ho quiet =>
    rw [ho.same.lsdb, originated, prepared.lsdb, OrdMap.get_insert] at he
    split at he
    · cases he
      cases hactive
      have hlsa : mid.nextMessage.lsa = mid.localLsa (mid.mySeq + 1) := by
        rw [nextMessage, prepared.signer, hs]
      have hseq : q.mySeq = mid.mySeq + 1 := ho.same.mySeq
      refine .inr ⟨rfl, .inl ?_⟩
      dsimp only
      rw [hlsa, hseq, ← prepared.mySeq]
      exact ⟨prepared.me, prepared.epoch, rfl, seq_lt_succ ho.seq_lt⟩
    · exact .inl he
  | install link m received foreign newer room same quiet =>
    rw [same.lsdb, OrdMap.get_insert] at he
    split at he
    · cases he
      cases hactive
      exact .inr ⟨rfl, .inr ⟨link, received, isNewer_iff.mpr newer⟩⟩
    · exact .inl he
  | expire origin entry current expiry same quiet =>
    rw [same.lsdb, OrdMap.get_insert] at he
    split at he
    · cases he
      cases hactive
    · exact .inl he

end ControlPlane

/-! ## The network -/

namespace Clocked

variable {ι : Type} [DecidableEq ι]

/-- Fresh nodes, all running, at time zero. -/
def start (id : ι → NodeId) (epoch : ι → UInt32) (seq : ι → UInt64)
    (signer : ι → Lsa → LsaMessage) (verifier : ι → LsaMessage → Bool) : Clocked ι where
  clock := 0
  node i := .start (id i) (epoch i) (seq i) (signer i) (verifier i)
  running _ := true
  flight := []
  born := []

/-- The link is up at this end, at a running node. -/
def Live (c : Clocked ι) (a : ι × LinkId) : Prop :=
  c.running a.1 = true ∧ a.2 ∈ (c.node a.1).plane.adjacencies

instance (c : Clocked ι) (a : ι × LinkId) : Decidable (c.Live a) :=
  inferInstanceAs (Decidable (_ ∧ _))

/-- Node `i` goes to `plane` with the actions `acts`; it has `kept` waiting besides the timers they
set, and `flight` is in flight besides the frames they send. -/
def emit (c : Clocked ι) (i : ι) (kept : List (ControlTimer × MonoTime))
    (flight : List (InFlight ι)) (plane : ControlPlane) (acts : List ControlAction) :
    Clocked ι where
  clock := c.clock
  node := Function.update c.node i ⟨plane, kept ++ timers acts⟩
  running := c.running
  flight := flight ++ (sends acts).map fun s => ⟨(i, s.1), s.2⟩
  born := c.born ++
    (persists acts).map fun seq => ((plane.signer (plane.localLsa seq)).lsa, c.clock)

@[simp] theorem node_emit_self (c : Clocked ι) (i : ι) (kept : List (ControlTimer × MonoTime))
    (flight : List (InFlight ι)) (q : ControlPlane) (acts : List ControlAction) :
    (c.emit i kept flight q acts).node i = ⟨q, kept ++ timers acts⟩ := Function.update_self ..

theorem node_emit_of_ne {i j : ι} (h : j ≠ i) (c : Clocked ι)
    (kept : List (ControlTimer × MonoTime)) (flight : List (InFlight ι)) (q : ControlPlane)
    (acts : List ControlAction) : (c.emit i kept flight q acts).node j = c.node j :=
  Function.update_of_ne h ..

/-- A property of every node holds after node `i` has moved, if it holds of what `i` moved to. -/
theorem forall_node_emit {c : Clocked ι} {i : ι} {kept : List (ControlTimer × MonoTime)}
    {flight : List (InFlight ι)} {q : ControlPlane} {acts : List ControlAction}
    {P : ι → Timed → Prop} (hi : P i ⟨q, kept ++ timers acts⟩) (h : ∀ j, P j (c.node j)) (j : ι) :
    P j ((c.emit i kept flight q acts).node j) := by
  by_cases hj : j = i
  · subst hj
    rwa [node_emit_self]
  · rw [node_emit_of_ne hj]
    exact h j

/-- A running node handles an event at the present time. -/
def handle (c : Clocked ι) (i : ι) (event : ControlEvent)
    (kept : List (ControlTimer × MonoTime)) (flight : List (InFlight ι)) : Option (Clocked ι) :=
  if c.running i then
    ((c.node i).plane.handle c.clock event).map fun r => c.emit i kept flight r.1 r.2
  else none

def step [Fintype ι] (w : Wiring ι) (c : Clocked ι) : ClockedStep ι → Option (Clocked ι)
  | .event i event =>
    if event.isConfig then c.handle i event (c.node i).waiting c.flight else none
  | .fire i timer =>
    if (timer, c.clock) ∈ (c.node i).waiting then
      c.handle i (.timer timer) ((c.node i).waiting.erase (timer, c.clock)) c.flight
    else none
  | .deliver n =>
    match c.flight[n]? with
    | none => none
    | some x =>
      let b := w.far x.src
      c.handle b.1 (.frame b.2 x.frame) (c.node b.1).waiting (c.flight.eraseIdx n)
  | .lose n =>
    match c.flight[n]? with
    | none => none
    | some x =>
      if c.Live x.src ∧ c.Live (w.far x.src) then none
      else some { c with flight := c.flight.eraseIdx n }
  | .stop i => some { c with running := Function.update c.running i false }
  | .tick clock =>
    -- the clock is a `u64`, and nothing that is due may be left behind
    if c.clock ≤ clock ∧ clock ≤ u64Max ∧ c.flight.isEmpty ∧
        ∀ i, c.running i = true → ∀ x ∈ (c.node i).waiting, clock ≤ x.2 then
      some { c with clock := clock }
    else none

/-- The LSA that a step hands to a node, if it is the delivery of one. -/
def handed (w : Wiring ι) (c : Clocked ι) : ClockedStep ι → Option (ι × LsaMessage)
  | .deliver n =>
    match c.flight[n]? with
    | some ⟨src, .lsa m⟩ => some ((w.far src).1, m)
    | _ => none
  | _ => none

/-- The step hands a node an LSA it does not have yet at the time of its origination only. -/
def Prompt (w : Wiring ι) (c : Clocked ι) (s : ClockedStep ι) : Prop :=
  ∀ x ∈ c.handed w s, (c.node x.1).plane.isNewer x.2.lsa = true →
    ∀ b ∈ c.born, b.1 = x.2.lsa → c.clock ≤ b.2

instance (w : Wiring ι) (c : Clocked ι) (s : ClockedStep ι) : Decidable (c.Prompt w s) :=
  inferInstanceAs (Decidable (∀ x ∈ c.handed w s, _))

/-! ## What a step does -/

/-- A running node handles an event, or nothing happens at any node; then time passes only up to
the next timer of a running node. -/
inductive Moves (w : Wiring ι) (c : Clocked ι) (s : ClockedStep ι) : Clocked ι → Prop
  | handled (i : ι) (event : ControlEvent) (kept : List (ControlTimer × MonoTime))
      (flight : List (InFlight ι)) (q : ControlPlane) (acts : List ControlAction)
      (running : c.running i = true)
      (kept_waiting : ∀ t due, (t, due) ∈ (c.node i).waiting → event ≠ .timer t → (t, due) ∈ kept)
      (handles : (c.node i).plane.handle c.clock event = some (q, acts))
      (received : ∀ link m, event = .frame link (.lsa m) → c.handed w s = some (i, m)) :
      Moves w c s (c.emit i kept flight q acts)
  | idle {c'} (node : c'.node = c.node) (born : c'.born = c.born)
      (running : ∀ i, c'.running i = true → c.running i = true) (clock : c'.clock = c.clock) :
      Moves w c s c'
  | tick (clock : MonoTime) (le : c.clock ≤ clock) (le_max : clock ≤ u64Max)
      (due : ∀ i, c.running i = true → ∀ x ∈ (c.node i).waiting, clock ≤ x.2) :
      Moves w c s { c with clock := clock }

theorem handle_moves {w : Wiring ι} {c c' : Clocked ι} {s : ClockedStep ι} {i : ι}
    {event : ControlEvent} {kept : List (ControlTimer × MonoTime)} {flight : List (InFlight ι)}
    (h : c.handle i event kept flight = some c')
    (hkept : ∀ t due, (t, due) ∈ (c.node i).waiting → event ≠ .timer t → (t, due) ∈ kept)
    (hreceived : ∀ link m, event = .frame link (.lsa m) → c.handed w s = some (i, m)) :
    Moves w c s c' := by
  simp only [handle] at h
  split at h
  · rename_i hrunning
    obtain ⟨⟨q, acts⟩, hq, rfl⟩ := Option.map_eq_some_iff.mp h
    exact .handled i event kept flight q acts hrunning hkept hq hreceived
  · cases h

theorem step_moves [Fintype ι] {w : Wiring ι} {c c' : Clocked ι} {s : ClockedStep ι}
    (h : c.step w s = some c') : Moves w c s c' := by
  cases s with
  | event i event =>
    simp only [step] at h
    split at h
    · rename_i hconfig
      refine handle_moves h (fun _ _ hmem _ => hmem) ?_
      rintro link m rfl
      cases hconfig
    · cases h
  | fire i timer =>
    simp only [step] at h
    split at h
    · refine handle_moves h ?_ (fun _ _ heq => by cases heq)
      intro t due hmem hne
      refine (List.mem_erase_of_ne ?_).mpr hmem
      intro heq
      cases heq
      exact hne rfl
    · cases h
  | deliver n =>
    simp only [step] at h
    split at h
    · cases h
    · rename_i x hx
      refine handle_moves h (fun _ _ hmem _ => hmem) ?_
      intro link m heq
      obtain ⟨src, frame⟩ := x
      cases heq
      simp only [handed, hx]
  | lose n =>
    simp only [step] at h
    split at h
    · cases h
    · split at h
      · cases h
      · cases h
        exact .idle rfl rfl (fun _ hi => hi) rfl
  | stop i =>
    cases h
    refine .idle rfl rfl ?_ rfl
    intro j hj
    by_cases hji : j = i
    · simp [hji] at hj
    · simpa [Function.update_of_ne hji] using hj
  | tick clock =>
    simp only [step] at h
    split at h
    · rename_i hdue
      cases h
      exact .tick clock hdue.1 hdue.2.1 hdue.2.2.2
    · cases h

/-! ## Lifetimes -/

/-- The active LSA expires within its TTL of every time it was originated at, and if the node runs
it has not expired before now. -/
structure Lives (c : Clocked ι) (i : ι) (active : ActiveLsa) : Prop where
  recent : active.expiresAt ≤ c.clock + ttlMs active.message.lsa
  bounded : ∀ t, (active.message.lsa, t) ∈ c.born → active.expiresAt ≤ t + ttlMs active.message.lsa
  alive : c.running i = true → c.clock ≤ active.expiresAt

/-- What a step originates is originated now. -/
theorem mem_born_emit {c : Clocked ι} {i : ι} {kept : List (ControlTimer × MonoTime)}
    {flight : List (InFlight ι)} {q : ControlPlane} {acts : List ControlAction} {lsa : Lsa}
    {t : MonoTime} (h : (lsa, t) ∈ (c.emit i kept flight q acts).born) :
    (lsa, t) ∈ c.born ∨
      ∃ seq ∈ persists acts, lsa = (q.signer (q.localLsa seq)).lsa ∧ t = c.clock := by
  rcases List.mem_append.mp h with h | h
  · exact .inl h
  · obtain ⟨seq, hseq, heq⟩ := List.mem_map.mp h
    cases heq
    exact .inr ⟨seq, hseq, rfl, rfl⟩

/-- An LSA stays within its lifetime even if it is originated anew. -/
theorem Lives.emit {c : Clocked ι} {j : ι} {active : ActiveLsa} (h : c.Lives j active) (i : ι)
    (kept : List (ControlTimer × MonoTime)) (flight : List (InFlight ι)) (q : ControlPlane)
    (acts : List ControlAction) : (c.emit i kept flight q acts).Lives j active where
  recent := h.recent
  bounded := by
    intro t ht
    rcases mem_born_emit ht with hold | ⟨_, _, _, rfl⟩
    · exact h.bounded t hold
    · exact h.recent
  alive := h.alive

omit [DecidableEq ι] in
/-- What is stored now lives, if no origination of it is past. -/
theorem lives_stored {c : Clocked ι} {active : ActiveLsa} (j : ι) (hclock : c.clock ≤ u64Max)
    (hexpires : active.expiresAt = satAdd c.clock (ttlMs active.message.lsa))
    (hborn : ∀ t, (active.message.lsa, t) ∈ c.born → c.clock ≤ t) : c.Lives j active := by
  have hle : active.expiresAt ≤ c.clock + ttlMs active.message.lsa := by
    rw [hexpires]
    exact Nat.min_le_left _ _
  refine ⟨hle, ?_, ?_⟩
  · intro t ht
    exact hle.trans (Nat.add_le_add_right (hborn t ht) _)
  · intro _
    rw [hexpires]
    exact le_min (Nat.le_add_right _ _) hclock

structure Inv (id : ι → NodeId) (epoch : ι → UInt32) (c : Clocked ι) : Prop where
  clock_le : c.clock ≤ u64Max
  watching : ∀ i, (c.node i).Watching
  me_eq : ∀ i, (c.node i).plane.me = id i
  epoch_eq : ∀ i, (c.node i).plane.epoch = epoch i
  born : ∀ x ∈ c.born, ∃ i, x.1.origin = id i ∧ x.1.epoch = epoch i ∧
    x.1.seq.toNat ≤ (c.node i).plane.mySeq.toNat
  lives : ∀ (i : ι) (o : NodeId) (e : LsdbEntry) (active : ActiveLsa),
    (c.node i).plane.lsdb[o]? = some e → e.active = some active → c.Lives i active

omit [DecidableEq ι] in
theorem inv_start {signer : ι → Lsa → LsaMessage} (hsigner : ∀ i lsa, (signer i lsa).lsa = lsa)
    (id : ι → NodeId) (epoch : ι → UInt32) (seq : ι → UInt64) (verifier : ι → LsaMessage → Bool) :
    Inv id epoch (start id epoch seq signer verifier) where
  clock_le := Nat.zero_le _
  watching := fun i => Timed.watching_start (hsigner i) _ _ _ _
  me_eq := fun _ => rfl
  epoch_eq := fun _ => rfl
  born := fun x hx => by cases hx
  lives := fun i o e active he => by simp [start, Timed.start, ControlPlane.withAuthAndSeq] at he

omit [DecidableEq ι] in
/-- A number that a node has not reached yet is the number of no LSA so far. -/
theorem Inv.not_born {id : ι → NodeId} {epoch : ι → UInt32} {c : Clocked ι} (hc : Inv id epoch c)
    (hdistinct : ∀ i j, id i = id j → epoch i = epoch j → i = j) {i : ι} {lsa : Lsa}
    (horigin : lsa.origin = id i) (hepoch : lsa.epoch = epoch i)
    (hseq : (c.node i).plane.mySeq.toNat < lsa.seq.toNat) (t : MonoTime) :
    (lsa, t) ∉ c.born := by
  intro ht
  obtain ⟨j, hj, hje, hle⟩ := hc.born _ ht
  have hij : i = j := hdistinct i j (horigin.symm.trans hj) (hepoch.symm.trans hje)
  subst hij
  exact absurd hle (Nat.not_le.mpr hseq)

theorem Inv.handled {id : ι → NodeId} {epoch : ι → UInt32} {c : Clocked ι} (hc : Inv id epoch c)
    (hdistinct : ∀ i j, id i = id j → epoch i = epoch j → i = j) {i : ι} {event : ControlEvent}
    {kept : List (ControlTimer × MonoTime)} {flight : List (InFlight ι)} {q : ControlPlane}
    {acts : List ControlAction}
    (hkept : ∀ t due, (t, due) ∈ (c.node i).waiting → event ≠ .timer t → (t, due) ∈ kept)
    (hq : (c.node i).plane.handle c.clock event = some (q, acts))
    (hprompt : ∀ link m, event = .frame link (.lsa m) → (c.node i).plane.isNewer m.lsa = true →
      ∀ b ∈ c.born, b.1 = m.lsa → c.clock ≤ b.2) :
    Inv id epoch (c.emit i kept flight q acts) := by
  have heffect := (ControlPlane.handle_spec hq).effect
  have hme : q.me = id i := heffect.same.me.trans (hc.me_eq i)
  have hepoch : q.epoch = epoch i := heffect.same.epoch.trans (hc.epoch_eq i)
  have hwatching := (hc.watching i).handled hkept hq
  refine ⟨hc.clock_le, ?_, ?_, ?_, ?_, ?_⟩
  · exact forall_node_emit (P := fun _ s => s.Watching) hwatching hc.watching
  · exact forall_node_emit (P := fun j s => s.plane.me = id j) hme hc.me_eq
  · exact forall_node_emit (P := fun j s => s.plane.epoch = epoch j) hepoch hc.epoch_eq
  · rintro ⟨lsa, t⟩ hx
    rcases mem_born_emit hx with hold | ⟨seq, hmem, rfl, -⟩
    · obtain ⟨j, horigin, hje, hle⟩ := hc.born _ hold
      refine ⟨j, horigin, hje, ?_⟩
      by_cases hj : j = i
      · subst hj
        rw [node_emit_self]
        exact hle.trans heffect.mySeq_le
      · rw [node_emit_of_ne hj]
        exact hle
    · obtain rfl := heffect.eq_mySeq_of_persists hmem
      refine ⟨i, ?_⟩
      rw [node_emit_self, hwatching.signs]
      exact ⟨hme, hepoch, le_rfl⟩
  · refine forall_node_emit (P := fun j s => ∀ o (e : LsdbEntry) active,
      s.plane.lsdb[o]? = some e → e.active = some active →
        (c.emit i kept flight q acts).Lives j active) ?_ ?_
    · intro o e active he hactive
      rcases heffect.active_entry (hc.watching i).signs he hactive with hold | ⟨hexpires, hnew⟩
      · exact (hc.lives i o e active hold hactive).emit i kept flight q acts
      · refine (lives_stored i hc.clock_le hexpires ?_).emit i kept flight q acts
        intro t ht
        rcases hnew with ⟨horigin, hlsaEpoch, hlsaSeq, hlt⟩ | ⟨link, hevent, hnewer⟩
        · -- the node has just taken the number
          rw [← hlsaSeq] at hlt
          exact absurd ht (hc.not_born hdistinct (horigin.trans (hc.me_eq i))
            (hlsaEpoch.trans (hc.epoch_eq i)) hlt t)
        · exact hprompt link _ hevent hnewer _ ht rfl
    · intro j o e active he hactive
      exact (hc.lives j o e active he hactive).emit i kept flight q acts

theorem Inv.step [Fintype ι] {id : ι → NodeId} {epoch : ι → UInt32} {w : Wiring ι}
    {c c' : Clocked ι} {s : ClockedStep ι} (hc : Inv id epoch c)
    (hdistinct : ∀ i j, id i = id j → epoch i = epoch j → i = j) (hprompt : c.Prompt w s)
    (h : c.step w s = some c') : Inv id epoch c' := by
  cases step_moves h with
  | handled i event kept flight q acts hrunning hkept hq hreceived =>
    refine hc.handled hdistinct hkept hq ?_
    intro link m hevent hnewer
    exact hprompt _ (hreceived link m hevent) hnewer
  | idle hnode hborn hrunning hclock =>
    refine ⟨?_, ?_, ?_, ?_, ?_, ?_⟩
    · rw [hclock]
      exact hc.clock_le
    · rw [hnode]
      exact hc.watching
    · rw [hnode]
      exact hc.me_eq
    · rw [hnode]
      exact hc.epoch_eq
    · rw [hnode, hborn]
      exact hc.born
    · rw [hnode]
      intro i o e active he hactive
      obtain ⟨hrecent, hbounded, halive⟩ := hc.lives i o e active he hactive
      refine ⟨?_, ?_, ?_⟩
      · rw [hclock]
        exact hrecent
      · rw [hborn]
        exact hbounded
      · rw [hclock]
        exact fun hi => halive (hrunning i hi)
  | tick clock hle hmax hdue =>
    refine ⟨hmax, hc.watching, hc.me_eq, hc.epoch_eq, hc.born, ?_⟩
    intro i o e active he hactive
    obtain ⟨hrecent, hbounded, -⟩ := hc.lives i o e active he hactive
    refine ⟨hrecent.trans (Nat.add_le_add_right hle _), hbounded, ?_⟩
    intro hi
    exact hdue i hi _ ((hc.watching i).expire o e active he hactive)

/-- In every run in which no node is handed an LSA it does not have later than at the time of its
origination: an LSA originated at `t` is active at no running node after `t` plus its TTL. -/
theorem lsa_life_bounded [Fintype ι] {w : Wiring ι} {id : ι → NodeId} {epoch : ι → UInt32}
    {seq : ι → UInt64}
    {signer : ι → Lsa → LsaMessage} {verifier : ι → LsaMessage → Bool}
    {steps : List (ClockedStep ι)} {c : Clocked ι} {i : ι} {o : NodeId} {e : LsdbEntry}
    {active : ActiveLsa} {t : MonoTime} (hsigner : ∀ i lsa, (signer i lsa).lsa = lsa)
    (hdistinct : ∀ i j, id i = id j → epoch i = epoch j → i = j)
    (hprompt : AlongM (step w) (Prompt w) (start id epoch seq signer verifier) steps)
    (h : steps.foldlM (step w) (start id epoch seq signer verifier) = some c)
    (hrunning : c.running i = true) (he : (c.node i).plane.lsdb[o]? = some e)
    (hactive : e.active = some active) (ht : (active.message.lsa, t) ∈ c.born) :
    c.clock ≤ t + 1000 * active.message.lsa.ttlSec.toNat := by
  have hinv : Inv id epoch c := hprompt.inv
    (fun _ _ _ hs hp hstep => hs.step hdistinct hp hstep) (inv_start hsigner _ _ _ _) h
  have hlives := hinv.lives i o e active he hactive
  calc c.clock ≤ active.expiresAt := hlives.alive hrunning
    _ ≤ t + ttlMs active.message.lsa := hlives.bounded t ht
    _ ≤ t + 1000 * active.message.lsa.ttlSec.toNat := by
      rw [ttlMs, satMul, Nat.mul_comm]
      exact Nat.add_le_add_left (Nat.min_le_left _ _) t

/-! ## A late relay -/

/-- Nodes 0, 1 and 2 in a line: link 1 joins the first two, link 2 the last two. -/
def lineWiring : Wiring (Fin 3) where
  far a :=
    if a.2 = 1 then (Equiv.swap 0 1 a.1, a.2)
    else if a.2 = 2 then (Equiv.swap 1 2 a.1, a.2) else a
  far_far a := by
    obtain ⟨i, link⟩ := a
    split
    · simp
    · split <;> simp_all

def lineId (i : Fin 3) : NodeId := .ofByte (UInt8.ofNat (i.val + 1))

def lineStart : Clocked (Fin 3) :=
  start lineId (fun _ => 1) (fun _ => 0) (fun _ => unsecuredSign) fun _ => unsecuredVerify

/-- Node 0 announces itself to node 1 and stops, all at time zero. -/
def announceSteps : List (ClockedStep (Fin 3)) :=
  [.event 0 (.linkUp 1 (lineId 1) unitCost), .event 1 (.linkUp 1 (lineId 0) unitCost), .deliver 0,
    .stop 0, .event 1 (.linkDown 1), .lose 0, .lose 0, .lose 0]

/-- Node 1 goes on, with its timers delivered when they are due. -/
def aloneSteps : List (ClockedStep (Fin 3)) :=
  [.tick 100, .fire 1 (.spfHold 1), .tick 10000, .fire 1 (.digest 1),
    .tick 60000, .fire 1 (.lsaRefresh 1 1), .fire 1 (.lsaRefresh 1 2),
    .tick 60100, .fire 1 (.spfHold 2), .tick 120000, .fire 1 (.lsaRefresh 1 3),
    .tick 120100, .fire 1 (.spfHold 3), .tick 180000, .fire 1 (.lsaRefresh 1 4),
    .tick 180100, .fire 1 (.spfHold 4), .tick 240000, .fire 1 (.lsaRefresh 1 5),
    .tick 240100, .fire 1 (.spfHold 5), .tick 299999]

/-- Node 2 joins node 1 and gets what it has, among it the LSA of node 0; then the copy of node 1
expires. -/
def joinSteps : List (ClockedStep (Fin 3)) :=
  [.event 1 (.linkUp 2 (lineId 2) unitCost), .event 2 (.linkUp 2 (lineId 1) unitCost),
    .deliver 0, .deliver 0, .deliver 0, .deliver 0, .deliver 0, .deliver 0, .deliver 0, .deliver 0,
    .deliver 0, .tick 300000, .fire 1 (.lsaExpire (lineId 1) 1 1),
    .fire 1 (.lsaExpire (lineId 0) 1 1), .fire 1 (.lsaExpire (lineId 1) 1 2),
    .fire 1 (.lsaRefresh 1 6), .tick 300001]

/-- Until node 2 joins, the LSA of node 0 has been handed on when it was originated only; at the
last moment of its life node 1 has it active. -/
theorem lsa_life_bounded_alone :
    ∃ c e active, (announceSteps ++ aloneSteps).foldlM (step lineWiring) lineStart = some c ∧
      AlongM (step lineWiring) (Prompt lineWiring) lineStart (announceSteps ++ aloneSteps) ∧
      c.running 1 = true ∧ (c.node 1).plane.lsdb[lineId 0]? = some e ∧ e.active = some active ∧
      (active.message.lsa, 0) ∈ c.born ∧ c.clock = 299999 ∧
      c.clock ≤ 0 + 1000 * active.message.lsa.ttlSec.toNat := by
  have hrun : ((announceSteps ++ aloneSteps).foldlM (step lineWiring) lineStart).map (fun c =>
      decide (c.running 1 = true ∧ c.clock = 299999 ∧
        ∃ active ∈ ((c.node 1).plane.lsdb[lineId 0]?).bind LsdbEntry.active,
          (active.message.lsa, 0) ∈ c.born)) = some true := by
    decide +kernel
  have hprompt : AlongM (step lineWiring) (Prompt lineWiring) lineStart
      (announceSteps ++ aloneSteps) := by
    decide +kernel
  have hdistinct : ∀ i j : Fin 3, lineId i = lineId j → (1 : UInt32) = 1 → i = j := by
    decide +kernel
  obtain ⟨c, hc, hdec⟩ := Option.map_eq_some_iff.mp hrun
  obtain ⟨hrunning, hclock, active, hactive, hborn⟩ := of_decide_eq_true hdec
  obtain ⟨e, he, hactive⟩ := Option.bind_eq_some_iff.mp hactive
  exact ⟨c, e, active, hc, hprompt, hrunning, he, hactive, hborn, hclock,
    lsa_life_bounded (fun _ _ => rfl) hdistinct hprompt hc hrunning he hactive hborn⟩

/-- The LSA node 0 originates at time zero, with a TTL of 300 seconds, is active at node 2 after
300 seconds. -/
theorem relayed_lsa_outlives_ttl :
    ∃ c e active, (announceSteps ++ aloneSteps ++ joinSteps).foldlM (step lineWiring) lineStart =
        some c ∧
      c.running 2 = true ∧ (c.node 2).plane.lsdb[lineId 0]? = some e ∧ e.active = some active ∧
      (active.message.lsa, 0) ∈ c.born ∧
      0 + 1000 * active.message.lsa.ttlSec.toNat < c.clock := by
  have hrun : ((announceSteps ++ aloneSteps ++ joinSteps).foldlM (step lineWiring)
      lineStart).map (fun c => decide (c.running 2 = true ∧ ∃ active ∈
        ((c.node 2).plane.lsdb[lineId 0]?).bind LsdbEntry.active,
          (active.message.lsa, 0) ∈ c.born ∧
          0 + 1000 * active.message.lsa.ttlSec.toNat < c.clock)) = some true := by
    decide +kernel
  obtain ⟨c, hc, hdec⟩ := Option.map_eq_some_iff.mp hrun
  obtain ⟨hrunning, active, hactive, hborn, hlate⟩ := of_decide_eq_true hdec
  obtain ⟨e, he, hactive⟩ := Option.bind_eq_some_iff.mp hactive
  exact ⟨c, e, active, hc, hrunning, he, hactive, hborn, hlate⟩

end Clocked
end Control
end MeshBus
