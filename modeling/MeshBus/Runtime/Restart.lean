import MeshBus.Control.Own

/-!
# Runtime.Restart

A node over all its incarnations. Each incarnation starts a fresh control plane from the sequence
number in the store and executes the actions of one event after the other, in order; it ends in a
crash, a panic or a failed `PersistSeq`. What is sent is logged with the incarnation that sent it.

`Inv` holds along every history: everything sent so far about the node itself is at most the stored
number, and what an incarnation may still send is either above that and behind a `PersistSeq`, or
equal to what was sent under the same number.
-/

namespace MeshBus
namespace Runtime

open Control ControlPlane

/-- How an operation with an outside effect ends. `torn` takes effect but is reported as failed. -/
inductive Fate where
  | done
  | failed
  | torn
deriving DecidableEq

/-- `SeqStore::persist` over a store that holds `stored`: whether it returns `Ok`, and what the
store holds then. Both stores of the source refuse to go back. -/
def persist (stored seq : UInt64) : Fate → Bool × UInt64
  | .done => if seq < stored then (false, stored) else (true, seq)
  | .failed => (false, stored)
  | .torn => if seq < stored then (false, stored) else (false, seq)

/-- A frame handed to the transport, and the incarnation that did so. -/
structure Sent where
  start : Nat
  link : LinkId
  frame : ControlFrame
deriving DecidableEq

/-- The runtime loop: its plane, and the actions of the current event still to be executed. -/
structure Incarnation where
  plane : ControlPlane
  pending : List ControlAction

/-- `starts` counts incarnations; `live` is `none` while the process is down. -/
structure Node where
  me : NodeId
  epoch : UInt32
  store : UInt64
  starts : Nat
  live : Option Incarnation
  sent : List Sent

inductive NodeStep where
  | start
  | input (now : MonoTime) (event : ControlEvent)
  | act (fate : Fate)
  | crash

namespace Node

/-- A node that never ran; the store holds `stored`. -/
def init (me : NodeId) (epoch : UInt32) (stored : UInt64) : Node :=
  ⟨me, epoch, stored, 0, none, []⟩

/-- `spawn_with_seq_store_and_pubsub`; `none` is `SequenceExhausted`. -/
def spawn (n : Node) : Option Node :=
  if n.store.toNat = u64Max then none
  else
    some { n with
      starts := n.starts + 1
      live := some ⟨newUnsecuredWithSeq n.me n.epoch n.store, []⟩ }

/-- One action of the list. A frame that cannot be encoded or queued is skipped; a `PersistSeq`
that does not return `Ok` ends the loop. -/
def execute (n : Node) (plane : ControlPlane) (rest : List ControlAction) (fate : Fate) :
    ControlAction → Node
  | .send link frame =>
    let sent := if fate = .failed then n.sent else n.sent ++ [⟨n.starts, link, frame⟩]
    { n with live := some ⟨plane, rest⟩, sent := sent }
  | .persistSeq seq =>
    let (ok, store) := persist n.store seq fate
    { n with live := if ok then some ⟨plane, rest⟩ else none, store := store }
  | .setTimer .. | .publishRoutes _ | .publishTopicAds _ =>
    { n with live := some ⟨plane, rest⟩ }

/-- The next input is taken when the actions of the last are done. A panic ends the loop. -/
def step (n : Node) : NodeStep → Option Node
  | .start => if n.live.isSome then none else n.spawn
  | .input now event =>
    match n.live with
    | some ⟨plane, []⟩ =>
      some { n with live := (plane.handle now event).map fun r => ⟨r.1, r.2⟩ }
    | _ => none
  | .act fate =>
    match n.live with
    | some ⟨plane, action :: rest⟩ => some (n.execute plane rest fate action)
    | _ => none
  | .crash => some { n with live := none }

def run (n : Node) (steps : List NodeStep) : Option Node := steps.foldlM step n

end Node

/-- The versions a frame gives for origin `me`: of the LSA it carries, or of its digest entries. -/
def selfVersions (me : NodeId) : ControlFrame → List Version
  | .lsa m => if m.lsa.origin = me then [lsaVersion m.lsa] else []
  | .digest entries => (entries.filter fun e => e.origin = me).map DigestEntry.version
  | .digestReq _ => []

theorem mem_selfVersions_lsa {me : NodeId} {m : LsaMessage} (h : m.lsa.origin = me) :
    lsaVersion m.lsa ∈ selfVersions me (.lsa m) := by
  simp [selfVersions, h]

/-! ## Steps -/

namespace Node

/-- What a step does, in the terms the invariant needs. -/
inductive Moves (n : Node) : Node → Prop
  | starts (room : n.store.toNat ≠ u64Max) (down : n.live = none) :
      Moves n { n with
        starts := n.starts + 1
        live := some ⟨newUnsecuredWithSeq n.me n.epoch n.store, []⟩ }
  | handles {p q : ControlPlane} {acts : List ControlAction} {now : MonoTime}
      {event : ControlEvent} (idle : n.live = some ⟨p, []⟩) (h : Outcome p now event q acts) :
      Moves n { n with live := some ⟨q, acts⟩ }
  | sends {p : ControlPlane} {rest : List ControlAction} {link : LinkId} {frame : ControlFrame}
      (next : n.live = some ⟨p, .send link frame :: rest⟩) :
      Moves n { n with live := some ⟨p, rest⟩, sent := n.sent ++ [⟨n.starts, link, frame⟩] }
  | skips {p : ControlPlane} {action : ControlAction} {rest : List ControlAction}
      (next : n.live = some ⟨p, action :: rest⟩) (quiet : ∀ seq, action ≠ .persistSeq seq) :
      Moves n { n with live := some ⟨p, rest⟩ }
  | persists {p : ControlPlane} {seq : UInt64} {rest : List ControlAction}
      (next : n.live = some ⟨p, .persistSeq seq :: rest⟩) :
      Moves n { n with live := some ⟨p, rest⟩, store := seq }
  | stops {store : UInt64} (forward : n.store.toNat ≤ store.toNat) :
      Moves n { n with live := none, store := store }

theorem execute_moves {n : Node} {p : ControlPlane} {action : ControlAction}
    {rest : List ControlAction} (next : n.live = some ⟨p, action :: rest⟩) (fate : Fate) :
    Moves n (n.execute p rest fate action) := by
  cases action with
  | send link frame =>
    cases fate with
    | failed => exact .skips next (by simp)
    | done | torn => exact .sends next
  | persistSeq seq =>
    cases fate with
    | failed => exact .stops (Nat.le_refl _)
    | done =>
      simp only [execute, persist]
      split
      · exact .stops (Nat.le_refl _)
      · exact .persists next
    | torn =>
      simp only [execute, persist]
      split
      · exact .stops (Nat.le_refl _)
      · rename_i hle
        exact .stops (UInt64.le_iff_toNat_le.mp (UInt64.not_lt.mp hle))
  | setTimer | publishRoutes | publishTopicAds => exact .skips next (by simp)

theorem step_moves {n n' : Node} {s : NodeStep} (h : n.step s = some n') : Moves n n' := by
  cases s with
  | start =>
    simp only [step] at h
    split at h
    · cases h
    · rename_i hdown
      simp only [spawn] at h
      split at h
      · cases h
      · rename_i hroom
        cases h
        exact .starts hroom (by simpa using hdown)
  | input now event =>
    simp only [step] at h
    split at h
    · rename_i plane hlive
      cases h
      cases hh : plane.handle now event with
      | none => exact .stops (Nat.le_refl _)
      | some r => exact .handles hlive (handle_spec hh)
    · cases h
  | act fate =>
    simp only [step] at h
    split at h
    · rename_i plane action rest hlive
      cases h
      exact execute_moves hlive fate
    · cases h
  | crash =>
    cases h
    exact .stops (Nat.le_refl _)

/-! ## Invariant -/

/-- What an incarnation may still do, against what was sent before. -/
structure Running (n : Node) (r : Incarnation) : Prop where
  me : r.plane.me = n.me
  epoch : r.plane.epoch = n.epoch
  own : Own r.plane
  /-- The number is stored, or storing it is the next action. -/
  durable : (r.plane.mySeq = n.store ∧ persists r.pending = []) ∨
    n.store.toNat < r.plane.mySeq.toNat ∧
      ∃ rest, r.pending = .persistSeq r.plane.mySeq :: rest ∧ persists rest = []
  frames : ∀ link frame, (link, frame) ∈ Control.sends r.pending →
    ∃ event, FrameOf r.plane event frame
  /-- An own entry is newer than what earlier incarnations sent. -/
  above : n.me ∈ r.plane.lsdb → ∀ a ∈ n.sent, a.start < n.starts →
    ∀ v ∈ selfVersions n.me a.frame, v < ⟨n.epoch, r.plane.mySeq⟩
  /-- An own LSA that was sent under the current number is the current one. -/
  content : ∀ a ∈ n.sent, ∀ m m', a.frame = .lsa m → m.lsa.origin = n.me →
    r.plane.stored n.me = some m' → lsaVersion m.lsa = lsaVersion m'.lsa → m = m'

structure Inv (n : Node) : Prop where
  bounded : ∀ a ∈ n.sent, ∀ v ∈ selfVersions n.me a.frame, v ≤ ⟨n.epoch, n.store⟩
  starts : ∀ a ∈ n.sent, a.start ≤ n.starts
  increasing : ∀ a ∈ n.sent, ∀ b ∈ n.sent, a.start < b.start → ∀ m, b.frame = .lsa m →
    m.lsa.origin = n.me → ∀ v ∈ selfVersions n.me a.frame, v < lsaVersion m.lsa
  unique : ∀ a ∈ n.sent, ∀ b ∈ n.sent, ∀ m m', a.frame = .lsa m → b.frame = .lsa m' →
    m.lsa.origin = n.me → m'.lsa.origin = n.me → lsaVersion m.lsa = lsaVersion m'.lsa → m = m'
  running : ∀ r, n.live = some r → Running n r

theorem inv_init (me : NodeId) (epoch : UInt32) (stored : UInt64) : Inv (init me epoch stored) := by
  refine ⟨?_, ?_, ?_, ?_, ?_⟩ <;> simp [init]

theorem version_le {epoch : UInt32} {s t : UInt64} :
    (⟨epoch, s⟩ : Version) ≤ ⟨epoch, t⟩ ↔ s.toNat ≤ t.toNat := by
  rw [← not_lt, Version.lt_def]
  simp

theorem version_lt {epoch : UInt32} {s t : UInt64} :
    (⟨epoch, s⟩ : Version) < ⟨epoch, t⟩ ↔ s.toNat < t.toNat := by
  rw [Version.lt_def]
  simp

/-- The versions of a frame the plane sends about itself are its own current version. -/
theorem Running.version_of_send {n : Node} {r : Incarnation} (h : Running n r) {link : LinkId}
    {frame : ControlFrame} (hs : (link, frame) ∈ Control.sends r.pending) {v : Version}
    (hv : v ∈ selfVersions n.me frame) : n.me ∈ r.plane.lsdb ∧ v = ⟨n.epoch, r.plane.mySeq⟩ := by
  obtain ⟨event, hframe⟩ := h.frames link frame hs
  cases hframe with
  | @lsa o m hm =>
    simp only [selfVersions] at hv
    split at hv
    · rename_i horigin
      have ho : o = r.plane.me := by rw [← h.own.origin o m hm, horigin, h.me]
      subst ho
      rw [List.mem_singleton] at hv
      refine ⟨?_, ?_⟩
      · rw [← h.me, OrdMap.mem_iff_get]
        simp only [stored, Option.map_eq_some_iff, Option.bind_eq_some_iff] at hm
        obtain ⟨active, ⟨e, he, -⟩, -⟩ := hm
        exact ⟨e, he⟩
      · rw [hv, h.own.message m hm, ← h.epoch]
        rfl
    · simp at hv
  | digest =>
    simp only [selfVersions, digest, List.mem_map, List.mem_filter,
      decide_eq_true_eq] at hv
    obtain ⟨entry, ⟨⟨⟨o, e⟩, hmem, rfl⟩, ho⟩, rfl⟩ := hv
    simp only at ho
    subst ho
    have he := OrdMap.mem_toList.mp hmem
    refine ⟨OrdMap.mem_iff_get.mpr ⟨e, he⟩, ?_⟩
    rw [← h.me] at he
    rw [← h.epoch, ← h.own.version e he]
    rfl
  | digestReq => simp [selfVersions] at hv

/-- A frame waiting to be sent with no `PersistSeq` before it is covered by the store. -/
theorem Running.stored_of_send {n : Node} {p : ControlPlane} {link : LinkId} {frame : ControlFrame}
    {rest : List ControlAction} (h : Running n ⟨p, .send link frame :: rest⟩) :
    p.mySeq = n.store ∧ persists rest = [] := by
  rcases h.durable with hd | ⟨-, rest', heq, -⟩
  · exact hd
  · cases heq

theorem mem_log {log : List Sent} {a b : Sent} : a ∈ log ++ [b] ↔ a ∈ log ∨ a = b := by
  rw [List.mem_append, List.mem_singleton]

theorem Inv.sends {n : Node} (hI : Inv n) {p : ControlPlane} {rest : List ControlAction}
    {link : LinkId} {frame : ControlFrame}
    (next : n.live = some ⟨p, .send link frame :: rest⟩) :
    Inv { n with live := some ⟨p, rest⟩, sent := n.sent ++ [⟨n.starts, link, frame⟩] } := by
  have hR := hI.running _ next
  obtain ⟨hstore, hquiet⟩ := hR.stored_of_send
  have hhead : (link, frame) ∈ Control.sends (.send link frame :: rest) := by simp
  have hself : ∀ v ∈ selfVersions n.me frame,
      n.me ∈ p.lsdb ∧ v = ⟨n.epoch, p.mySeq⟩ := fun v hv => hR.version_of_send hhead hv
  have hlsa : ∀ m, frame = .lsa m → m.lsa.origin = n.me → p.stored n.me = some m := by
    rintro m rfl horigin
    obtain ⟨event, hframe⟩ := hR.frames link _ hhead
    cases hframe with
    | @lsa o _ hm =>
      rw [← horigin, hR.own.origin o m hm]
      exact hm
  refine ⟨?_, ?_, ?_, ?_, ?_⟩
  · intro a ha v hv
    rcases mem_log.mp ha with ha | rfl
    · exact hI.bounded a ha v hv
    · rw [(hself v hv).2, hstore]
  · intro a ha
    rcases mem_log.mp ha with ha | rfl
    · exact hI.starts a ha
    · exact Nat.le_refl _
  · intro a ha b hb hlt m hm horigin v hv
    rcases mem_log.mp ha with ha | rfl <;> rcases mem_log.mp hb with hb | rfl
    · exact hI.increasing a ha b hb hlt m hm horigin v hv
    · have hmem := mem_selfVersions_lsa horigin
      rw [← hm] at hmem
      obtain ⟨hin, hver⟩ := hself _ hmem
      rw [hver]
      exact hR.above hin a ha hlt v hv
    · exact absurd hlt (Nat.not_lt.mpr (hI.starts b hb))
    · exact absurd hlt (Nat.lt_irrefl _)
  · intro a ha b hb m m' hm hm' ho ho' hver
    rcases mem_log.mp ha with ha | rfl <;> rcases mem_log.mp hb with hb | rfl
    · exact hI.unique a ha b hb m m' hm hm' ho ho' hver
    · exact hR.content a ha m m' hm ho (hlsa m' hm' ho') hver
    · exact (hR.content b hb m' m hm' ho' (hlsa m hm ho) hver.symm).symm
    · cases hm.symm.trans hm'
      rfl
  · intro r hr
    cases hr
    refine ⟨hR.me, hR.epoch, hR.own, .inl ⟨hstore, hquiet⟩, ?_, ?_, ?_⟩
    · intro l f hf
      exact hR.frames l f (by simp [hf])
    · intro hin a ha hlt v hv
      rcases mem_log.mp ha with ha | rfl
      · exact hR.above hin a ha hlt v hv
      · exact absurd hlt (Nat.lt_irrefl _)
    · intro a ha m m' hm ho hst hver
      rcases mem_log.mp ha with ha | rfl
      · exact hR.content a ha m m' hm ho hst hver
      · exact Option.some.inj ((hlsa m hm ho).symm.trans hst)

/-- Nothing that was sent about the node itself has a version above the stored one. -/
theorem Inv.lt_of_store {n : Node} (hI : Inv n) {seq : UInt64} (hlt : n.store.toNat < seq.toNat)
    {a : Sent} (ha : a ∈ n.sent) {v : Version} (hv : v ∈ selfVersions n.me a.frame) :
    v < ⟨n.epoch, seq⟩ :=
  (hI.bounded a ha v hv).trans_lt (version_lt.mpr hlt)

theorem Running.handles {n : Node} (hI : Inv n) {p q : ControlPlane} {acts : List ControlAction}
    {now : MonoTime} {event : ControlEvent} (idle : n.live = some ⟨p, []⟩)
    (h : Outcome p now event q acts) : Running n ⟨q, acts⟩ := by
  have hR := hI.running _ idle
  have hstore : p.mySeq = n.store := by
    rcases hR.durable with hd | ⟨-, rest, heq, -⟩
    · exact hd.1
    · cases heq
  have hme : p.me = n.me := hR.me
  have hsame := h.effect.same
  have hown := hR.own.step h.effect
  have hqme : q.me = n.me := hsame.me.trans hme
  have hqepoch : q.epoch = n.epoch := hsame.epoch.trans hR.epoch
  have hframes : ∀ link frame, (link, frame) ∈ Control.sends acts →
      ∃ event, FrameOf q event frame := fun link frame hs => ⟨event, h.frames hs⟩
  rcases h.effect.seq with hk | hadv
  · refine ⟨hqme, hqepoch, hown, .inl ⟨hk.mySeq.trans hstore, hk.quiet⟩, hframes, ?_, ?_⟩
    · intro hin a ha hlt v hv
      have hknown := hk.known
      rw [hme] at hknown
      have := hR.above (hknown hin) a ha hlt v hv
      rw [hk.mySeq]
      exact this
    · intro a ha m m' hm ho hst hver
      have hkept := hk.stored m'
      rw [hme] at hkept
      exact hR.content a ha m m' hm ho (hkept hst) hver
  · have hlt : n.store.toNat < q.mySeq.toNat := by
      rw [hadv.mySeq, ← hstore]
      exact seq_lt_succ hadv.seq_lt
    refine ⟨hqme, hqepoch, hown, .inr ⟨hlt, hadv.persisted⟩, hframes, ?_, ?_⟩
    · intro _ a ha _ v hv
      exact hI.lt_of_store hlt ha hv
    · -- the current number is above everything sent, so no earlier LSA has it
      intro a ha m m' hm ho hst hver
      have hv := mem_selfVersions_lsa ho
      rw [← hm] at hv
      have hnew := hI.lt_of_store hlt ha hv
      rw [← hqme] at hst
      rw [hver, hown.message m' hst, ← hqepoch] at hnew
      exact absurd hnew (lt_irrefl _)

/-- One step of the node keeps the invariant. -/
theorem Inv.step {n n' : Node} (hI : Inv n) (h : Moves n n') : Inv n' := by
  cases h with
  | starts room down =>
    refine ⟨hI.bounded, fun a ha => (hI.starts a ha).trans (Nat.le_succ _), hI.increasing,
      hI.unique, ?_⟩
    intro r hr
    cases hr
    have hlsdb : (newUnsecuredWithSeq n.me n.epoch n.store).lsdb = ∅ := rfl
    refine ⟨rfl, rfl, own_new _ _ _, .inl ⟨rfl, rfl⟩, by simp, by simp [hlsdb], ?_⟩
    intro a ha m m' hm ho hst
    simp [stored, hlsdb] at hst
  | handles idle h =>
    refine ⟨hI.bounded, hI.starts, hI.increasing, hI.unique, ?_⟩
    intro r hr
    cases hr
    have := Running.handles hI idle h
    exact ⟨this.me, this.epoch, this.own, this.durable, this.frames, this.above, this.content⟩
  | sends next => exact hI.sends next
  | @skips p action rest next quiet =>
    have hR := hI.running _ next
    refine ⟨hI.bounded, hI.starts, hI.increasing, hI.unique, ?_⟩
    intro r hr
    cases hr
    refine ⟨hR.me, hR.epoch, hR.own, ?_, ?_, hR.above, hR.content⟩
    · rcases hR.durable with ⟨hseq, hq⟩ | ⟨-, rest', heq, -⟩
      · refine .inl ⟨hseq, ?_⟩
        rw [persists, List.filterMap_cons] at hq
        split at hq
        · exact hq
        · cases hq
      · exact absurd (List.head_eq_of_cons_eq heq) (quiet _)
    · intro link frame hs
      refine hR.frames link frame ?_
      rw [mem_sends] at hs ⊢
      exact List.mem_cons_of_mem _ hs
  | @persists p seq rest next =>
    have hR := hI.running _ next
    obtain ⟨hlt, rest', heq, hquiet⟩ : n.store.toNat < p.mySeq.toNat ∧
        ∃ rest', ControlAction.persistSeq seq :: rest = .persistSeq p.mySeq :: rest' ∧
          persists rest' = [] := by
      rcases hR.durable with ⟨-, hq⟩ | hd
      · simp at hq
      · exact hd
    cases heq
    refine ⟨?_, hI.starts, hI.increasing, hI.unique, ?_⟩
    · intro a ha v hv
      exact (hI.lt_of_store hlt ha hv).le
    · intro r hr
      cases hr
      refine ⟨hR.me, hR.epoch, hR.own, .inl ⟨rfl, hquiet⟩, ?_, hR.above, hR.content⟩
      intro link frame hs
      exact hR.frames link frame hs
  | stops forward =>
    refine ⟨?_, hI.starts, hI.increasing, hI.unique, fun r hr => by cases hr⟩
    intro a ha v hv
    exact (hI.bounded a ha v hv).trans (version_le.mpr forward)

theorem run_inv {n n' : Node} {steps : List NodeStep} (hI : Inv n) (h : n.run steps = some n') :
    Inv n' :=
  foldlM_inv (fun _ _ _ hI hstep => hI.step (step_moves hstep)) hI h

theorem run_me {n n' : Node} {steps : List NodeStep} (h : n.run steps = some n') :
    n'.me = n.me := by
  refine foldlM_inv (P := fun m => m.me = n.me) ?_ rfl h
  intro s x s' hs hstep
  rw [← hs]
  cases step_moves hstep <;> rfl

/-- Over any number of incarnations, an LSA a node sends about itself is newer than every LSA and
digest entry earlier incarnations sent about it, and no two that it sends with one version
differ. -/
theorem own_versions_never_reused (me : NodeId) (epoch : UInt32) (stored : UInt64)
    (steps : List NodeStep) (n : Node) (hrun : (init me epoch stored).run steps = some n) :
    (∀ a ∈ n.sent, ∀ b ∈ n.sent, a.start < b.start → ∀ m, b.frame = .lsa m → m.lsa.origin = me →
      ∀ v ∈ selfVersions me a.frame, v < lsaVersion m.lsa) ∧
    ∀ a ∈ n.sent, ∀ b ∈ n.sent, ∀ m m', a.frame = .lsa m → b.frame = .lsa m' →
      m.lsa.origin = me → m'.lsa.origin = me → lsaVersion m.lsa = lsaVersion m'.lsa → m = m' := by
  have hI := run_inv (inv_init me epoch stored) hrun
  have hme : n.me = me := run_me hrun
  rw [← hme]
  exact ⟨hI.increasing, hI.unique⟩

/-- Link 0 comes up twice. The first incarnation crashes after it sent its LSA on the link and
before it sends its digest; the second cannot store its number; the third sends everything. -/
def crashes : List NodeStep :=
  let up : NodeStep := .input 0 (.linkUp 0 (.ofByte 2) unitCost)
  [.start, up, .act .done, .act .done, .crash, .start, up, .act .failed, .start, up] ++
    List.replicate 7 (.act .done)

theorem own_versions_never_reused_crashes :
    ∃ n, (init (.ofByte 1) 1 41).run crashes = some n ∧
      (n.sent.map fun a => (a.start, selfVersions (.ofByte 1) a.frame)) =
        [(1, [⟨1, 42⟩]), (3, [⟨1, 43⟩]), (3, [⟨1, 43⟩])] ∧
      ∀ a ∈ n.sent, ∀ b ∈ n.sent, a.start < b.start → ∀ m, b.frame = .lsa m →
        m.lsa.origin = .ofByte 1 → ∀ v ∈ selfVersions (.ofByte 1) a.frame,
        v < lsaVersion m.lsa := by
  have hrun : (((init (.ofByte 1) 1 41).run crashes).map fun n =>
      n.sent.map fun a => (a.start, selfVersions (.ofByte 1) a.frame)) =
      some [(1, [⟨1, 42⟩]), (3, [⟨1, 43⟩]), (3, [⟨1, 43⟩])] := by
    decide +kernel
  obtain ⟨n, hn, hsent⟩ := Option.map_eq_some_iff.mp hrun
  exact ⟨n, hn, hsent, (own_versions_never_reused _ _ _ crashes n hn).1⟩

end Node
end Runtime
end MeshBus
