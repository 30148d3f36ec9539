import MeshBus.Control.Cases

/-!
# Control.Steps

What one step of the control plane does, said once per event (`handle_spec`) and once for all
events (`Outcome.frames`, `Outcome.effect`). The proofs about whole networks and whole histories
use these statements and never unfold `handle`.
-/

namespace MeshBus
namespace Control
namespace ControlPlane

/-! ## Events -/

/-- What `handle` does, event by event. -/
inductive Outcome (p : ControlPlane) (now : MonoTime) :
    ControlEvent → ControlPlane → List ControlAction → Prop
  | linkUp {q acts} (link : LinkId) (peer : NodeId) (cost : LinkCost)
      (h : Originates { p with adjacencies := p.adjacencies.insert link ⟨peer, cost⟩ } now q acts) :
      Outcome p now (.linkUp link peer cost) q
        (acts ++ [q.sendDigest link, nextDigestTimer now link])
  | linkDown {q acts} (link : LinkId) (known : link ∈ p.adjacencies)
      (h : Originates { p with adjacencies := p.adjacencies.erase link } now q acts) :
      Outcome p now (.linkDown link) q acts
  | unknownLinkDown (link : LinkId) (unknown : link ∉ p.adjacencies) :
      Outcome p now (.linkDown link) p []
  | topicAds {q acts} (ads : List TopicAd)
      (valid : validTopicAds (ads.insertionSort (· ≤ ·)) = true)
      (changed : ads.insertionSort (· ≤ ·) ≠ p.localTopicAds)
      (h : Originates { p with localTopicAds := ads.insertionSort (· ≤ ·) } now q acts) :
      Outcome p now (.localTopicAdsChanged ads) q acts
  | keptTopicAds (ads : List TopicAd)
      (kept : validTopicAds (ads.insertionSort (· ≤ ·)) = false ∨
        ads.insertionSort (· ≤ ·) = p.localTopicAds) :
      Outcome p now (.localTopicAdsChanged ads) p []
  | lsa {q acts} (link : LinkId) (m : LsaMessage) (h : LsaReceipt p now link m q acts) :
      Outcome p now (.frame link (.lsa m)) q acts
  | digest {acts} (link : LinkId) (entries : List DigestEntry)
      (h : p.receiveDigest link entries = some acts) :
      Outcome p now (.frame link (.digest entries)) p acts
  | digestReq (link : LinkId) (origins : List NodeId) :
      Outcome p now (.frame link (.digestReq origins)) p (p.receiveDigestReq link origins)
  | digestTimer (link : LinkId) (known : link ∈ p.adjacencies) :
      Outcome p now (.timer (.digest link)) p [p.sendDigest link, nextDigestTimer now link]
  | deadDigestTimer (link : LinkId) (unknown : link ∉ p.adjacencies) :
      Outcome p now (.timer (.digest link)) p []
  | spf {q acts} (generation : Nat) (same : SameButSpf p q) (quiet : Quiet acts) :
      Outcome p now (.timer (.spfHold generation)) q acts
  | refresh {q acts} (epoch : UInt32) (seq : UInt64) (h : Originates p now q acts) :
      Outcome p now (.timer (.lsaRefresh epoch seq)) q acts
  | staleRefresh (epoch : UInt32) (seq : UInt64) :
      Outcome p now (.timer (.lsaRefresh epoch seq)) p []
  | expired {q acts} (origin : NodeId) (epoch : UInt32) (seq : UInt64) (entry : LsdbEntry)
      (current : p.lsdb[origin]? = some entry) (version : entry.version = ⟨epoch, seq⟩)
      (same : SameButSpf
        { p with lsdb := p.lsdb.insert origin { entry with state := .tombstone } } q)
      (quiet : Quiet acts) :
      Outcome p now (.timer (.lsaExpire origin epoch seq)) q acts
  | staleExpire {acts} (origin : NodeId) (epoch : UInt32) (seq : UInt64) (quiet : Quiet acts) :
      Outcome p now (.timer (.lsaExpire origin epoch seq)) p acts

theorem recomputeRoutes_spec {p q : ControlPlane} {acts : List ControlAction}
    (h : p.recomputeRoutes = some (q, acts)) : SameButSpf p q ∧ Quiet acts := by
  simp only [recomputeRoutes, bind, Option.bind_eq_some_iff] at h
  obtain ⟨routes, -, h⟩ := h
  split at h
  · cases h
    exact ⟨.refl p, rfl, rfl⟩
  · split at h
    · cases h
    · cases h
      exact ⟨⟨rfl, rfl, rfl, rfl, rfl, rfl, rfl, rfl⟩, rfl, rfl⟩

theorem recomputeTopicAds_spec (p : ControlPlane) :
    SameButSpf p p.recomputeTopicAds.1 ∧ Quiet p.recomputeTopicAds.2 := by
  rw [recomputeTopicAds]
  split
  · exact ⟨.refl p, rfl, rfl⟩
  · exact ⟨⟨rfl, rfl, rfl, rfl, rfl, rfl, rfl, rfl⟩, rfl, rfl⟩

theorem SameButSpf.trans {p q r : ControlPlane} (h1 : SameButSpf p q) (h2 : SameButSpf q r) :
    SameButSpf p r where
  me := h2.me.trans h1.me
  epoch := h2.epoch.trans h1.epoch
  mySeq := h2.mySeq.trans h1.mySeq
  adjacencies := h2.adjacencies.trans h1.adjacencies
  localTopicAds := h2.localTopicAds.trans h1.localTopicAds
  lsdb := h2.lsdb.trans h1.lsdb
  signer := h2.signer.trans h1.signer
  verifier := h2.verifier.trans h1.verifier

theorem handleSpfTimer_spec {p q : ControlPlane} {now : MonoTime} {generation : Nat}
    {acts : List ControlAction} (h : p.handleSpfTimer now generation = some (q, acts)) :
    SameButSpf p q ∧ Quiet acts := by
  cases handleSpfTimer_cases h with
  | stale | early => exact ⟨.refl p, rfl, rfl⟩
  | ran pending waiting current due routed routes computed =>
    obtain ⟨hsame, hquiet⟩ := recomputeRoutes_spec computed
    obtain ⟨hsame', hquiet'⟩ := recomputeTopicAds_spec routed
    have hsame0 : SameButSpf p routed :=
      ⟨hsame.me, hsame.epoch, hsame.mySeq, hsame.adjacencies, hsame.localTopicAds, hsame.lsdb,
        hsame.signer, hsame.verifier⟩
    exact ⟨hsame0.trans hsame', hquiet.append hquiet'⟩

theorem handleExpireTimer_spec {p q : ControlPlane} {now : MonoTime} {origin : NodeId}
    {epoch : UInt32} {seq : UInt64} {acts : List ControlAction}
    (h : p.handleExpireTimer now origin epoch seq = some (q, acts)) :
    Outcome p now (.timer (.lsaExpire origin epoch seq)) q acts := by
  cases handleExpireTimer_cases h with
  | stale | early => exact .staleExpire _ _ _ ⟨rfl, rfl⟩
  | expired e active current version isActive due marked =>
    obtain ⟨hsame, hquiet⟩ := markSpfDirty_spec marked
    exact .expired _ _ _ e current version hsame hquiet

theorem handle_spec {p q : ControlPlane} {now : MonoTime} {event : ControlEvent}
    {acts : List ControlAction} (h : p.handle now event = some (q, acts)) :
    Outcome p now event q acts := by
  cases handle_cases h with
  | linkUp link peer cost ho => exact .linkUp link peer cost (originateLsa_spec ho)
  | linkDown link known ho => exact .linkDown link known (originateLsa_spec ho)
  | unknownLinkDown link unknown => exact .unknownLinkDown link unknown
  | topicAds ads valid changed ho => exact .topicAds ads valid changed (originateLsa_spec ho)
  | keptTopicAds ads kept => exact .keptTopicAds ads kept
  | lsa link m hr => exact .lsa link m (receiveLsa_spec hr)
  | digest link entries hd => exact .digest link entries hd
  | digestReq link origins => exact .digestReq link origins
  | digestTimer link known => exact .digestTimer link known
  | deadDigestTimer link unknown => exact .deadDigestTimer link unknown
  | spf generation hs =>
    obtain ⟨hsame, hquiet⟩ := handleSpfTimer_spec hs
    exact .spf generation hsame hquiet
  | refresh epoch seq current ho => exact .refresh epoch seq (originateLsa_spec ho)
  | staleRefresh epoch seq stale => exact .staleRefresh epoch seq
  | expire origin epoch seq he => exact handleExpireTimer_spec he

/-! ## Summaries

What the invariants need of a step, whatever the event was. -/

/-- Every LSA a step sends is stored in the state it ends in, and every digest is that state's. -/
inductive FrameOf (q : ControlPlane) (event : ControlEvent) : ControlFrame → Prop
  | lsa {o : NodeId} {m : LsaMessage} (h : q.stored o = some m) : FrameOf q event (.lsa m)
  | digest : FrameOf q event (.digest q.digest)
  | digestReq {link : LinkId} {entries : List DigestEntry} {os : List NodeId}
      (answers : event = .frame link (.digest entries))
      (accepted : entries.length ≤ maxDigestEntries) (length_le : os.length ≤ entries.length) :
      FrameOf q event (.digestReq os)

theorem stored_insert_self (p : ControlPlane) (m : LsaMessage) (now : MonoTime) :
    stored { p with lsdb := p.lsdb.insert m.lsa.origin (activeEntry m now) } m.lsa.origin =
      some m := by
  simp [stored, activeEntry, LsdbEntry.active]

theorem stored_congr {p q : ControlPlane} (h : q.lsdb = p.lsdb) (o : NodeId) :
    q.stored o = p.stored o := by
  rw [stored, stored, h]

theorem Originates.stored {p q : ControlPlane} {now : MonoTime} {acts : List ControlAction}
    (h : Originates p now q acts) : q.stored p.nextMessage.lsa.origin = some p.nextMessage := by
  rw [stored_congr h.same.lsdb]
  exact stored_insert_self _ _ now

theorem Originates.frames {p q : ControlPlane} {now : MonoTime} {acts : List ControlAction}
    (h : Originates p now q acts) {link : LinkId} {frame : ControlFrame} (event : ControlEvent)
    (hs : (link, frame) ∈ sends acts) : FrameOf q event frame := by
  rw [h.sent] at hs
  obtain ⟨-, -, rfl⟩ := mem_floodSends.mp hs
  exact .lsa h.stored

theorem Outcome.frames {p q : ControlPlane} {now : MonoTime} {event : ControlEvent}
    {acts : List ControlAction} (h : Outcome p now event q acts) {link : LinkId}
    {frame : ControlFrame} (hs : (link, frame) ∈ sends acts) : FrameOf q event frame := by
  cases h with
  | linkUp l peer cost ho =>
    rw [sends_append, List.mem_append] at hs
    rcases hs with hs | hs
    · exact ho.frames _ hs
    · simp only [sendDigest, nextDigestTimer, sends_cons_send, sends_cons_setTimer, sends_nil,
        List.mem_singleton, Prod.mk.injEq] at hs
      obtain ⟨rfl, rfl⟩ := hs
      exact .digest
  | linkDown l known ho => exact ho.frames _ hs
  | topicAds ads valid changed ho => exact ho.frames _ hs
  | refresh epoch seq ho => exact ho.frames _ hs
  | unknownLinkDown | keptTopicAds | deadDigestTimer | staleRefresh => simp at hs
  | lsa l m hr =>
    cases hr with
    | ignored | full => simp at hs
    | stale =>
      obtain ⟨-, m', hm', rfl⟩ := staleReply_spec hs
      exact .lsa hm'
    | installed hlink hvalid hver hme hnew hroom hsame hsent hquiet =>
      rw [hsent] at hs
      obtain ⟨-, -, rfl⟩ := mem_floodSends.mp hs
      refine .lsa (o := m.lsa.origin) ?_
      rw [stored_congr hsame.lsdb]
      exact stored_insert_self _ _ now
  | digest l entries hd =>
    by_cases hacc : l ∈ p.adjacencies ∧ entries.length ≤ maxDigestEntries
    · obtain ⟨rfl, hs | ⟨os, rfl, hlen, -⟩⟩ :=
        (receiveDigest_spec hd hacc.1 hacc.2).only link frame hs
      · obtain ⟨o, m, hm, rfl⟩ := hs
        exact .lsa hm
      · exact .digestReq rfl hacc.2 hlen
    · rw [receiveDigest_ignored hd ((not_and_or.mp hacc).imp id Nat.lt_of_not_le)] at hs
      simp at hs
  | digestReq l origins =>
    obtain ⟨-, -, o, m, -, hm, rfl⟩ := mem_receiveDigestReq.mp hs
    exact .lsa hm
  | digestTimer l known =>
    simp only [sendDigest, nextDigestTimer, sends_cons_send, sends_cons_setTimer, sends_nil,
      List.mem_singleton, Prod.mk.injEq] at hs
    obtain ⟨rfl, rfl⟩ := hs
    exact .digest
  | spf generation same quiet =>
    rw [quiet.1] at hs
    simp at hs
  | expired origin epoch seq entry current version same quiet =>
    rw [quiet.1] at hs
    simp at hs
  | staleExpire origin epoch seq quiet =>
    rw [quiet.1] at hs
    simp at hs

/-- `mid` differs from `p` in its links and topic ads only: `p` as it is when it originates. -/
structure Prepared (p mid : ControlPlane) : Prop where
  me : mid.me = p.me
  epoch : mid.epoch = p.epoch
  mySeq : mid.mySeq = p.mySeq
  lsdb : mid.lsdb = p.lsdb
  signer : mid.signer = p.signer
  verifier : mid.verifier = p.verifier

/-- The four ways a step treats the database and the sequence number. -/
inductive Effect (p : ControlPlane) (now : MonoTime) (event : ControlEvent) :
    ControlPlane → List ControlAction → Prop
  | reply {q acts} (same : SameButSpf p q) (quiet : persists acts = []) :
      Effect p now event q acts
  | originate {q acts rest} (mid : ControlPlane) (prepared : Prepared p mid)
      (h : Originates mid now q acts) (quiet : persists rest = []) :
      Effect p now event q (acts ++ rest)
  | install {q acts} (link : LinkId) (m : LsaMessage) (received : event = .frame link (.lsa m))
      (foreign : m.lsa.origin ≠ p.me)
      (newer : ∀ e, p.lsdb[m.lsa.origin]? = some e → e.version < lsaVersion m.lsa)
      (room : m.lsa.origin ∈ p.lsdb ∨ p.lsdb.size < maxLsdbEntries)
      (same : SameButSpf { p with lsdb := p.lsdb.insert m.lsa.origin (activeEntry m now) } q)
      (quiet : persists acts = []) : Effect p now event q acts
  | expire {q acts} (origin : NodeId) (entry : LsdbEntry) (current : p.lsdb[origin]? = some entry)
      (expiry : event = .timer (.lsaExpire origin entry.version.epoch entry.version.seq))
      (same : SameButSpf
        { p with lsdb := p.lsdb.insert origin { entry with state := .tombstone } } q)
      (quiet : persists acts = []) : Effect p now event q acts

variable {p q : ControlPlane} {now : MonoTime} {event : ControlEvent} {acts : List ControlAction}

theorem Outcome.effect (h : Outcome p now event q acts) : Effect p now event q acts := by
  have plain : ∀ {mid : ControlPlane} {acts : List ControlAction}, Originates mid now q acts →
      Prepared p mid → Effect p now event q acts := by
    intro mid acts ho hp
    rw [← List.append_nil acts]
    exact .originate mid hp ho rfl
  cases h with
  | linkUp l peer cost ho =>
    refine .originate _ ?_ ho rfl
    exact ⟨rfl, rfl, rfl, rfl, rfl, rfl⟩
  | linkDown l known ho => exact plain ho ⟨rfl, rfl, rfl, rfl, rfl, rfl⟩
  | topicAds ads valid changed ho => exact plain ho ⟨rfl, rfl, rfl, rfl, rfl, rfl⟩
  | refresh epoch seq ho => exact plain ho ⟨rfl, rfl, rfl, rfl, rfl, rfl⟩
  | unknownLinkDown | keptTopicAds | deadDigestTimer | staleRefresh | digestTimer =>
    exact .reply (.refl p) rfl
  | lsa l m hr =>
    cases hr with
    | ignored | full => exact .reply (.refl p) rfl
    | stale => exact .reply (.refl p) (p.staleReply_replies l m.lsa).persists
    | installed hlink hvalid hver hme hnew hroom hsame hsent hquiet =>
      exact .install l m rfl hme hnew hroom hsame hquiet
  | digest l entries hd =>
    exact .reply (.refl p) (receiveDigest_replies hd).persists
  | digestReq l origins => exact .reply (.refl p) (p.receiveDigestReq_replies l origins).persists
  | spf generation same quiet => exact .reply same quiet.2
  | expired origin epoch seq entry current version same quiet =>
    exact .expire origin entry current (by rw [version]) same quiet.2
  | staleExpire origin epoch seq quiet => exact .reply (.refl p) quiet.2

/-- What no event changes. -/
structure SameNode (p q : ControlPlane) : Prop where
  me : q.me = p.me
  epoch : q.epoch = p.epoch
  signer : q.signer = p.signer
  verifier : q.verifier = p.verifier

theorem Effect.same (h : Effect p now event q acts) : SameNode p q := by
  cases h with
  | reply same _ | install _ _ _ _ _ _ same _ | expire _ _ _ _ same _ =>
    exact ⟨same.me, same.epoch, same.signer, same.verifier⟩
  | originate mid prepared ho _ =>
    exact ⟨ho.same.me.trans prepared.me, ho.same.epoch.trans prepared.epoch,
      ho.same.signer.trans prepared.signer, ho.same.verifier.trans prepared.verifier⟩

theorem run_same {events : List (MonoTime × ControlEvent)} (h : p.run events = some (q, acts)) :
    SameNode p q := by
  refine emitAll_inv (P := SameNode p) ?_ ⟨rfl, rfl, rfl, rfl⟩ h
  intro s x s' out hs hstep
  have hstep := (handle_spec hstep).effect.same
  exact ⟨hstep.me.trans hs.me, hstep.epoch.trans hs.epoch, hstep.signer.trans hs.signer,
    hstep.verifier.trans hs.verifier⟩

/-- Only link events change the links of a node. -/
theorem handle_adjacencies (h : p.handle now event = some (q, acts)) :
    q.adjacencies = match event with
      | .linkUp link peer cost => p.adjacencies.insert link ⟨peer, cost⟩
      | .linkDown link => p.adjacencies.erase link
      | _ => p.adjacencies := by
  cases handle_spec h with
  | linkUp l peer cost ho => exact ho.same.adjacencies
  | linkDown l known ho => exact ho.same.adjacencies
  | unknownLinkDown l unknown =>
    exact (OrdMap.erase_eq_self (Std.ExtTreeMap.getElem?_eq_none unknown)).symm
  | topicAds ads valid changed ho => exact ho.same.adjacencies
  | refresh epoch seq ho => exact ho.same.adjacencies
  | lsa l m hr =>
    cases hr with
    | ignored | full | stale => rfl
    | installed hlink hvalid hver hme hnew hroom hsame hsent hquiet => exact hsame.adjacencies
  | spf generation same quiet => exact same.adjacencies
  | expired origin epoch seq entry current version same quiet => exact same.adjacencies
  | keptTopicAds | digest | digestReq | digestTimer | deadDigestTimer | staleRefresh
  | staleExpire => rfl

/-! ## Stored messages -/

theorem nextMessage_eq {p : ControlPlane} (h : p.signer = unsecuredSign) :
    p.nextMessage = unsecuredSign (p.localLsa (p.mySeq + 1)) := by
  rw [nextMessage, h]

theorem nextMessage_unsecured {p : ControlPlane} (h : p.signer = unsecuredSign) :
    p.nextMessage.lsa = p.localLsa (p.mySeq + 1) := by
  rw [nextMessage_eq h]
  rfl

theorem seq_lt_succ {s : UInt64} (h : s.toNat ≠ u64Max) : s.toNat < (s + 1).toNat := by
  have hlt := s.toNat_lt
  rw [UInt64.toNat_add]
  simp only [u64Max] at h
  have h1 : (1 : UInt64).toNat = 1 := rfl
  omega

theorem stored_eq_some {p : ControlPlane} {o : NodeId} {m : LsaMessage} :
    p.stored o = some m ↔
      ∃ e active, p.lsdb[o]? = some e ∧ e.active = some active ∧ active.message = m := by
  simp only [stored, Option.map_eq_some_iff, Option.bind_eq_some_iff]
  constructor
  · rintro ⟨active, ⟨e, he, hactive⟩, hm⟩
    exact ⟨e, active, he, hactive, hm⟩
  · rintro ⟨e, active, he, hactive, hm⟩
    exact ⟨active, ⟨e, he, hactive⟩, hm⟩

/-- An entry after the step was there before it, holds the message originated or received, or has
expired. -/
theorem Effect.entry (h : Effect p now event q acts) {o : NodeId} {e : LsdbEntry}
    (he : q.lsdb[o]? = some e) :
    p.lsdb[o]? = some e ∨
      (∃ m, e = activeEntry m now ∧ m.lsa.origin = o ∧
        ((∃ mid acts', Prepared p mid ∧ Originates mid now q acts' ∧ m = mid.nextMessage) ∨
          ∃ link, event = .frame link (.lsa m))) ∨
      ∃ e0, p.lsdb[o]? = some e0 ∧ e = { e0 with state := .tombstone } ∧
        event = .timer (.lsaExpire o e0.version.epoch e0.version.seq) := by
  cases h with
  | reply same quiet => exact .inl (same.lsdb ▸ he)
  | originate mid prepared ho quiet =>
    rw [ho.same.lsdb, originated, prepared.lsdb, OrdMap.get_insert] at he
    split at he
    · rename_i heq
      exact .inr (.inl ⟨_, (Option.some.inj he).symm, heq, .inl ⟨mid, _, prepared, ho, rfl⟩⟩)
    · exact .inl he
  | install link m received foreign newer room same quiet =>
    rw [same.lsdb, OrdMap.get_insert] at he
    split at he
    · rename_i heq
      exact .inr (.inl ⟨m, (Option.some.inj he).symm, heq, .inr ⟨link, received⟩⟩)
    · exact .inl he
  | expire origin entry current expiry same quiet =>
    rw [same.lsdb, OrdMap.get_insert] at he
    split at he
    · rename_i heq
      subst heq
      exact .inr (.inr ⟨entry, current, (Option.some.inj he).symm, expiry⟩)
    · exact .inl he

/-- A message stored after the step was stored before it, is the one originated, or arrived. -/
theorem stored_step (h : Effect p now event q acts) {o : NodeId} {m : LsaMessage}
    (hm : q.stored o = some m) :
    p.stored o = some m ∨
      (∃ mid acts', Prepared p mid ∧ Originates mid now q acts' ∧ m = mid.nextMessage) ∨
      ∃ link, event = .frame link (.lsa m) := by
  obtain ⟨e, active, he, hactive, hmessage⟩ := stored_eq_some.mp hm
  obtain hold | ⟨m', rfl, -, hfrom⟩ | ⟨e0, -, rfl, -⟩ := h.entry he
  · exact .inl (stored_eq_some.mpr ⟨e, active, hold, hactive, hmessage⟩)
  · cases hactive
    cases hmessage
    exact .inr hfrom
  · cases hactive

/-- A frame brings at most the message it carries. -/
theorem handle_frame_stored {link : LinkId} {frame : ControlFrame}
    (h : p.handle now (.frame link frame) = some (q, acts)) {o : NodeId} {m : LsaMessage}
    (hm : q.stored o = some m) : p.stored o = some m ∨ frame = .lsa m := by
  cases handle_spec h with
  | digest | digestReq => exact .inl hm
  | lsa _ m' hr =>
    cases hr with
    | ignored | full | stale => exact .inl hm
    | installed hlink hvalid hver hme hnew hroom hsame hsent hquiet =>
      rw [stored, hsame.lsdb, OrdMap.get_insert] at hm
      split at hm
      · cases hm
        exact .inr rfl
      · exact .inl hm

/-! ## Entries -/

/-- Every active message stands under its own origin and version. -/
def Placed (p : ControlPlane) : Prop :=
  ∀ (o : NodeId) (e : LsdbEntry) (active : ActiveLsa), p.lsdb[o]? = some e →
    e.active = some active →
      active.message.lsa.origin = o ∧ e.version = lsaVersion active.message.lsa

instance (p : ControlPlane) : Decidable (Placed p) :=
  decidable_of_iff (∀ x ∈ p.lsdb.toList, ∀ active ∈ x.2.active,
      active.message.lsa.origin = x.1 ∧ x.2.version = lsaVersion active.message.lsa) (by
    constructor
    · intro h o e active he hactive
      exact h (o, e) (OrdMap.mem_toList.mpr he) active hactive
    · intro h x hx active hactive
      exact h x.1 x.2 active (OrdMap.mem_toList.mp hx) hactive)

theorem Placed.step (hp : Placed p) (h : Effect p now event q acts) : Placed q := by
  intro o e active he hactive
  obtain hold | ⟨m, rfl, horigin, -⟩ | ⟨e0, -, rfl, -⟩ := h.entry he
  · exact hp o e active hold hactive
  · cases hactive
    exact ⟨horigin, rfl⟩
  · cases hactive

/-- No version is given up. -/
def Grows (p q : ControlPlane) : Prop :=
  ∀ (o : NodeId) (e : LsdbEntry), p.lsdb[o]? = some e →
    ∃ e' : LsdbEntry, q.lsdb[o]? = some e' ∧ e.version ≤ e'.version

theorem Grows.refl (p : ControlPlane) : Grows p p := fun _ e he => ⟨e, he, le_rfl⟩

theorem Grows.trans {p q r : ControlPlane} (h1 : Grows p q) (h2 : Grows q r) : Grows p r := by
  intro o e he
  obtain ⟨e1, he1, hle1⟩ := h1 o e he
  obtain ⟨e2, he2, hle2⟩ := h2 o e1 he1
  exact ⟨e2, he2, hle1.trans hle2⟩

theorem handle_frame_grows {link : LinkId} {frame : ControlFrame}
    (h : p.handle now (.frame link frame) = some (q, acts)) : Grows p q := by
  cases handle_spec h with
  | digest | digestReq => exact .refl p
  | lsa _ m hr =>
    cases hr with
    | ignored | full | stale => exact .refl p
    | installed hlink hvalid hver hme hnew hroom hsame hsent hquiet =>
      intro o e he
      rw [hsame.lsdb, OrdMap.get_insert]
      split
      · rename_i heq
        subst heq
        exact ⟨_, rfl, (hnew e he).le⟩
      · exact ⟨e, he, le_rfl⟩

/-! ## Size of the database -/

theorem size_insert_le {lsdb : OrdMap NodeId LsdbEntry} {o : NodeId} {e : LsdbEntry}
    (h : lsdb.size ≤ maxLsdbEntries) (hroom : o ∈ lsdb ∨ lsdb.size < maxLsdbEntries) :
    (lsdb.insert o e).size ≤ maxLsdbEntries := by
  rw [Std.ExtTreeMap.size_insert]
  split
  · exact h
  · rename_i hnot
    rcases hroom with hmem | hlt
    · exact absurd hmem hnot
    · exact hlt

theorem Effect.size_le (h : Effect p now event q acts) (hp : p.lsdb.size ≤ maxLsdbEntries) :
    q.lsdb.size ≤ maxLsdbEntries := by
  cases h with
  | reply same quiet =>
    rw [same.lsdb]
    exact hp
  | originate mid prepared ho quiet =>
    rw [ho.same.lsdb]
    exact size_insert_le (by rw [prepared.lsdb]; exact hp) ho.room
  | install link m received foreign newer room same quiet =>
    rw [same.lsdb]
    exact size_insert_le hp room
  | expire origin entry current expiry same quiet =>
    rw [same.lsdb]
    exact size_insert_le hp (.inl (OrdMap.mem_iff_get.mpr ⟨entry, current⟩))

end ControlPlane
end Control
end MeshBus
