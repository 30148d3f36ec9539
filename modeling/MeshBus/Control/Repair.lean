import MeshBus.Control.Exchange
import MeshBus.Control.Regular

/-!
# Control.Repair

One digest exchange repairs the divergence of two neighbours.

Whatever either of them stores during the exchange was in one of the two databases before it
(`Follows.entries`), and no version is ever given up (`Follows.grows`). So a node that is handed
the greatest version of an origin ends with it, and it remains to see that the one that lacks it is
handed it.

A version that has expired at one of them is not taken up again, on purpose: an expired entry
stays, with its version, so that the LSA is not revived by a late copy.
-/

namespace MeshBus
namespace Control
namespace ControlPlane

/-- What is assumed of two neighbours. -/
structure Neighbours (a b : ControlPlane) (la lb : LinkId) : Prop where
  upA : la ∈ a.adjacencies
  upB : lb ∈ b.adjacencies
  /-- Equal versions of an origin mean equal LSAs. -/
  agree : ∀ (o : NodeId) (ea eb : LsdbEntry) (x y : ActiveLsa), a.lsdb[o]? = some ea →
    b.lsdb[o]? = some eb → ea.version = eb.version → ea.active = some x → eb.active = some y →
    x.message.lsa = y.message.lsa
  /-- Neither holds a version of the other's own origin above the other's. -/
  ownA : ∀ e e' : LsdbEntry, b.lsdb[a.me]? = some e → a.lsdb[a.me]? = some e' →
    e.version ≤ e'.version
  ownB : ∀ e e' : LsdbEntry, a.lsdb[b.me]? = some e → b.lsdb[b.me]? = some e' →
    e.version ≤ e'.version
  room : (a.lsdb.keys ++ b.lsdb.keys).toFinset.card ≤ maxLsdbEntries
  valid : ∀ o m, a.stored o = some m ∨ b.stored o = some m → validLsa m.lsa = true

/-- `p` holds version `v` of `o` as an active LSA. -/
def HoldsActive (p : ControlPlane) (o : NodeId) (v : Version) (lsa : Lsa) : Prop :=
  ∃ e active, p.lsdb[o]? = some e ∧ e.version = v ∧ e.active = some active ∧
    active.message.lsa = lsa

instance (p : ControlPlane) (o : NodeId) (v : Version) (lsa : Lsa) :
    Decidable (HoldsActive p o v lsa) :=
  decidable_of_iff ((p.lsdb[o]?.any fun e =>
      e.version = v && e.active.any fun active => active.message.lsa = lsa) = true) (by
    simp only [Option.any_eq_true, Bool.and_eq_true, decide_eq_true_eq, HoldsActive]
    constructor
    · rintro ⟨e, he, hv, active, hactive, hlsa⟩
      exact ⟨e, active, he, hv, hactive, hlsa⟩
    · rintro ⟨e, active, he, hv, hactive, hlsa⟩
      exact ⟨e, he, hv, active, hactive, hlsa⟩)

section Exchange

variable {a b : ControlPlane}

/-- An entry one of the two starts with. -/
def Known (a b : ControlPlane) (o : NodeId) (e : LsdbEntry) : Prop :=
  a.lsdb[o]? = some e ∨ b.lsdb[o]? = some e

/-- The frames that go back and forth. -/
def Carried (a b : ControlPlane) : ControlFrame → Prop
  | .lsa m => ∃ o e active, Known a b o e ∧ e.active = some active ∧ active.message = m
  | .digest _ => False
  | .digestReq _ => True

/-- What one of the two, `p`, knows of the other. -/
structure Party (a b p : ControlPlane) (link : LinkId) : Prop where
  side : p = a ∨ p = b
  up : link ∈ p.adjacencies
  own : ∀ e, Known a b p.me e → ∃ e' : LsdbEntry, p.lsdb[p.me]? = some e' ∧ e.version ≤ e'.version
  accepts : ∀ o e active, Known a b o e → e.active = some active →
    (active.message.lsa.origin = o ∧ e.version = lsaVersion active.message.lsa) ∧
      validLsa active.message.lsa = true ∧ p.verifier active.message = true
  room : (a.lsdb.keys ++ b.lsdb.keys).toFinset.card ≤ maxLsdbEntries

/-- `q` is what `p` has become in the exchange. -/
structure Follows (a b p q : ControlPlane) : Prop where
  me : q.me = p.me
  verifier : q.verifier = p.verifier
  adjacencies : q.adjacencies = p.adjacencies
  /-- Every entry is one of the two, but for the times. -/
  entries : ∀ (o : NodeId) (e : LsdbEntry), q.lsdb[o]? = some e → ∃ e0, Known a b o e0 ∧
    e.version = e0.version ∧
    e.active.map ActiveLsa.message = e0.active.map ActiveLsa.message
  grows : Grows p q

theorem Follows.refl {p : ControlPlane} (h : p = a ∨ p = b) : Follows a b p p where
  me := rfl
  verifier := rfl
  adjacencies := rfl
  entries o e he := by
    refine ⟨e, ?_, rfl, rfl⟩
    rcases h with rfl | rfl
    · exact .inl he
    · exact .inr he
  grows := .refl p

/-- A message stored on the way was stored by one of the two. -/
theorem Follows.carried {p q : ControlPlane} (hq : Follows a b p q) {o : NodeId} {m : LsaMessage}
    (hm : q.stored o = some m) : Carried a b (.lsa m) := by
  obtain ⟨e, active, he, hactive, rfl⟩ := stored_eq_some.mp hm
  obtain ⟨e0, hknown, -, hmessage⟩ := hq.entries o e he
  rw [hactive, Option.map_some] at hmessage
  obtain ⟨active0, hactive0, heq⟩ := Option.map_eq_some_iff.mp hmessage.symm
  exact ⟨o, e0, active0, hknown, hactive0, heq⟩

theorem mem_union_of_known {o : NodeId} {e : LsdbEntry} (h : Known a b o e) :
    o ∈ (a.lsdb.keys ++ b.lsdb.keys).toFinset := by
  rw [List.mem_toFinset, List.mem_append, Std.ExtTreeMap.mem_keys, Std.ExtTreeMap.mem_keys]
  exact h.imp (fun h => OrdMap.mem_iff_get.mpr ⟨e, h⟩) (fun h => OrdMap.mem_iff_get.mpr ⟨e, h⟩)

/-- There is room for every origin of the two. -/
theorem Follows.not_full {p q : ControlPlane} {link : LinkId} (hp : Party a b p link)
    (hq : Follows a b p q) {o : NodeId} {e : LsdbEntry} (ho : Known a b o e) (hnew : o ∉ q.lsdb) :
    q.lsdb.size < maxLsdbEntries := by
  have hnot : o ∉ q.lsdb.keys.toFinset := by
    rw [List.mem_toFinset, Std.ExtTreeMap.mem_keys]
    exact hnew
  have hsub : q.lsdb.keys.toFinset ⊆ (a.lsdb.keys ++ b.lsdb.keys).toFinset := by
    intro k hk
    rw [List.mem_toFinset, Std.ExtTreeMap.mem_keys] at hk
    obtain ⟨e, he⟩ := OrdMap.mem_iff_get.mp hk
    obtain ⟨e0, hknown, -⟩ := hq.entries k e he
    exact mem_union_of_known hknown
  have hcard := (Finset.card_le_card
    (Finset.insert_subset (mem_union_of_known ho) hsub)).trans hp.room
  rw [Finset.card_insert_of_notMem hnot, OrdMap.card_keys] at hcard
  exact hcard

/-- A message of the exchange, received: the receiver ends with its version or a later one. -/
theorem Follows.receive {p q q' : ControlPlane} {link : LinkId} {now : MonoTime} {m : LsaMessage}
    {acts : List ControlAction} (hp : Party a b p link) (hq : Follows a b p q)
    (hm : Carried a b (.lsa m)) (h : q.handle now (.frame link (.lsa m)) = some (q', acts)) :
    Follows a b p q' ∧
      ∃ e : LsdbEntry, q'.lsdb[m.lsa.origin]? = some e ∧ lsaVersion m.lsa ≤ e.version := by
  obtain ⟨o, e0, active, hknown, hactive, rfl⟩ := hm
  obtain ⟨⟨horigin, hversion⟩, hvalid, hverified⟩ := hp.accepts o e0 active hknown hactive
  subst horigin
  cases handle_spec h with
  | lsa _ _ hr =>
    cases hr with
    | ignored hign =>
      rw [hq.adjacencies, hq.verifier, hvalid, hverified] at hign
      simp [hp.up] at hign
    | full hfull =>
      have hroom := hq.not_full hp hknown hfull.1
      omega
    | stale hstale =>
      refine ⟨hq, ?_⟩
      rcases hstale with hme | ⟨e, he, hle⟩
      · -- its own LSA: no version of it is above its own
        rw [hme, hq.me] at hknown ⊢
        obtain ⟨e', he', hle⟩ := hp.own e0 hknown
        obtain ⟨e'', he'', hle'⟩ := hq.grows _ e' he'
        exact ⟨e'', he'', hversion ▸ hle.trans hle'⟩
      · exact ⟨e, he, hle⟩
    | installed hlink _ _ hme hnew hroom hsame hsent hquiet =>
      refine ⟨⟨hsame.me.trans hq.me, hsame.verifier.trans hq.verifier,
        hsame.adjacencies.trans hq.adjacencies, ?_, hq.grows.trans (handle_frame_grows h)⟩, ?_⟩
      · intro k e he
        rw [hsame.lsdb, OrdMap.get_insert] at he
        split at he
        · rename_i heq
          subst heq
          cases he
          exact ⟨e0, hknown, hversion.symm, by rw [hactive]; rfl⟩
        · exact hq.entries k e he
      · rw [hsame.lsdb, OrdMap.get_insert, if_pos rfl]
        exact ⟨_, rfl, le_rfl⟩

theorem Follows.handle {p q q' : ControlPlane} {link : LinkId} {now : MonoTime}
    {frame : ControlFrame} {acts : List ControlAction} (hp : Party a b p link)
    (hq : Follows a b p q) (hframe : Carried a b frame)
    (h : q.handle now (.frame link frame) = some (q', acts)) :
    Follows a b p q' ∧ ∀ x ∈ sends acts, Carried a b x.2 := by
  have hfollows : Follows a b p q' := by
    cases frame with
    | lsa m => exact (hq.receive hp hframe h).1
    | digest entries => exact hframe.elim
    | digestReq os =>
      cases h
      exact hq
  refine ⟨hfollows, fun x hx => ?_⟩
  obtain ⟨o, m, hm, heq⟩ := answers_stored (by rintro entries rfl; exact hframe) h x hx
  rw [heq]
  exact hfollows.carried hm

/-- A whole delivery. Every message is taken up, and a request is answered by some state on the
way. -/
theorem Follows.run {p : ControlPlane} {link : LinkId} (hp : Party a b p link) :
    ∀ {events : List (MonoTime × ControlEvent)} {q q' : ControlPlane} {acts : List ControlAction},
    (∀ x ∈ events, ∃ frame, x.2 = .frame link frame ∧ Carried a b frame) → Follows a b p q →
    q.run events = some (q', acts) →
    Follows a b p q' ∧ Grows q q' ∧ (∀ x ∈ sends acts, Carried a b x.2) ∧
      (∀ x ∈ events, ∀ m, x.2 = .frame link (.lsa m) →
        ∃ e : LsdbEntry, q'.lsdb[m.lsa.origin]? = some e ∧ lsaVersion m.lsa ≤ e.version) ∧
      ∀ x ∈ events, ∀ os, x.2 = .frame link (.digestReq os) → os.length ≤ maxDigestReqOrigins →
        ∃ mid, Follows a b p mid ∧
          ∀ o ∈ os, ∀ m, mid.stored o = some m → (link, .lsa m) ∈ sends acts := by
  intro events
  induction events with
  | nil =>
    intro q q' acts _ hq h
    cases h
    exact ⟨hq, .refl _, by simp, by simp, by simp⟩
  | cons x events ih =>
    intro q q' acts hevents hq h
    obtain ⟨q1, out, rest, h1, h2, rfl⟩ := emitAll_cons_inv h
    obtain ⟨frame, hx, hframe⟩ := hevents x List.mem_cons_self
    rw [hx] at h1
    obtain ⟨hq1, hout⟩ := hq.handle hp hframe h1
    obtain ⟨hq', hgrows, hrest, htaken, hasked⟩ :=
      ih (fun y hy => hevents y (List.mem_cons_of_mem _ hy)) hq1 h2
    rw [sends_append]
    refine ⟨hq', (handle_frame_grows h1).trans hgrows, ?_, ?_, ?_⟩
    · intro y hy
      exact (List.mem_append.mp hy).elim (hout y) (hrest y)
    · intro y hy m hm
      rcases List.mem_cons.mp hy with rfl | hy
      · rw [hx] at hm
        cases hm
        obtain ⟨-, e, he, hle⟩ := hq.receive hp hframe h1
        obtain ⟨e', he', hle'⟩ := hgrows _ e he
        exact ⟨e', he', hle.trans hle'⟩
      · exact htaken y hy m hm
    · intro y hy os hos hlen
      rcases List.mem_cons.mp hy with rfl | hy
      · rw [hx] at hos
        cases hos
        refine ⟨q, hq, fun o ho m hm => List.mem_append.mpr (.inl ?_)⟩
        cases h1
        exact mem_receiveDigestReq.mpr ⟨⟨hq.adjacencies ▸ hp.up, hlen⟩, rfl, o, m, ho, hm, rfl⟩
      · obtain ⟨mid, hmid, hsent⟩ := hasked y hy os hos hlen
        exact ⟨mid, hmid, fun o ho m hm => List.mem_append.mpr (.inr (hsent o ho m hm))⟩

theorem Neighbours.party {verifier : LsaMessage → Bool} {la lb : LinkId}
    (h : Neighbours a b la lb) (ha : Regular verifier a) (hb : Regular verifier b)
    {p : ControlPlane} {link : LinkId} (hp : p = a ∧ link = la ∨ p = b ∧ link = lb) :
    Party a b p link := by
  have haccepts : ∀ o e active, Known a b o e → e.active = some active →
      (active.message.lsa.origin = o ∧ e.version = lsaVersion active.message.lsa) ∧
        validLsa active.message.lsa = true ∧ verifier active.message = true := by
    intro o e active hknown hactive
    rcases hknown with he | he
    · have hstored : a.stored o = some active.message :=
        stored_eq_some.mpr ⟨e, active, he, hactive, rfl⟩
      exact ⟨ha.placed o e active he hactive, h.valid o _ (.inl hstored), ha.accepted o _ hstored⟩
    · have hstored : b.stored o = some active.message :=
        stored_eq_some.mpr ⟨e, active, he, hactive, rfl⟩
      exact ⟨hb.placed o e active he hactive, h.valid o _ (.inr hstored), hb.accepted o _ hstored⟩
  rcases hp with ⟨rfl, rfl⟩ | ⟨rfl, rfl⟩
  · obtain ⟨own, hown⟩ := OrdMap.mem_iff_get.mp (ha.own _ h.upA)
    refine ⟨.inl rfl, h.upA, ?_, by rw [ha.verifies]; exact haccepts, h.room⟩
    rintro e (he | he)
    · exact ⟨e, he, le_rfl⟩
    · exact ⟨own, hown, h.ownA e own he hown⟩
  · obtain ⟨own, hown⟩ := OrdMap.mem_iff_get.mp (hb.own _ h.upB)
    refine ⟨.inr rfl, h.upB, ?_, by rw [hb.verifies]; exact haccepts, h.room⟩
    rintro e (he | he)
    · exact ⟨own, hown, h.ownB e own he hown⟩
    · exact ⟨e, he, le_rfl⟩

/-- A node of the exchange that has the greatest version of an origin has its LSA. -/
theorem Follows.holds {la lb : LinkId} (h : Neighbours a b la lb) {p q : ControlPlane}
    (hq : Follows a b p q) {o : NodeId} {v : Version} {lsa : Lsa}
    (hheld : HoldsActive a o v lsa ∨ HoldsActive b o v lsa)
    (hmax : ∀ e, Known a b o e → e.version ≤ v)
    (hlive : ∀ e, Known a b o e → e.version = v → e.active ≠ none)
    (hreached : ∃ e : LsdbEntry, q.lsdb[o]? = some e ∧ v ≤ e.version) : HoldsActive q o v lsa := by
  obtain ⟨e, he, hle⟩ := hreached
  obtain ⟨e0, hknown, hversion, hmessage⟩ := hq.entries o e he
  have hv : e0.version = v := le_antisymm (hmax e0 hknown) (hversion ▸ hle)
  obtain ⟨x, hx⟩ := Option.ne_none_iff_exists'.mp (hlive e0 hknown hv)
  rw [hx, Option.map_some] at hmessage
  obtain ⟨active, hactive, heq⟩ := Option.map_eq_some_iff.mp hmessage
  refine ⟨e, active, he, hversion.trans hv, hactive, ?_⟩
  rw [heq]
  rcases hheld with ⟨e', y, he', hv', hy, rfl⟩ | ⟨e', y, he', hv', hy, rfl⟩
  · rcases hknown with h0 | h0
    · rw [he'] at h0
      cases h0
      rw [hx] at hy
      cases hy
      rfl
    · exact (h.agree o e' e0 y x he' h0 (hv'.trans hv.symm) hy hx).symm
  · rcases hknown with h0 | h0
    · exact h.agree o e0 e' x y h0 he' (hv.trans hv'.symm) hx hy
    · rw [he'] at h0
      cases h0
      rw [hx] at hy
      cases hy
      rfl

/-- A delivery of frames of the exchange, for one of the two. -/
theorem Follows.deliver {p q : ControlPlane} {link : LinkId} {clock : Nat → MonoTime}
    {frames : List ControlFrame} {acts : List ControlAction} (hp : Party a b p link)
    (hframes : ∀ frame ∈ frames, Carried a b frame)
    (h : p.deliver link clock frames = some (q, acts)) :
    Follows a b p q ∧ (∀ frame ∈ framesOn link acts, Carried a b frame) ∧
      (∀ m, .lsa m ∈ frames →
        ∃ e : LsdbEntry, q.lsdb[m.lsa.origin]? = some e ∧ lsaVersion m.lsa ≤ e.version) ∧
      ∀ os, .digestReq os ∈ frames → os.length ≤ maxDigestReqOrigins →
        ∃ mid, Follows a b p mid ∧
          ∀ o ∈ os, ∀ m, mid.stored o = some m → .lsa m ∈ framesOn link acts := by
  obtain ⟨events, hrun, hfrom, hall⟩ := deliver_events h
  obtain ⟨hq, -, hsent, htaken, hasked⟩ := Follows.run hp (fun x hx => by
    obtain ⟨frame, hframe, heq⟩ := hfrom x hx
    exact ⟨frame, heq, hframes frame hframe⟩) (.refl hp.side) hrun
  refine ⟨hq, fun frame hframe => hsent _ (mem_framesOn.mp hframe), ?_, ?_⟩
  · intro m hm
    obtain ⟨x, hx, heq⟩ := hall _ hm
    exact htaken x hx m heq
  · intro os hos hlen
    obtain ⟨x, hx, heq⟩ := hall _ hos
    obtain ⟨mid, hmid, hanswer⟩ := hasked x hx os heq hlen
    exact ⟨mid, hmid, fun o ho m hm => mem_framesOn.mpr (hanswer o ho m hm)⟩

/-- After an exchange both hold the greatest version of an origin, if neither has seen it expire. -/
theorem exchange_holds {verifier : LsaMessage → Bool} {la lb : LinkId}
    (ha : Regular verifier a) (hb : Regular verifier b) (h : Neighbours a b la lb)
    {now : MonoTime} {atA atB : Nat → MonoTime} {a' b' : ControlPlane}
    (hex : a.exchange b la lb now atA atB = some (a', b')) {o : NodeId} {v : Version} {lsa : Lsa}
    (hheld : HoldsActive a o v lsa ∨ HoldsActive b o v lsa)
    (hmax : ∀ e, Known a b o e → e.version ≤ v)
    (hlive : ∀ e, Known a b o e → e.version = v → e.active ≠ none) :
    HoldsActive a' o v lsa ∧ HoldsActive b' o v lsa := by
  have hpa := h.party ha hb (.inl ⟨rfl, rfl⟩)
  have hpb := h.party ha hb (.inr ⟨rfl, rfl⟩)
  simp only [exchange, bind, Option.bind_eq_some_iff] at hex
  obtain ⟨⟨b1, answers⟩, hb1, ⟨a1, updates⟩, ha1, ⟨b2, out⟩, hb2, heq⟩ := hex
  cases heq
  have hdigest : b1 = b ∧ DigestReply b lb a.digest answers := by
    cases handle_spec hb1 with
    | digest _ _ hd =>
      refine ⟨rfl, receiveDigest_spec hd h.upB ?_⟩
      rw [length_digest]
      exact ha.size_le
  obtain ⟨rfl, hreply⟩ := hdigest
  have hcarried : ∀ frame ∈ framesOn lb answers, Carried a b1 frame := by
    intro frame hframe
    obtain ⟨-, ⟨k, m, hm, rfl⟩ | ⟨os, rfl, -⟩⟩ := hreply.only lb frame (mem_framesOn.mp hframe)
    · exact (Follows.refl (.inr rfl)).carried hm
    · trivial
  obtain ⟨hfa, hcarried', htaken, hasked⟩ := Follows.deliver hpa hcarried ha1
  obtain ⟨hfb, -, htaken', -⟩ := Follows.deliver hpb hcarried' hb2
  have hplaced : lsaVersion lsa = v ∧ lsa.origin = o := by
    rcases hheld with ⟨e, x, he, rfl, hx, rfl⟩ | ⟨e, x, he, rfl, hx, rfl⟩
    · exact ⟨(ha.placed o e x he hx).2.symm, (ha.placed o e x he hx).1⟩
    · exact ⟨(hb.placed o e x he hx).2.symm, (hb.placed o e x he hx).1⟩
  obtain ⟨hversion, horigin⟩ := hplaced
  constructor
  · refine hfa.holds h hheld hmax hlive ?_
    by_cases hhas : ∃ e : LsdbEntry, a.lsdb[o]? = some e ∧ v ≤ e.version
    · obtain ⟨e, he, hle⟩ := hhas
      obtain ⟨e', he', hle'⟩ := hfa.grows o e he
      exact ⟨e', he', hle.trans hle'⟩
    · -- `b` has it and sees from the digest that `a` has not
      obtain ⟨e, x, he, hv, hx, hlsa⟩ := hheld.resolve_left (by
        rintro ⟨e, x, he, hv, -⟩
        exact hhas ⟨e, he, hv.ge⟩)
      have hsent := hreply.answered o e x.message he (stored_eq_some.mpr ⟨e, x, he, hx, rfl⟩) (by
        intro w hw
        rw [remoteVersions_digest, Option.map_eq_some_iff] at hw
        obtain ⟨ea, hea, rfl⟩ := hw
        rw [hv]
        exact lt_of_not_ge fun hle => hhas ⟨ea, hea, hle⟩)
      have hend := htaken x.message (mem_framesOn.mpr hsent)
      rw [hlsa, hversion, horigin] at hend
      exact hend
  · refine hfb.holds h hheld hmax hlive ?_
    by_cases hhas : ∃ e : LsdbEntry, b1.lsdb[o]? = some e ∧ v ≤ e.version
    · obtain ⟨e, he, hle⟩ := hhas
      obtain ⟨e', he', hle'⟩ := hfb.grows o e he
      exact ⟨e', he', hle.trans hle'⟩
    · -- `a` has it, `b` asks for it, and `a` answers with what it has by then
      obtain ⟨e, x, he, hv, hx, hlsa⟩ := hheld.resolve_right (by
        rintro ⟨e, x, he, hv, -⟩
        exact hhas ⟨e, he, hv.ge⟩)
      have hforeign : o ≠ b1.me := by
        rintro rfl
        obtain ⟨e', he', hle⟩ := hpb.own e (.inl he)
        exact hhas ⟨e', he', hv ▸ hle⟩
      obtain ⟨os, hos, ho⟩ := hreply.asked o v
        (by rw [remoteVersions_digest, he, Option.map_some, hv])
        (fun eb heb => lt_of_not_ge fun hle => hhas ⟨eb, heb, hle⟩) hforeign
      have hlen : os.length ≤ maxDigestReqOrigins := by
        obtain ⟨-, ⟨k, m, -, hbad⟩ | ⟨os', heq, hlen, -⟩⟩ := hreply.only lb _ hos
        · cases hbad
        · cases heq
          rw [length_digest] at hlen
          exact hlen.trans ha.size_le
      obtain ⟨mid, hmid, hanswer⟩ := hasked os (mem_framesOn.mpr hos) hlen
      obtain ⟨e', he', hle⟩ := hmid.grows o e he
      obtain ⟨em, y, hem, -, hy, hlsa'⟩ := hmid.holds h hheld hmax hlive ⟨e', he', hv ▸ hle⟩
      have hend := htaken' y.message
        (hanswer o ho y.message (stored_eq_some.mpr ⟨em, y, hem, hy, rfl⟩))
      rw [hlsa', hversion, horigin] at hend
      exact hend

end Exchange

/-- One digest exchange repairs any divergence between two neighbours: of every origin whose
greatest version one of them holds as an active LSA, and neither has seen expire, both hold it
afterwards, with the same content. The exchange returns as long as the generations of the two
route computations have not nearly run out. -/
theorem exchange_repairs {verifier : LsaMessage → Bool} {a b : ControlPlane} {la lb : LinkId}
    (ha : Reached verifier a) (hb : Reached verifier b) (h : Neighbours a b la lb)
    (now : MonoTime) (atA atB : Nat → MonoTime) :
    (a.spfGeneration + maxLsdbEntries < u64Max → b.spfGeneration + maxLsdbEntries < u64Max →
      ∃ r, a.exchange b la lb now atA atB = some r) ∧
    ∀ a' b', a.exchange b la lb now atA atB = some (a', b') →
      ∀ o v lsa, HoldsActive a o v lsa ∨ HoldsActive b o v lsa →
        (∀ e, Known a b o e → e.version ≤ v) →
        (∀ e, Known a b o e → e.version = v → e.active ≠ none) →
        HoldsActive a' o v lsa ∧ HoldsActive b' o v lsa := by
  refine ⟨exchange_some now atA atB h.room, ?_⟩
  intro a' b' hex o v lsa hheld hmax hlive
  exact exchange_holds ha.regular hb.regular h hex hheld hmax hlive

/-! ## Samples -/

/-- What makes two nodes neighbours, by their lists of entries. -/
def Comparable (a b : ControlPlane) (la lb : LinkId) : Prop :=
  (la ∈ a.adjacencies ∧ lb ∈ b.adjacencies) ∧
    (∀ x ∈ a.lsdb.toList, ∀ y ∈ b.lsdb.toList, x.1 = y.1 → x.2.version = y.2.version →
      ∀ ma ∈ x.2.active, ∀ mb ∈ y.2.active, ma.message.lsa = mb.message.lsa) ∧
    (∀ x ∈ a.lsdb.toList, ∀ y ∈ b.lsdb.toList, x.1 = y.1 →
      (x.1 = a.me → y.2.version ≤ x.2.version) ∧ (x.1 = b.me → x.2.version ≤ y.2.version)) ∧
    (a.lsdb.keys ++ b.lsdb.keys).toFinset.card ≤ maxLsdbEntries ∧
    ∀ x ∈ a.lsdb.toList ++ b.lsdb.toList, ∀ m ∈ x.2.active, validLsa m.message.lsa = true

instance (a b : ControlPlane) (la lb : LinkId) : Decidable (Comparable a b la lb) :=
  inferInstanceAs (Decidable (_ ∧ _))

theorem Comparable.neighbours {a b : ControlPlane} {la lb : LinkId} (h : Comparable a b la lb) :
    Neighbours a b la lb := by
  obtain ⟨⟨hupA, hupB⟩, hagree, hown, hroom, hvalid⟩ := h
  refine ⟨hupA, hupB, ?_, ?_, ?_, hroom, ?_⟩
  · intro o ea eb x y hea heb hv hx hy
    exact hagree (o, ea) (OrdMap.mem_toList.mpr hea) (o, eb) (OrdMap.mem_toList.mpr heb) rfl hv
      x hx y hy
  · intro e e' he he'
    exact (hown (_, e') (OrdMap.mem_toList.mpr he') (_, e) (OrdMap.mem_toList.mpr he) rfl).1 rfl
  · intro e e' he he'
    exact (hown (_, e) (OrdMap.mem_toList.mpr he) (_, e') (OrdMap.mem_toList.mpr he') rfl).2 rfl
  · intro o m hm
    rcases hm with hm | hm
    · obtain ⟨e, active, he, hactive, rfl⟩ := stored_eq_some.mp hm
      exact hvalid (o, e) (List.mem_append.mpr (.inl (OrdMap.mem_toList.mpr he))) active hactive
    · obtain ⟨e, active, he, hactive, rfl⟩ := stored_eq_some.mp hm
      exact hvalid (o, e) (List.mem_append.mpr (.inr (OrdMap.mem_toList.mpr he))) active hactive

/-- An LSA of a third node, for one second. -/
def thirdLsa (seq : UInt64) : Lsa where
  origin := .ofByte 3
  epoch := 1
  seq := seq
  ttlSec := 1
  adjacencies := []
  topics := []

/-- A node with one link, after some events. -/
def afterLink (me peer : UInt8) (events : List (MonoTime × ControlEvent)) : Option ControlPlane :=
  ((newUnsecuredWithSeq (.ofByte me) 1 0).run
    ((0, .linkUp 1 (.ofByte peer) unitCost) :: events)).map Prod.fst

theorem afterLink_reached {me peer : UInt8} {events : List (MonoTime × ControlEvent)}
    {p : ControlPlane} (h : afterLink me peer events = some p) : Reached unsecuredVerify p := by
  obtain ⟨⟨q, acts⟩, hrun, rfl⟩ := Option.map_eq_some_iff.mp h
  exact ⟨_, _, _, unsecuredSign, _, acts, ⟨fun _ => rfl, fun _ => rfl⟩, hrun⟩

/-- The entry of an active LSA is the only one. -/
theorem HoldsActive.unique {p : ControlPlane} {o : NodeId} {v : Version} {lsa : Lsa}
    (h : HoldsActive p o v lsa) {e : LsdbEntry} (he : p.lsdb[o]? = some e) :
    e.version = v ∧ e.active ≠ none := by
  obtain ⟨e', active, he', hv, hactive, -⟩ := h
  rw [he] at he'
  cases he'
  exact ⟨hv, by rw [hactive]; exact Option.some_ne_none _⟩

/-- One of two neighbours has an older LSA of a third node: afterwards both have the newer one. -/
theorem exchange_repairs_third :
    ∃ a b a' b', afterLink 1 2 [(5, .frame 1 (.lsa (unsecuredSign (thirdLsa 1))))] = some a ∧
      afterLink 2 1 [(7, .frame 1 (.lsa (unsecuredSign (thirdLsa 2))))] = some b ∧
      a.exchange b 1 1 20 (fun _ => 21) (fun _ => 22) = some (a', b') ∧
      HoldsActive a (.ofByte 3) ⟨1, 1⟩ (thirdLsa 1) ∧
      HoldsActive a' (.ofByte 3) ⟨1, 2⟩ (thirdLsa 2) ∧
      HoldsActive b' (.ofByte 3) ⟨1, 2⟩ (thirdLsa 2) := by
  have hfacts : ((afterLink 1 2 [(5, .frame 1 (.lsa (unsecuredSign (thirdLsa 1))))]).bind fun a =>
      (afterLink 2 1 [(7, .frame 1 (.lsa (unsecuredSign (thirdLsa 2))))]).map fun b =>
        decide (Comparable a b 1 1 ∧ HoldsActive a (.ofByte 3) ⟨1, 1⟩ (thirdLsa 1) ∧
          HoldsActive b (.ofByte 3) ⟨1, 2⟩ (thirdLsa 2) ∧
          a.spfGeneration + maxLsdbEntries < u64Max ∧ b.spfGeneration + maxLsdbEntries < u64Max)) =
      some true := by
    decide +kernel
  obtain ⟨a, ha, hrest⟩ := Option.bind_eq_some_iff.mp hfacts
  obtain ⟨b, hb, heq⟩ := Option.map_eq_some_iff.mp hrest
  obtain ⟨hcomparable, hholdsA, hholdsB, hgenA, hgenB⟩ := of_decide_eq_true heq
  have hmain := exchange_repairs (afterLink_reached ha) (afterLink_reached hb)
    hcomparable.neighbours 20 (fun _ => 21) (fun _ => 22)
  obtain ⟨⟨a', b'⟩, hex⟩ := hmain.1 hgenA hgenB
  obtain ⟨hafterA, hafterB⟩ := hmain.2 a' b' hex (.ofByte 3) ⟨1, 2⟩ (thirdLsa 2) (.inr hholdsB)
    (by
      rintro e (he | he)
      · rw [(hholdsA.unique he).1]
        decide
      · rw [(hholdsB.unique he).1])
    (by
      rintro e (he | he) hv
      · exact (hholdsA.unique he).2
      · exact (hholdsB.unique he).2)
  exact ⟨a, b, a', b', ha, hb, hex, hholdsA, hafterA, hafterB⟩

/-- A version that has expired at one of two neighbours stays expired there, although the other
still holds it: the LSA arrived at `b` at time 0 and expired at time 1000, and at `a` it arrived at
time 900. -/
theorem exchange_keeps_expired :
    ∃ a b a' b', Reached unsecuredVerify a ∧ Reached unsecuredVerify b ∧ Neighbours a b 1 1 ∧
      a.exchange b 1 1 1000 (fun _ => 1000) (fun _ => 1000) = some (a', b') ∧
      HoldsActive a (.ofByte 3) ⟨1, 1⟩ (thirdLsa 1) ∧
      (∀ e, Known a b (.ofByte 3) e → e.version ≤ ⟨1, 1⟩) ∧
      ¬ HoldsActive b' (.ofByte 3) ⟨1, 1⟩ (thirdLsa 1) := by
  have hfacts :
      ((afterLink 1 2 [(900, .frame 1 (.lsa (unsecuredSign (thirdLsa 1))))]).bind fun a =>
        (afterLink 2 1 [(0, .frame 1 (.lsa (unsecuredSign (thirdLsa 1)))),
            (1000, .timer (.lsaExpire (.ofByte 3) 1 1))]).bind fun b =>
          (a.exchange b 1 1 1000 (fun _ => 1000) (fun _ => 1000)).map fun r =>
            decide (Comparable a b 1 1 ∧ HoldsActive a (.ofByte 3) ⟨1, 1⟩ (thirdLsa 1) ∧
              (∀ e ∈ b.lsdb[NodeId.ofByte 3]?, e.version ≤ ⟨1, 1⟩) ∧
              ¬ HoldsActive r.2 (.ofByte 3) ⟨1, 1⟩ (thirdLsa 1))) = some true := by
    decide +kernel
  obtain ⟨a, ha, hrest⟩ := Option.bind_eq_some_iff.mp hfacts
  obtain ⟨b, hb, hrest⟩ := Option.bind_eq_some_iff.mp hrest
  obtain ⟨⟨a', b'⟩, hex, heq⟩ := Option.map_eq_some_iff.mp hrest
  obtain ⟨hcomparable, hholds, hle, hnot⟩ := of_decide_eq_true heq
  refine ⟨a, b, a', b', afterLink_reached ha, afterLink_reached hb, hcomparable.neighbours, hex,
    hholds, ?_, hnot⟩
  rintro e (he | he)
  · rw [(hholds.unique he).1]
  · exact hle e he

end ControlPlane
end Control
end MeshBus
