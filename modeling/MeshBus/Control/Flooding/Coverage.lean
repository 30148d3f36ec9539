import MeshBus.Control.Flooding.Messages

/-!
# Control.Flooding.Coverage

The links of a network. `Covered` says that whatever one end of a live link holds, the other end
holds too, or a frame in flight between them will make up for it: the LSA itself, a digest that
offers it, a request that asks for it, or a digest that shows its lack. Every step keeps every live
link covered.
-/

namespace MeshBus
namespace Control
namespace Mesh

open ControlPlane

variable {ι : Type}

/-- End `b` will come to hold version `v` of `o`, which end `a` holds. -/
inductive Covered (c : Mesh ι) (flight : List (InFlight ι)) (a b : ι × LinkId) (o : NodeId)
    (v : Version) : Prop
  | held (h : c.Holds b.1 o v)
  | sent (m : LsaMessage) (hm : ⟨a, .lsa m⟩ ∈ flight) (origin : m.lsa.origin = o)
      (version : v ≤ lsaVersion m.lsa)
  | offered (entries : List DigestEntry) (w : Version) (hd : ⟨a, .digest entries⟩ ∈ flight)
      (hw : (remoteVersions entries)[o]? = some w) (version : v ≤ w)
  | asked (os : List NodeId) (hr : ⟨b, .digestReq os⟩ ∈ flight) (ho : o ∈ os)
  | lacking (entries : List DigestEntry) (hd : ⟨b, .digest entries⟩ ∈ flight)
      (older : ∀ w, (remoteVersions entries)[o]? = some w → w < v)

/-- Both ends of every live link cover each other. -/
def LinksCovered (w : Wiring ι) (c : Mesh ι) : Prop :=
  ∀ a, c.Up a → c.Up (w.far a) → ∀ o e, (c.node a.1).lsdb[o]? = some e →
    Covered c c.flight a (w.far a) o e.version

theorem Covered.mono {c c' : Mesh ι} {flight flight' : List (InFlight ι)} {a b : ι × LinkId}
    {o : NodeId} {v : Version} (h : Covered c flight a b o v)
    (hholds : c.Holds b.1 o v → c'.Holds b.1 o v) (hsub : ∀ x ∈ flight, x ∈ flight') :
    Covered c' flight' a b o v := by
  cases h with
  | held h => exact .held (hholds h)
  | sent m hm origin version => exact .sent m (hsub _ hm) origin version
  | offered entries w hd hw version => exact .offered entries w (hsub _ hd) hw version
  | asked os hr ho => exact .asked os (hsub _ hr) ho
  | lacking entries hd older => exact .lacking entries (hsub _ hd) older

/-- When `x` leaves the flight, what was covered still is, unless it was covered by `x`. -/
theorem Covered.split {c : Mesh ι} {flight flight' : List (InFlight ι)} {a b : ι × LinkId}
    {o : NodeId} {v : Version} {x : InFlight ι} (h : Covered c flight a b o v)
    (hsub : ∀ y ∈ flight, y = x ∨ y ∈ flight') :
    Covered c flight' a b o v ∨ Covered c [x] a b o v := by
  cases h with
  | held h => exact .inl (.held h)
  | sent m hm origin version =>
    rcases hsub _ hm with rfl | hm
    · exact .inr (.sent m (by simp) origin version)
    · exact .inl (.sent m hm origin version)
  | offered entries w hd hw version =>
    rcases hsub _ hd with rfl | hd
    · exact .inr (.offered entries w (by simp) hw version)
    · exact .inl (.offered entries w hd hw version)
  | asked os hr ho =>
    rcases hsub _ hr with rfl | hr
    · exact .inr (.asked os (by simp) ho)
    · exact .inl (.asked os hr ho)
  | lacking entries hd older =>
    rcases hsub _ hd with rfl | hd
    · exact .inr (.lacking entries (by simp) older)
    · exact .inl (.lacking entries hd older)

section CoveredStep

variable {w : Wiring ι} {id : ι → NodeId} {c c' : Mesh ι} {k : ι} {now : MonoTime}
  {event : ControlEvent} {acts : List ControlAction}

/-- Without a received frame everything in flight stays there. -/
theorem kept_of_local (h : Acts w c c' k now event acts)
    (hlocal : ∀ link frame, event ≠ .frame link frame) : ∀ x ∈ c.flight, x ∈ c'.flight := by
  intro x hx
  rcases h.kept x hx with hx | ⟨link, -, hev⟩
  · exact hx
  · exact absurd hev (hlocal link _)

/-- A link that was live before an event that is not a frame stays covered: what the node changed
in its database, it sent on that link. -/
theorem covered_of_old (hS : Sound id c) (hC : LinksCovered w c)
    (h : Acts w c c' k now event acts) (hlocal : ∀ link frame, event ≠ .frame link frame)
    {a : ι × LinkId} (ha : c.Up a) (hb : c.Up (w.far a))
    (hsent : ∀ o e, a.1 = k → (c'.node k).lsdb[o]? = some e → (c.node k).lsdb[o]? = some e ∨
      ∃ m, (a.2, .lsa m) ∈ sends acts ∧ m.lsa.origin = o ∧ e.version ≤ lsaVersion m.lsa)
    {o : NodeId} {e : LsdbEntry} (he : (c'.node a.1).lsdb[o]? = some e) :
    Covered c' c'.flight a (w.far a) o e.version := by
  have keep : (c.node a.1).lsdb[o]? = some e → Covered c' c'.flight a (w.far a) o e.version := by
    intro hold
    exact (hC a ha hb o e hold).mono (fun hh => holds_step hS h hh) (kept_of_local h hlocal)
  by_cases hak : a.1 = k
  · rw [hak] at he
    rcases hsent o e hak he with hold | ⟨m, hm, horigin, hle⟩
    · exact keep (hak ▸ hold)
    · refine .sent m ?_ horigin hle
      have hfl := h.new _ _ hm
      rw [← hak] at hfl
      exact hfl
  · rw [h.others _ hak] at he
    exact keep he

/-- What an origination changes, it sends on every link it leaves up. -/
theorem originate_sends {p mid q : ControlPlane} {acts' : List ControlAction}
    (hp : Prepared p mid) (ho : Originates mid now q acts') {link : LinkId}
    (hlink : link ∈ q.adjacencies) {o : NodeId} {e : LsdbEntry} (he : q.lsdb[o]? = some e) :
    p.lsdb[o]? = some e ∨
      ∃ m, (link, .lsa m) ∈ sends acts' ∧ m.lsa.origin = o ∧ e.version ≤ lsaVersion m.lsa := by
  rw [ho.same.lsdb, originated, hp.lsdb, OrdMap.get_insert] at he
  split at he
  · rename_i heq
    cases he
    refine .inr ⟨mid.nextMessage, ?_, heq, le_refl _⟩
    rw [ho.sent, mem_floodSends]
    rw [ho.same.adjacencies] at hlink
    exact ⟨hlink, by simp, rfl⟩
  · exact .inl he

/-- The digest of an end that comes up covers both directions of its link. -/
theorem covered_of_digest {a : ι × LinkId}
    (hd : ⟨a, .digest (c.node a.1).digest⟩ ∈ c.flight ∨
      ⟨w.far a, .digest (c.node (w.far a).1).digest⟩ ∈ c.flight)
    {o : NodeId} {e : LsdbEntry} (he : (c.node a.1).lsdb[o]? = some e) :
    Covered c c.flight a (w.far a) o e.version := by
  rcases hd with hd | hd
  · exact .offered _ e.version hd (by rw [remoteVersions_digest, he]; rfl) (le_refl _)
  · cases hb : (c.node (w.far a).1).lsdb[o]? with
    | none =>
      refine .lacking _ hd ?_
      intro v hv
      rw [remoteVersions_digest, hb] at hv
      cases hv
    | some e' =>
      by_cases hle : e.version ≤ e'.version
      · exact .held ⟨e', hb, hle⟩
      · refine .lacking _ hd ?_
        intro v hv
        rw [remoteVersions_digest, hb] at hv
        cases hv
        exact not_le.mp hle

theorem up_of_same (hsame : ∀ link, link ∈ (c'.node k).adjacencies → link ∈ (c.node k).adjacencies)
    (hothers : ∀ j, j ≠ k → c'.node j = c.node j) {a : ι × LinkId} (ha : c'.Up a) : c.Up a := by
  by_cases hak : a.1 = k
  · rw [Up, hak] at ha ⊢
    exact hsame _ ha
  · rw [Up, hothers _ hak] at ha
    exact ha

/-- Local events keep every live link covered. -/
theorem LinksCovered.local_step (hS : Sound id c) (hC : LinksCovered w c)
    (h : Acts w c c' k now event acts) (hlocal : ∀ link frame, event ≠ .frame link frame) :
    LinksCovered w c' := by
  intro a ha hb o e he
  have hout := h.outcome
  -- Links are only added by `LinkUp`; any other event originates, or changes nothing.
  have noNew : (∀ link, link ∈ (c'.node k).adjacencies → link ∈ (c.node k).adjacencies) →
      (∀ o e, a.1 = k → (c'.node k).lsdb[o]? = some e → (c.node k).lsdb[o]? = some e ∨
        ∃ m, (a.2, .lsa m) ∈ sends acts ∧ m.lsa.origin = o ∧ e.version ≤ lsaVersion m.lsa) →
      Covered c' c'.flight a (w.far a) o e.version := fun hadj hsent =>
    covered_of_old hS hC h hlocal (up_of_same hadj h.others ha) (up_of_same hadj h.others hb)
      hsent he
  have upK : a.1 = k → a.2 ∈ (c'.node k).adjacencies := by
    intro hak
    rw [← hak]
    exact ha
  generalize hq : c'.node k = q at hout noNew upK
  cases hout with
  | linkUp link peer cost ho =>
    have hdig : ⟨(k, link), .digest (c'.node k).digest⟩ ∈ c'.flight := by
      refine h.new _ _ ?_
      rw [hq]
      simp [sendDigest]
    by_cases hnew : a = (k, link) ∨ w.far a = (k, link)
    · refine covered_of_digest ?_ he
      refine hnew.imp ?_ ?_
      · rintro rfl
        exact hdig
      · intro hfar
        rw [hfar]
        exact hdig
    · rw [not_or] at hnew
      have hold : ∀ b : ι × LinkId, b ≠ (k, link) → c'.Up b → c.Up b := by
        intro b hne hup
        by_cases hbk : b.1 = k
        · rw [Up, hbk, hq, ho.same.adjacencies] at hup
          simp only [originated, OrdMap.mem_insert] at hup
          rcases hup with heq | hup
          · exact absurd (Prod.ext hbk heq.symm) hne
          · rw [Up, hbk]
            exact hup
        · rw [Up, h.others _ hbk] at hup
          exact hup
      refine covered_of_old hS hC h hlocal (hold a hnew.1 ha) (hold _ hnew.2 hb) ?_ he
      intro o' e' hak he'
      rw [hq] at he'
      refine Or.imp_right ?_
        (originate_sends ⟨rfl, rfl, rfl, rfl, rfl, rfl⟩ ho (upK hak) he')
      rintro ⟨m, hm, horigin, hle⟩
      exact ⟨m, by rw [sends_append]; exact List.mem_append_left _ hm, horigin, hle⟩
  | linkDown link known ho =>
    refine noNew ?_ fun o' e' hak he' =>
      originate_sends ⟨rfl, rfl, rfl, rfl, rfl, rfl⟩ ho (upK hak) he'
    intro l hl
    rw [ho.same.adjacencies] at hl
    exact ((OrdMap.mem_erase _ _ _).mp hl).2
  | topicAds ads valid changed ho =>
    refine noNew ?_ fun o' e' hak he' =>
      originate_sends ⟨rfl, rfl, rfl, rfl, rfl, rfl⟩ ho (upK hak) he'
    intro l hl
    rw [ho.same.adjacencies] at hl
    exact hl
  | refresh epoch seq ho =>
    refine noNew ?_ fun o' e' hak he' =>
      originate_sends ⟨rfl, rfl, rfl, rfl, rfl, rfl⟩ ho (upK hak) he'
    intro l hl
    rw [ho.same.adjacencies] at hl
    exact hl
  | unknownLinkDown | keptTopicAds | digestTimer | deadDigestTimer | staleRefresh =>
    exact noNew (fun _ hl => hl) fun _ _ _ he' => .inl he'
  | staleExpire origin epoch seq quiet => exact absurd rfl (h.live _ _ _)
  | expired origin epoch seq entry current version same quiet => exact absurd rfl (h.live _ _ _)
  | spf generation same quiet =>
    refine noNew (fun l hl => ?_) fun o' e' _ he' => .inl ?_
    · rw [same.adjacencies] at hl
      exact hl
    · rw [same.lsdb] at he'
      exact he'
  | lsa link m hr => exact absurd rfl (hlocal _ _)
  | digest link entries hd => exact absurd rfl (hlocal _ _)
  | digestReq link origins => exact absurd rfl (hlocal _ _)

theorem Sound.entry_known (hS : Sound id c) {i : ι} {o : NodeId} {e : LsdbEntry}
    (he : (c.node i).lsdb[o]? = some e) : ∃ j, id j = o ∧ c.Holds j o e.version := by
  obtain ⟨m, t, rfl, rfl⟩ := hS.active i o e he
  exact hS.known m (.inl ⟨i, _, stored_of_active he⟩)

/-- The node an LSA is delivered to holds it afterwards. -/
theorem holds_delivered [DecidableEq ι] [Fintype ι] (hid : Function.Injective id)
    (hS : Sound id c) (hadm : c.Admissible) {link : LinkId} {m : LsaMessage} {q : ControlPlane}
    (hm : c.Said m) (hlink : link ∈ (c.node k).adjacencies)
    (hr : LsaReceipt (c.node k) now link m q acts) :
    ∃ e, q.lsdb[m.lsa.origin]? = some e ∧ lsaVersion m.lsa ≤ e.version := by
  cases hr with
  | ignored hign =>
    rw [hS.valid m hm, hS.verifier k] at hign
    simp [hlink, unsecuredVerify] at hign
  | stale hst =>
    rcases hst with hme | hst
    · obtain ⟨i, hi, hholds⟩ := hS.known m hm
      rw [hme, hS.me k] at hi
      cases hid hi
      exact hholds
    · exact hst
  | full hfull => exact absurd (hS.not_full hadm hm hfull.1) (not_lt.mpr hfull.2)
  | installed hlink' valid verified foreign newer room same sent quiet =>
    rw [same.lsdb]
    exact ⟨activeEntry m now, by simp, le_refl _⟩

/-- What a digest offered is held or requested. -/
theorem covered_after_offer (hid : Function.Injective id) (hS : Sound id c) {link : LinkId}
    {entries : List DigestEntry} (hreply : DigestReply (c.node k) link entries acts)
    (hnew : ∀ link frame, (link, frame) ∈ sends acts → ⟨(k, link), frame⟩ ∈ c'.flight)
    (hmono : ∀ o v, c.Holds k o v → c'.Holds k o v) {a : ι × LinkId} {o : NodeId} {e : LsdbEntry}
    (he : (c.node a.1).lsdb[o]? = some e) {v : Version}
    (hv : (remoteVersions entries)[o]? = some v) (hle : e.version ≤ v) :
    Covered c' c'.flight a (k, link) o e.version := by
  by_cases hholds : c.Holds k o e.version
  · exact .held (hmono o _ hholds)
  · have hne : o ≠ (c.node k).me := by
      rintro rfl
      obtain ⟨j, hj, hh⟩ := hS.entry_known he
      rw [hS.me k] at hj
      cases hid hj
      exact hholds hh
    have hlt : ∀ e', (c.node k).lsdb[o]? = some e' → e'.version < v := by
      intro e' he'
      refine lt_of_lt_of_le (not_le.mp fun hge => ?_) hle
      exact hholds ⟨e', he', hge⟩
    obtain ⟨os, hos, ho⟩ := hreply.asked o v hv hlt hne
    exact .asked os (hnew _ _ hos) ho

/-- The frame handled is the only one that left the flight. -/
theorem delivered (h : Acts w c c' k now event acts) {link : LinkId} {frame : ControlFrame}
    (hev : event = .frame link frame) :
    ∃ x : InFlight ι, x.frame = frame ∧ x ∈ c.flight ∧ w.far x.src = (k, link) ∧
      w.far (k, link) = x.src ∧ ∀ y ∈ c.flight, y = x ∨ y ∈ c'.flight := by
  obtain ⟨a, hfar, hx⟩ := h.received link frame hev
  refine ⟨⟨a, frame⟩, rfl, hx, hfar, by rw [← hfar, w.far_far], ?_⟩
  intro y hy
  rcases h.kept y hy with hy | ⟨l, hl, hevy⟩
  · exact .inr hy
  · rw [hev] at hevy
    cases hevy
    left
    cases y
    rw [← w.far_far a, hfar, ← hl, w.far_far]

/-- An entry that was there before is covered as before, or by the frame just delivered. -/
theorem covered_old (hS : Sound id c) (hC : LinksCovered w c) (h : Acts w c c' k now event acts)
    {x : InFlight ι} (hsplit : ∀ y ∈ c.flight, y = x ∨ y ∈ c'.flight) {a : ι × LinkId}
    (ha : c.Up a) (hb : c.Up (w.far a)) {o : NodeId} {e : LsdbEntry}
    (he : (c.node a.1).lsdb[o]? = some e) :
    Covered c' c'.flight a (w.far a) o e.version ∨ Covered c [x] a (w.far a) o e.version :=
  ((hC a ha hb o e he).split hsplit).imp_left fun hc =>
    hc.mono (fun hh => holds_step hS h hh) fun _ hy => hy

theorem LinksCovered.lsa_step [DecidableEq ι] [Fintype ι] (hid : Function.Injective id)
    (hS : Sound id c) (hadm : c.Admissible) (hC : LinksCovered w c) {link : LinkId}
    {m : LsaMessage} (h : Acts w c c' k now (.frame link (.lsa m)) acts) : LinksCovered w c' := by
  obtain ⟨x, hxm, hx, hfar, hback, hsplit⟩ := delivered h rfl
  obtain ⟨a₀, f⟩ := x
  simp only at hxm hfar hback
  subst hxm
  have hm : c.Said m := .inr ⟨a₀, hx⟩
  have hout := h.outcome
  intro a ha hb o e he
  generalize hq : c'.node k = q at hout
  cases hout with
  | lsa _ _ hr =>
    have hadj : ∀ l, l ∈ (c'.node k).adjacencies → l ∈ (c.node k).adjacencies := by
      intro l hl
      rw [hq] at hl
      cases hr with
      | ignored | stale | full => exact hl
      | installed hlink valid verified foreign newer room same sent quiet =>
        rw [same.adjacencies] at hl
        exact hl
    have ha' : c.Up a := up_of_same hadj h.others ha
    have hb' : c.Up (w.far a) := up_of_same hadj h.others hb
    have keep : (c.node a.1).lsdb[o]? = some e →
        Covered c' c'.flight a (w.far a) o e.version := by
      intro hold
      rcases covered_old hS hC h hsplit ha' hb' hold with hc | hc
      · exact hc
      · cases hc with
        | held hh => exact .held (holds_step hS h hh)
        | sent m' hm' horigin hle =>
          simp only [List.mem_singleton, InFlight.mk.injEq, ControlFrame.lsa.injEq] at hm'
          obtain ⟨rfl, rfl⟩ := hm'
          rw [hfar] at hb' ⊢
          obtain ⟨e', he', hle'⟩ := holds_delivered hid hS hadm hm hb' hr
          refine .held ⟨e', ?_, hle.trans hle'⟩
          rw [← horigin, hq]
          exact he'
        | offered entries v' hd | lacking entries hd | asked os hd => simp at hd
    by_cases hak : a.1 = k
    · have he' := he
      rw [hak, hq] at he'
      cases hr with
      | ignored | stale | full => exact keep (hak ▸ he')
      | installed hlink valid verified foreign newer room same sent quiet =>
        rw [same.lsdb, OrdMap.get_insert] at he'
        split at he'
        · -- The new entry is flooded on every link but the one it came from.
          rename_i horigin
          cases he'
          by_cases hal : a.2 = link
          · have haeq : a = (k, link) := Prod.ext hak hal
            rw [haeq, hback, ← horigin]
            exact .held (holds_step hS h (hS.held a₀ m hx))
          · have hsent : (a.2, .lsa m) ∈ sends acts := by
              rw [sent, mem_floodSends]
              exact ⟨by rw [← hak]; exact ha', by simpa using hal, rfl⟩
            have hfl := h.new _ _ hsent
            rw [← hak] at hfl
            exact .sent m hfl horigin (le_refl _)
        · exact keep (hak ▸ he')
    · rw [h.others _ hak] at he
      exact keep he

theorem LinksCovered.digest_step (hid : Function.Injective id) (hS : Sound id c) (hs : Short c)
    (hC : LinksCovered w c) {link : LinkId} {entries : List DigestEntry}
    (h : Acts w c c' k now (.frame link (.digest entries)) acts) : LinksCovered w c' := by
  obtain ⟨x, hxm, hx, hfar, hback, hsplit⟩ := delivered h rfl
  obtain ⟨a₀, f⟩ := x
  simp only at hxm hfar hback
  subst hxm
  have hout := h.outcome
  intro a ha hb o e he
  generalize hq : c'.node k = q at hout
  cases hout with
  | digest _ _ hd =>
    have hnode := h.same (fun p => p) hq
    rw [Up, hnode] at ha hb
    rw [hnode] at he
    rcases covered_old hS hC h hsplit ha hb he with hc | hc
    · exact hc
    · cases hc with
      | held hh => exact .held (holds_step hS h hh)
      | sent m hm => simp at hm
      | asked os hr => simp at hr
      | offered entries' v hd' hv hle =>
        simp only [List.mem_singleton, InFlight.mk.injEq, ControlFrame.digest.injEq] at hd'
        obtain ⟨rfl, rfl⟩ := hd'
        rw [hfar] at hb ⊢
        have hreply := receiveDigest_spec hd hb (hs.digests _ _ hx)
        exact covered_after_offer hid hS hreply h.new (fun o v hh => holds_step hS h hh) he hv hle
      | lacking entries' hd' hold =>
        simp only [List.mem_singleton, InFlight.mk.injEq, ControlFrame.digest.injEq] at hd'
        obtain ⟨hfa, rfl⟩ := hd'
        have haeq : a = (k, link) := by rw [← w.far_far a, hfa, hfar]
        subst haeq
        have hreply := receiveDigest_spec hd ha (hs.digests _ _ hx)
        obtain ⟨m, t, rfl, horigin⟩ := hS.active k o e he
        have hsent := hreply.answered o _ m he (stored_of_active he) hold
        exact .sent m (h.new _ _ hsent) horigin (le_refl _)

theorem LinksCovered.digestReq_step (hS : Sound id c) (hs : Short c) (hC : LinksCovered w c)
    {link : LinkId} {os : List NodeId}
    (h : Acts w c c' k now (.frame link (.digestReq os)) acts) : LinksCovered w c' := by
  obtain ⟨x, hxm, hx, hfar, hback, hsplit⟩ := delivered h rfl
  obtain ⟨a₀, f⟩ := x
  simp only at hxm hfar hback
  subst hxm
  have hout := h.outcome
  intro a ha hb o e he
  generalize hq : c'.node k = q at hout
  cases hout with
  | digestReq =>
    have hnode := h.same (fun p => p) hq
    rw [Up, hnode] at ha hb
    rw [hnode] at he
    rcases covered_old hS hC h hsplit ha hb he with hc | hc
    · exact hc
    · cases hc with
      | held hh => exact .held (holds_step hS h hh)
      | sent m hm => simp at hm
      | offered entries v hd => simp at hd
      | lacking entries hd => simp at hd
      | asked os' hr ho =>
        simp only [List.mem_singleton, InFlight.mk.injEq, ControlFrame.digestReq.injEq] at hr
        obtain ⟨hfa, rfl⟩ := hr
        have haeq : a = (k, link) := by rw [← w.far_far a, hfa, hfar]
        subst haeq
        obtain ⟨m, t, rfl, horigin⟩ := hS.active k o e he
        have hsent : (link, .lsa m) ∈ sends ((c.node k).receiveDigestReq link os') :=
          mem_receiveDigestReq.mpr
            ⟨⟨ha, hs.requests _ _ hx⟩, rfl, o, m, ho, stored_of_active he, rfl⟩
        exact .sent m (h.new _ _ hsent) horigin (le_refl _)

end CoveredStep

end Mesh
end Control
end MeshBus
