import MeshBus.Control.Own
import MeshBus.Control.Exchange
import MeshBus.Lib.Latest

/-!
# Control.Database

How the entries of the link-state database move.

* `lsdb_monotone`: over a run an entry stays, its version never falls, and while the version stays
  the same the entry either does as well or turns into a tombstone, for good. No frame touches the
  entry of the node itself.
* `lsa_order_irrelevant`: the database is one `Latest` register per origin, so the order in which
  LSAs arrive, the links they take and how often they are repeated make no difference.
-/

namespace MeshBus
namespace Control

variable {p q : ControlPlane} {acts : List ControlAction} {o : NodeId} {messages : List LsaMessage}

/-- What an entry can become: one of a later version, itself, or its tombstone. -/
def LsdbEntry.Becomes (e e' : LsdbEntry) : Prop :=
  e.version < e'.version ∨ e' = e ∨ e' = { e with state := .tombstone }

theorem LsdbEntry.Becomes.trans {e e' e'' : LsdbEntry} (h : e.Becomes e') (h' : e'.Becomes e'') :
    e.Becomes e'' := by
  rcases h with hlt | rfl | rfl
  · rcases h' with hlt' | rfl | rfl
    · exact .inl (hlt.trans hlt')
    · exact .inl hlt
    · exact .inl hlt
  · exact h'
  · rcases h' with hlt' | rfl | rfl
    · exact .inl hlt'
    · exact .inr (.inr rfl)
    · exact .inr (.inr rfl)

theorem LsdbEntry.Becomes.le {e e' : LsdbEntry} (h : e.Becomes e') : e.version ≤ e'.version := by
  rcases h with hlt | rfl | rfl
  · exact hlt.le
  · exact le_rfl
  · exact le_rfl

namespace ControlPlane

/-! ## Over a run -/

/-- A node's own LSA is replaced by one of the next sequence number. -/
theorem Originates.version_lt {now : MonoTime} (h : Originates p now q acts)
    (hs : p.signer = unsecuredSign) :
    (⟨p.epoch, p.mySeq⟩ : Version) < lsaVersion p.nextMessage.lsa := by
  rw [nextMessage_unsecured hs]
  exact Version.lt_def.mpr (.inr ⟨rfl, seq_lt_succ h.seq_lt⟩)

theorem Effect.becomes {now : MonoTime} {event : ControlEvent} (hp : Own p)
    (h : Effect p now event q acts) {e : LsdbEntry} (he : p.lsdb[o]? = some e) :
    ∃ e' : LsdbEntry, q.lsdb[o]? = some e' ∧ e.Becomes e' := by
  cases h with
  | reply same quiet =>
    rw [same.lsdb]
    exact ⟨e, he, .inr (.inl rfl)⟩
  | originate mid prepared ho quiet =>
    have hs : mid.signer = unsecuredSign := prepared.signer.trans hp.signer
    rw [ho.same.lsdb, originated, prepared.lsdb, OrdMap.get_insert]
    split
    · rename_i horigin
      rw [nextMessage_unsecured hs] at horigin
      have hme : p.me = o := prepared.me.symm.trans horigin
      subst hme
      refine ⟨_, rfl, .inl ?_⟩
      rw [hp.version e he, ← prepared.epoch, ← prepared.mySeq]
      exact ho.version_lt hs
    · exact ⟨e, he, .inr (.inl rfl)⟩
  | install link m received foreign newer room same quiet =>
    rw [same.lsdb, OrdMap.get_insert]
    split
    · rename_i horigin
      exact ⟨_, rfl, .inl (newer e (horigin ▸ he))⟩
    · exact ⟨e, he, .inr (.inl rfl)⟩
  | expire origin entry current expiry same quiet =>
    rw [same.lsdb, OrdMap.get_insert]
    split
    · rename_i horigin
      subst horigin
      cases current.symm.trans he
      exact ⟨_, rfl, .inr (.inr rfl)⟩
    · exact ⟨e, he, .inr (.inl rfl)⟩

theorem Own.run {events : List (MonoTime × ControlEvent)} (hp : Own p)
    (h : p.run events = some (q, acts)) : Own q :=
  emitAll_inv (P := Own) (fun _ _ _ _ hs hstep => hs.step (handle_spec hstep).effect) hp h

theorem run_becomes {events : List (MonoTime × ControlEvent)} (hp : Own p)
    (h : p.run events = some (q, acts)) {e : LsdbEntry} (he : p.lsdb[o]? = some e) :
    ∃ e' : LsdbEntry, q.lsdb[o]? = some e' ∧ e.Becomes e' := by
  refine (emitAll_inv (P := fun s => Own s ∧ ∃ e' : LsdbEntry, s.lsdb[o]? = some e' ∧ e.Becomes e')
    ?_ ⟨hp, e, he, .inr (.inl rfl)⟩ h).2
  rintro s x s' out ⟨hs, e1, he1, h1⟩ hstep
  have heffect := (handle_spec hstep).effect
  obtain ⟨e2, he2, h2⟩ := heffect.becomes hs he1
  exact ⟨hs.step heffect, e2, he2, h1.trans h2⟩

/-- A frame leaves the entry of the node itself alone. -/
theorem handle_frame_me {now : MonoTime} {link : LinkId} {frame : ControlFrame}
    (h : p.handle now (.frame link frame) = some (q, acts)) : q.lsdb[p.me]? = p.lsdb[p.me]? := by
  cases handle_spec h with
  | digest | digestReq => rfl
  | lsa _ m hr =>
    cases hr with
    | ignored | full | stale => rfl
    | installed hlink hvalid hver hme hnew hroom hsame hsent hquiet =>
      rw [hsame.lsdb, OrdMap.get_insert, if_neg hme]

/-- From any state of a run to any later one: an entry stays, its version never falls, and under
the same version it stays as it is or turns into a tombstone. A frame never changes the entry of
the node itself. -/
theorem lsdb_monotone {me : NodeId} {epoch : UInt32} {lastSeq : UInt64} {p q : ControlPlane}
    {events later : List (MonoTime × ControlEvent)} {acts acts' : List ControlAction}
    (h : (newUnsecuredWithSeq me epoch lastSeq).run events = some (p, acts))
    (hlater : p.run later = some (q, acts')) :
    (∀ (o : NodeId) (e : LsdbEntry), p.lsdb[o]? = some e →
      ∃ e' : LsdbEntry, q.lsdb[o]? = some e' ∧ e.version ≤ e'.version ∧
        (e'.version = e.version → e' = e ∨ e' = { e with state := .tombstone })) ∧
    ∀ now link frame r acts, p.handle now (.frame link frame) = some (r, acts) →
      r.lsdb[me]? = p.lsdb[me]? := by
  have hown : Own p := (own_new me epoch lastSeq).run h
  have hme : p.me = me := (run_same h).me
  refine ⟨?_, ?_⟩
  · intro o e he
    obtain ⟨e', he', hbecomes⟩ := run_becomes hown hlater he
    refine ⟨e', he', hbecomes.le, ?_⟩
    intro heq
    exact hbecomes.resolve_left (by rw [heq]; exact lt_irrefl _)
  · intro now link frame r acts hframe
    rw [← hme]
    exact handle_frame_me hframe

/-- A neighbour that lists the node `1`, in two versions. -/
def peerLsa (seq : UInt64) : Lsa where
  origin := .ofByte 2
  epoch := 1
  seq := seq
  ttlSec := 1
  adjacencies := [⟨.ofByte 1, unitCost⟩]
  topics := []

def peerUp : ControlEvent := .linkUp 7 (.ofByte 2) unitCost

/-- The LSA of the neighbour expires, and arriving again it does not come back. -/
theorem lsdb_monotone_expired :
    ∃ p q acts acts', (newUnsecuredWithSeq (.ofByte 1) 1 0).run
        [(0, peerUp), (5, .frame 7 (.lsa (unsecuredSign (peerLsa 1))))] = some (p, acts) ∧
      p.run [(1005, .timer (.lsaExpire (.ofByte 2) 1 1)),
        (1006, .frame 7 (.lsa (unsecuredSign (peerLsa 1))))] = some (q, acts') ∧
      p.lsdb[NodeId.ofByte 2]? = some (activeEntry (unsecuredSign (peerLsa 1)) 5) ∧
      q.lsdb[NodeId.ofByte 2]? = some ⟨⟨1, 1⟩, .tombstone⟩ ∧
      ∃ e' : LsdbEntry, q.lsdb[NodeId.ofByte 2]? = some e' ∧ (⟨1, 1⟩ : Version) ≤ e'.version := by
  have hfacts : ((newUnsecuredWithSeq (.ofByte 1) 1 0).run
      [(0, peerUp), (5, .frame 7 (.lsa (unsecuredSign (peerLsa 1))))]).bind (fun a =>
        (a.1.run [(1005, .timer (.lsaExpire (.ofByte 2) 1 1)),
          (1006, .frame 7 (.lsa (unsecuredSign (peerLsa 1))))]).map fun b => decide
            (a.1.lsdb[NodeId.ofByte 2]? = some (activeEntry (unsecuredSign (peerLsa 1)) 5) ∧
              b.1.lsdb[NodeId.ofByte 2]? = some ⟨⟨1, 1⟩, .tombstone⟩)) = some true := by
    decide +kernel
  obtain ⟨⟨p, acts⟩, hp, hrest⟩ := Option.bind_eq_some_iff.mp hfacts
  obtain ⟨⟨q, acts'⟩, hq, hdec⟩ := Option.map_eq_some_iff.mp hrest
  obtain ⟨hbefore, hafter⟩ := of_decide_eq_true hdec
  obtain ⟨e', he', hle, -⟩ := (lsdb_monotone hp hq).1 _ _ hbefore
  exact ⟨p, q, acts, acts', hp, hq, hbefore, hafter, e', he', hle⟩

/-! ## In any order -/

/-- What a node knows of an origin: the version and, unless it has expired, the LSA. -/
def view (p : ControlPlane) (o : NodeId) : Option (Version × Option Lsa) :=
  p.lsdb[o]?.map fun e => (e.version, e.active.map fun active => active.message.lsa)

/-- What is known of an origin once its register has taken a message, or none. -/
def viewAfter (p : ControlPlane) (o : NodeId) : Option LsaMessage → Option (Version × Option Lsa)
  | none => p.view o
  | some m => some (lsaVersion m.lsa, some m.lsa)

/-- A message that passes every check of `receive_lsa` but the one of its version. -/
structure Admissible (p : ControlPlane) (m : LsaMessage) : Prop where
  valid : validLsa m.lsa = true
  verified : p.verifier m = true
  foreign : m.lsa.origin ≠ p.me

/-- `messages` arrive, in any order and any number of times, on links that are up. -/
structure Arrives (p : ControlPlane) (messages : List LsaMessage)
    (arrivals : List (MonoTime × LinkId × LsaMessage)) : Prop where
  link : ∀ a ∈ arrivals, a.2.1 ∈ p.adjacencies
  all : ∀ m, m ∈ messages ↔ m ∈ arrivals.map fun a => a.2.2

/-- The events of arriving messages. -/
def arrivalEvents (arrivals : List (MonoTime × LinkId × LsaMessage)) :
    List (MonoTime × ControlEvent) :=
  arrivals.map fun a => (a.1, .frame a.2.1 (.lsa a.2.2))

def messageVersion (m : LsaMessage) : Version := lsaVersion m.lsa

/-- The messages of an origin. -/
def ofOrigin (o : NodeId) (messages : List LsaMessage) : List LsaMessage :=
  messages.filter fun m => m.lsa.origin = o

/-- `taken` is what the register of `o` takes of `messages`. -/
def Takes (p : ControlPlane) (messages : List LsaMessage) (o : NodeId) (taken : Option LsaMessage) :
    Prop :=
  Latest messageVersion (p.lsdb[o]?.map LsdbEntry.version) (ofOrigin o messages) taken

/-- `q` is `p` after `messages`. -/
structure Merged (p : ControlPlane) (messages : List LsaMessage) (q : ControlPlane) : Prop where
  me : q.me = p.me
  adjacencies : q.adjacencies = p.adjacencies
  verifier : q.verifier = p.verifier
  entry : ∀ o, ∃ taken, Takes p messages o taken ∧
    match taken with
    | none => q.lsdb[o]? = p.lsdb[o]?
    | some m => ∃ now, q.lsdb[o]? = some (activeEntry m now)

theorem Merged.start (p : ControlPlane) : Merged p [] p :=
  ⟨rfl, rfl, rfl, fun _ => ⟨none, latest_nil, rfl⟩⟩

/-- The register holds the version of the entry. -/
theorem held_eq {taken : Option LsaMessage} (h : match taken with
      | none => q.lsdb[o]? = p.lsdb[o]?
      | some m => ∃ now, q.lsdb[o]? = some (activeEntry m now)) :
    held messageVersion (p.lsdb[o]?.map LsdbEntry.version) taken =
      q.lsdb[o]?.map LsdbEntry.version := by
  cases taken with
  | none =>
    rw [held, h]
  | some m =>
    obtain ⟨now, hq⟩ := h
    rw [hq]
    rfl

theorem Merged.mem (h : Merged p messages q) (ho : o ∈ q.lsdb) :
    o ∈ p.lsdb.keys ++ messages.map fun m => m.lsa.origin := by
  obtain ⟨taken, htakes, hentry⟩ := h.entry o
  rw [List.mem_append, Std.ExtTreeMap.mem_keys, List.mem_map]
  cases taken with
  | none =>
    refine .inl ?_
    rw [OrdMap.mem_iff_get] at ho ⊢
    rw [← hentry]
    exact ho
  | some m =>
    obtain ⟨hmem, horigin⟩ := List.mem_filter.mp htakes.1
    exact .inr ⟨m, hmem, of_decide_eq_true horigin⟩

theorem ofOrigin_cons_self (m : LsaMessage) (messages : List LsaMessage) :
    ofOrigin m.lsa.origin (m :: messages) = m :: ofOrigin m.lsa.origin messages := by
  rw [ofOrigin, List.filter_cons_of_pos (by simp)]
  rfl

theorem ofOrigin_cons_ne {m : LsaMessage} (h : m.lsa.origin ≠ o) (messages : List LsaMessage) :
    ofOrigin o (m :: messages) = ofOrigin o messages := by
  rw [ofOrigin, List.filter_cons_of_neg (by simpa using h)]
  rfl

/-- A message that arrives on a link that is up goes to the register of its origin. -/
theorem Merged.step {p q q' : ControlPlane} {m : LsaMessage} {now : MonoTime} {link : LinkId}
    (h : Merged p messages q) (hm : Admissible p m) (hlink : link ∈ p.adjacencies)
    (hroom : m.lsa.origin ∈ q.lsdb ∨ q.lsdb.size < maxLsdbEntries)
    (hstep : q.receiveLsa now link m = some (q', acts)) : Merged p (m :: messages) q' := by
  -- the registers of the other origins see nothing
  have other : ∀ {lsdb : OrdMap NodeId LsdbEntry},
      (∀ o, m.lsa.origin ≠ o → lsdb[o]? = q.lsdb[o]?) → ∀ o, m.lsa.origin ≠ o →
      ∃ taken, Takes p (m :: messages) o taken ∧
        match taken with
        | none => lsdb[o]? = p.lsdb[o]?
        | some m' => ∃ t, lsdb[o]? = some (activeEntry m' t) := by
    intro lsdb hlsdb o ho
    obtain ⟨taken, htakes, hentry⟩ := h.entry o
    refine ⟨taken, ?_, ?_⟩
    · rw [Takes, ofOrigin_cons_ne ho]
      exact htakes
    · rw [hlsdb o ho]
      exact hentry
  cases receiveLsa_spec hstep with
  | ignored hign =>
    rw [h.adjacencies, h.verifier] at hign
    rcases hign with hign | hign | hign
    · exact absurd hlink hign
    · rw [hm.valid] at hign
      cases hign
    · rw [hm.verified] at hign
      cases hign
  | full hfull =>
    rcases hroom with hroom | hroom
    · exact absurd hroom hfull.1
    · exact absurd hfull.2 (Nat.not_le.mpr hroom)
  | stale hstale =>
    obtain ⟨e, he, hle⟩ := hstale.resolve_left (h.me ▸ hm.foreign)
    refine ⟨h.me, h.adjacencies, h.verifier, fun o => ?_⟩
    by_cases ho : m.lsa.origin = o
    · subst ho
      obtain ⟨taken, htakes, hentry⟩ := h.entry m.lsa.origin
      refine ⟨taken, ?_, hentry⟩
      rw [Takes, ofOrigin_cons_self]
      have hheld := held_eq hentry
      rw [he] at hheld
      exact Latest.keep htakes hheld hle
    · exact other (fun _ _ => rfl) o ho
  | installed _ _ _ _ hnew _ hsame _ _ =>
    refine ⟨hsame.me.trans h.me, hsame.adjacencies.trans h.adjacencies,
      hsame.verifier.trans h.verifier, fun o => ?_⟩
    rw [hsame.lsdb]
    by_cases ho : m.lsa.origin = o
    · subst ho
      obtain ⟨taken, htakes, hentry⟩ := h.entry m.lsa.origin
      refine ⟨some m, ?_, now, by simp⟩
      rw [Takes, ofOrigin_cons_self]
      refine Latest.take htakes ?_
      intro v hv
      rw [held_eq hentry, Option.map_eq_some_iff] at hv
      obtain ⟨e, he, rfl⟩ := hv
      exact hnew e he
    · refine other (fun o ho => ?_) o ho
      rw [OrdMap.get_insert, if_neg ho]

/-- A node whose origins are among `all` has room for each of them. -/
theorem room_of_card {q : ControlPlane} {all : List NodeId} (hsub : ∀ o, o ∈ q.lsdb → o ∈ all)
    (hcard : all.toFinset.card ≤ maxLsdbEntries) (ho : o ∈ all) :
    o ∈ q.lsdb ∨ q.lsdb.size < maxLsdbEntries := by
  by_cases hmem : o ∈ q.lsdb
  · exact .inl hmem
  · refine .inr (lt_of_lt_of_le ?_ hcard)
    rw [← OrdMap.card_keys]
    refine Finset.card_lt_card ⟨?_, ?_⟩
    · intro x hx
      rw [List.mem_toFinset] at hx ⊢
      exact hsub x (Std.ExtTreeMap.mem_keys.mp hx)
    · intro hle
      have := hle (List.mem_toFinset.mpr ho)
      rw [List.mem_toFinset, Std.ExtTreeMap.mem_keys] at this
      exact hmem this

theorem Merged.run {p : ControlPlane} {all : List NodeId}
    (hcard : all.toFinset.card ≤ maxLsdbEntries) (hkeys : ∀ o, o ∈ p.lsdb → o ∈ all) :
    ∀ {arrivals : List (MonoTime × LinkId × LsaMessage)} {messages : List LsaMessage}
      {q r : ControlPlane} {acts : List ControlAction},
      (∀ a ∈ arrivals, a.2.1 ∈ p.adjacencies ∧ Admissible p a.2.2 ∧ a.2.2.lsa.origin ∈ all) →
      (∀ m ∈ messages, m.lsa.origin ∈ all) → Merged p messages q →
      q.run (arrivalEvents arrivals) = some (r, acts) →
      ∃ seen, (∀ m, m ∈ seen ↔ m ∈ messages ∨ m ∈ arrivals.map fun a => a.2.2) ∧
        Merged p seen r := by
  intro arrivals
  induction arrivals with
  | nil =>
    intro messages q r acts _ _ hq hrun
    cases hrun
    exact ⟨messages, by simp, hq⟩
  | cons a arrivals ih =>
    intro messages q r acts harr hmsg hq hrun
    obtain ⟨q1, out, rest, hstep, hrest, -⟩ := emitAll_cons_inv hrun
    obtain ⟨hlink, hadm, hall⟩ := harr a List.mem_cons_self
    have hsub : ∀ o, o ∈ q.lsdb → o ∈ all := by
      intro o ho
      rcases List.mem_append.mp (hq.mem ho) with ho | ho
      · exact hkeys o (Std.ExtTreeMap.mem_keys.mp ho)
      · obtain ⟨m, hm, rfl⟩ := List.mem_map.mp ho
        exact hmsg m hm
    have hq1 := hq.step hadm hlink (room_of_card hsub hcard hall) hstep
    obtain ⟨seen, hseen, hr⟩ := ih (fun b hb => harr b (List.mem_cons_of_mem _ hb))
      (List.forall_mem_cons.mpr ⟨hall, hmsg⟩) hq1 hrest
    refine ⟨seen, fun m => ?_, hr⟩
    rw [hseen, List.mem_cons, List.map_cons, List.mem_cons, or_left_comm, or_assoc]

theorem arrivals_some : ∀ {arrivals : List (MonoTime × LinkId × LsaMessage)} {p : ControlPlane},
    p.spfGeneration + arrivals.length ≤ u64Max →
    ∃ r, p.run (arrivalEvents arrivals) = some r := by
  intro arrivals
  induction arrivals with
  | nil => exact fun _ => ⟨_, rfl⟩
  | cons a arrivals ih =>
    intro p hgen
    rw [List.length_cons] at hgen
    obtain ⟨q, acts, hq, hle⟩ := p.receiveLsa_some a.1 a.2.1 a.2.2 (by omega)
    obtain ⟨⟨r, rest⟩, hr⟩ := ih (p := q) (by omega)
    exact ⟨(r, acts ++ rest), emitAll_cons_some hq hr⟩

theorem Merged.congr {messages messages' : List LsaMessage} (h : Merged p messages q)
    (hsame : ∀ m, m ∈ messages ↔ m ∈ messages') : Merged p messages' q := by
  refine ⟨h.me, h.adjacencies, h.verifier, fun o => ?_⟩
  obtain ⟨taken, htakes, hentry⟩ := h.entry o
  refine ⟨taken, Latest.congr htakes fun m => ?_, hentry⟩
  rw [ofOrigin, ofOrigin, List.mem_filter, List.mem_filter, hsame]

theorem Merged.view (h : Merged p messages q)
    (hcontent : ∀ m ∈ messages, ∀ m' ∈ messages, m.lsa.origin = m'.lsa.origin →
      lsaVersion m.lsa = lsaVersion m'.lsa → m.lsa = m'.lsa) {taken : Option LsaMessage}
    (htakes : Takes p messages o taken) : q.view o = p.viewAfter o taken := by
  obtain ⟨taken', htakes', hentry⟩ := h.entry o
  have hversion := Latest.unique htakes' htakes
  cases taken with
  | none =>
    cases taken' with
    | none => simp only [viewAfter, ControlPlane.view, hentry]
    | some m' => cases hversion
  | some m =>
    cases taken' with
    | none => cases hversion
    | some m' =>
      obtain ⟨now, hq⟩ := hentry
      obtain ⟨hm, horigin⟩ := List.mem_filter.mp htakes.1
      obtain ⟨hm', horigin'⟩ := List.mem_filter.mp htakes'.1
      have hlsa : m'.lsa = m.lsa := by
        refine hcontent m' hm' m hm ?_ (Option.some.inj hversion)
        exact (of_decide_eq_true horigin').trans (of_decide_eq_true horigin).symm
      rw [viewAfter, ControlPlane.view, hq, ← hlsa]
      rfl

theorem Arrives.merged {arrivals : List (MonoTime × LinkId × LsaMessage)}
    (h : Arrives p messages arrivals) (hvalid : ∀ m ∈ messages, Admissible p m)
    (hroom : (p.lsdb.keys ++ messages.map fun m => m.lsa.origin).toFinset.card ≤ maxLsdbEntries)
    (hrun : p.run (arrivalEvents arrivals) = some (q, acts)) : Merged p messages q := by
  have hkeys : ∀ o, o ∈ p.lsdb → o ∈ p.lsdb.keys ++ messages.map fun m => m.lsa.origin :=
    fun o ho => List.mem_append_left _ (Std.ExtTreeMap.mem_keys.mpr ho)
  have hevery : ∀ a ∈ arrivals, a.2.1 ∈ p.adjacencies ∧ Admissible p a.2.2 ∧
      a.2.2.lsa.origin ∈ p.lsdb.keys ++ messages.map fun m => m.lsa.origin := by
    intro a ha
    have hm : a.2.2 ∈ messages := (h.all _).mpr (List.mem_map.mpr ⟨a, ha, rfl⟩)
    exact ⟨h.link a ha, hvalid _ hm, List.mem_append_right _ (List.mem_map.mpr ⟨_, hm, rfl⟩)⟩
  obtain ⟨seen, hseen, hq⟩ := Merged.run hroom hkeys hevery (by simp) (.start p) hrun
  refine hq.congr fun m => ?_
  rw [hseen, h.all]
  simp

/-- However valid LSAs of other origins arrive, over whichever links and at whichever times, each
origin ends with the greatest version among them and the entry before, in every order the same. The
run returns as long as the generation counter has room. -/
theorem lsa_order_irrelevant {p : ControlPlane} {messages : List LsaMessage}
    (hvalid : ∀ m ∈ messages, Admissible p m)
    (hcontent : ∀ m ∈ messages, ∀ m' ∈ messages, m.lsa.origin = m'.lsa.origin →
      lsaVersion m.lsa = lsaVersion m'.lsa → m.lsa = m'.lsa)
    (hroom : (p.lsdb.keys ++ messages.map fun m => m.lsa.origin).toFinset.card ≤ maxLsdbEntries)
    {arrivals : List (MonoTime × LinkId × LsaMessage)} (harrives : Arrives p messages arrivals) :
    (p.spfGeneration + arrivals.length ≤ u64Max →
      ∃ r, p.run (arrivalEvents arrivals) = some r) ∧
    ∀ q acts, p.run (arrivalEvents arrivals) = some (q, acts) →
      (∀ o, ∃ taken, Takes p messages o taken ∧ q.view o = p.viewAfter o taken) ∧
      ∀ arrivals' q' acts', Arrives p messages arrivals' →
        p.run (arrivalEvents arrivals') = some (q', acts') → ∀ o, q'.view o = q.view o := by
  refine ⟨arrivals_some, ?_⟩
  intro q acts hrun
  have hq := harrives.merged hvalid hroom hrun
  refine ⟨?_, ?_⟩
  · intro o
    obtain ⟨taken, htakes, -⟩ := hq.entry o
    exact ⟨taken, htakes, hq.view hcontent htakes⟩
  · intro arrivals' q' acts' harrives' hrun' o
    have hq' := harrives'.merged hvalid hroom hrun'
    obtain ⟨taken, htakes, -⟩ := hq.entry o
    rw [hq.view hcontent htakes, hq'.view hcontent htakes]

/-- The two versions of the neighbour, the later one first and twice. -/
theorem lsa_order_irrelevant_reversed :
    ∃ p acts q acts', (newUnsecuredWithSeq (.ofByte 1) 1 0).run [(0, peerUp)] = some (p, acts) ∧
      p.run (arrivalEvents [(5, 7, unsecuredSign (peerLsa 2)), (6, 7, unsecuredSign (peerLsa 1)),
        (7, 7, unsecuredSign (peerLsa 2))]) = some (q, acts') ∧
      q.view (.ofByte 2) = some (⟨1, 2⟩, some (peerLsa 2)) ∧
      ∀ arrivals' q' acts', Arrives p [unsecuredSign (peerLsa 1), unsecuredSign (peerLsa 2)]
        arrivals' → p.run (arrivalEvents arrivals') = some (q', acts') →
        ∀ o, q'.view o = q.view o := by
  have hfacts : ((newUnsecuredWithSeq (.ofByte 1) 1 0).run [(0, peerUp)]).bind (fun a =>
      (a.1.run (arrivalEvents [(5, 7, unsecuredSign (peerLsa 2)),
        (6, 7, unsecuredSign (peerLsa 1)), (7, 7, unsecuredSign (peerLsa 2))])).map fun b => decide
          (b.1.view (.ofByte 2) = some (⟨1, 2⟩, some (peerLsa 2)) ∧ 7 ∈ a.1.adjacencies ∧
            a.1.me = .ofByte 1 ∧ a.1.verifier (unsecuredSign (peerLsa 1)) = true ∧
            a.1.verifier (unsecuredSign (peerLsa 2)) = true ∧
            (a.1.lsdb.keys ++ [NodeId.ofByte 2, NodeId.ofByte 2]).toFinset.card ≤
              maxLsdbEntries)) = some true := by
    decide +kernel
  obtain ⟨⟨p, acts⟩, hp, hrest⟩ := Option.bind_eq_some_iff.mp hfacts
  obtain ⟨⟨q, acts'⟩, hq, hdec⟩ := Option.map_eq_some_iff.mp hrest
  obtain ⟨hview, hlink, hme, hver1, hver2, hroom⟩ := of_decide_eq_true hdec
  have hvalid : ∀ m ∈ [unsecuredSign (peerLsa 1), unsecuredSign (peerLsa 2)], Admissible p m := by
    intro m hm
    simp only [List.mem_cons, List.not_mem_nil, or_false] at hm
    rcases hm with rfl | rfl
    · exact ⟨by decide +kernel, hver1, by rw [show p.me = _ from hme]; decide⟩
    · exact ⟨by decide +kernel, hver2, by rw [show p.me = _ from hme]; decide⟩
  have harrives : Arrives p [unsecuredSign (peerLsa 1), unsecuredSign (peerLsa 2)]
      [(5, 7, unsecuredSign (peerLsa 2)), (6, 7, unsecuredSign (peerLsa 1)),
        (7, 7, unsecuredSign (peerLsa 2))] := by
    refine ⟨by simpa using hlink, fun m => ?_⟩
    simp only [List.map_cons, List.map_nil, List.mem_cons, List.not_mem_nil, or_false]
    constructor
    · rintro (h | h)
      · exact .inr (.inl h)
      · exact .inl h
    · rintro (h | h | h)
      · exact .inr h
      · exact .inl h
      · exact .inr h
  exact ⟨p, acts, q, acts', hp, hq, hview,
    ((lsa_order_irrelevant hvalid (by decide) hroom harrives).2 q acts' hq).2⟩

end ControlPlane
end Control
end MeshBus
