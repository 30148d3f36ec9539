import MeshBus.Control.Steps

/-!
# Control.Own

A node's own entry. In every run of an unsecured control plane the entry a node holds of itself has
the version it originated last, and while that entry is active its LSA is the one the node's links
and topic ads give (`Own`). `Effect.seq` is how one step moves the sequence number: not at all, or
up by one with `PersistSeq` as the first action.
-/

namespace MeshBus
namespace Control
namespace ControlPlane

/-- What holds of a node's own entry. -/
structure Own (p : ControlPlane) : Prop where
  signer : p.signer = unsecuredSign
  origin : ∀ o m, p.stored o = some m → m.lsa.origin = o
  version : ∀ e, p.lsdb[p.me]? = some e → e.version = ⟨p.epoch, p.mySeq⟩
  message : ∀ m, p.stored p.me = some m → m = unsecuredSign (p.localLsa p.mySeq)
  blank : p.me ∉ p.lsdb → p.adjacencies = ∅ ∧ p.localTopicAds = []

theorem own_new (me : NodeId) (epoch : UInt32) (lastSeq : UInt64) :
    Own (newUnsecuredWithSeq me epoch lastSeq) := by
  have hlsdb : (newUnsecuredWithSeq me epoch lastSeq).lsdb = ∅ := rfl
  refine ⟨rfl, ?_, ?_, ?_, fun _ => ⟨rfl, rfl⟩⟩
  · intro o m h
    simp [stored, hlsdb] at h
  · intro e h
    simp [hlsdb] at h
  · intro m h
    simp [stored, hlsdb] at h

theorem SameButSpf.localLsa {p q : ControlPlane} (h : SameButSpf p q) (seq : UInt64) :
    q.localLsa seq = p.localLsa seq := by
  simp only [ControlPlane.localLsa, bestByPeer, h.me, h.epoch, h.adjacencies, h.localTopicAds]

theorem Own.congr {p q : ControlPlane} (hp : Own p) (h : SameButSpf p q) : Own q where
  signer := h.signer.trans hp.signer
  origin o m hm := hp.origin o m (stored_congr h.lsdb o ▸ hm)
  version e he := by
    rw [h.lsdb, h.me] at he
    rw [h.epoch, h.mySeq]
    exact hp.version e he
  message m hm := by
    rw [stored_congr h.lsdb, h.me] at hm
    rw [h.mySeq, h.localLsa]
    exact hp.message m hm
  blank hq := by
    rw [h.lsdb, h.me] at hq
    rw [h.adjacencies, h.localTopicAds]
    exact hp.blank hq

theorem own_originated {p : ControlPlane} (now : MonoTime) (hs : p.signer = unsecuredSign)
    (horigin : ∀ o m, p.stored o = some m → m.lsa.origin = o) : Own (p.originated now) := by
  have hnext := nextMessage_eq hs
  have hlsdb : (p.originated now).lsdb = p.lsdb.insert p.me (activeEntry p.nextMessage now) := by
    rw [originated, hnext]
    rfl
  have hstored : (p.originated now).stored p.me = some p.nextMessage := by
    rw [stored, hlsdb]
    simp [activeEntry, LsdbEntry.active]
  refine ⟨hs, ?_, ?_, ?_, ?_⟩
  · intro o m hm
    by_cases ho : p.me = o
    · subst ho
      rw [hstored] at hm
      rw [← Option.some.inj hm, hnext]
      rfl
    · rw [stored, hlsdb, OrdMap.get_insert, if_neg ho] at hm
      exact horigin o m hm
  · intro e he
    change (p.originated now).lsdb[p.me]? = some e at he
    rw [hlsdb, OrdMap.get_insert, if_pos rfl] at he
    rw [← Option.some.inj he, activeEntry, hnext]
    rfl
  · intro m hm
    rw [← Option.some.inj (hstored.symm.trans hm), hnext]
    rfl
  · intro hmem
    refine absurd ?_ hmem
    rw [hlsdb]
    exact Std.ExtTreeMap.mem_insert_self

/-- An origination leaves the node's own entry active. -/
theorem Originates.stored_me {p q : ControlPlane} {now : MonoTime} {acts : List ControlAction}
    (h : Originates p now q acts) (hs : p.signer = unsecuredSign) :
    q.stored q.me = some p.nextMessage := by
  have horigin : p.nextMessage.lsa.origin = q.me := by
    rw [nextMessage_eq hs, h.same.me]
    rfl
  rw [← horigin]
  exact h.stored

/-- A step keeps the facts about the own entry. -/
theorem Own.step {p q : ControlPlane} {now : MonoTime} {event : ControlEvent}
    {acts : List ControlAction} (hp : Own p) (h : Effect p now event q acts) : Own q := by
  cases h with
  | reply same quiet => exact hp.congr same
  | originate mid prepared ho quiet =>
    refine (own_originated now (prepared.signer.trans hp.signer) ?_).congr ho.same
    intro o m hm
    exact hp.origin o m (stored_congr prepared.lsdb o ▸ hm)
  | install link m received foreign newer room same quiet =>
    refine Own.congr ?_ same
    have hget : ∀ o, o ≠ m.lsa.origin →
        (p.lsdb.insert m.lsa.origin (activeEntry m now))[o]? = p.lsdb[o]? := by
      intro o ho
      rw [OrdMap.get_insert, if_neg (Ne.symm ho)]
    refine ⟨hp.signer, ?_, ?_, ?_, ?_⟩
    · intro o m' hm'
      by_cases ho : o = m.lsa.origin
      · subst ho
        rw [stored_insert_self] at hm'
        rw [Option.some.inj hm']
      · rw [stored, hget o ho] at hm'
        exact hp.origin o m' hm'
    · intro e he
      rw [hget _ foreign.symm] at he
      exact hp.version e he
    · intro m' hm'
      rw [stored, hget _ foreign.symm] at hm'
      exact hp.message m' hm'
    · intro hmem
      exact hp.blank fun h => hmem (Std.ExtTreeMap.mem_insert.mpr (.inr h))
  | expire origin entry current expiry same quiet =>
    refine Own.congr ?_ same
    have hstored : ∀ o m, stored { p with
        lsdb := p.lsdb.insert origin { entry with state := .tombstone } } o = some m →
        p.stored o = some m := by
      intro o m hm
      rw [stored, OrdMap.get_insert] at hm
      split at hm
      · simp [LsdbEntry.active] at hm
      · exact hm
    refine ⟨hp.signer, fun o m hm => hp.origin o m (hstored o m hm), ?_,
      fun m hm => hp.message m (hstored _ m hm), ?_⟩
    · intro e he
      rw [OrdMap.get_insert] at he
      split at he
      · rename_i heq
        rw [← Option.some.inj he]
        exact hp.version entry (heq ▸ current)
      · exact hp.version e he
    · intro hmem
      exact hp.blank fun h => hmem (Std.ExtTreeMap.mem_insert.mpr (.inr h))

/-- A step that originates nothing leaves the own entry, or turns it into a tombstone. -/
structure Kept (p q : ControlPlane) (acts : List ControlAction) : Prop where
  mySeq : q.mySeq = p.mySeq
  quiet : persists acts = []
  known : p.me ∈ q.lsdb → p.me ∈ p.lsdb
  stored : ∀ m, q.stored p.me = some m → p.stored p.me = some m

/-- A step that originates: the number goes up by one and is persisted before anything is sent. -/
structure Advanced (p q : ControlPlane) (acts : List ControlAction) : Prop where
  seq_lt : p.mySeq.toNat ≠ u64Max
  mySeq : q.mySeq = p.mySeq + 1
  persisted : ∃ rest, acts = .persistSeq q.mySeq :: rest ∧ persists rest = []

theorem Effect.seq {p q : ControlPlane} {now : MonoTime} {event : ControlEvent}
    {acts : List ControlAction} (h : Effect p now event q acts) :
    Kept p q acts ∨ Advanced p q acts := by
  cases h with
  | reply same quiet =>
    refine .inl ⟨same.mySeq, quiet, fun hm => same.lsdb ▸ hm, ?_⟩
    intro m hm
    rw [stored_congr same.lsdb] at hm
    exact hm
  | originate mid prepared ho quiet =>
    have hseq : q.mySeq = mid.mySeq + 1 := ho.same.mySeq
    obtain ⟨rest, rfl, hrest⟩ := ho.persisted
    refine .inr ⟨prepared.mySeq ▸ ho.seq_lt, by rw [hseq, prepared.mySeq], ?_⟩
    refine ⟨_, by rw [hseq, List.cons_append], ?_⟩
    rw [persists_append, hrest, quiet]
    rfl
  | install link m received foreign newer room same quiet =>
    refine .inl ⟨same.mySeq, quiet, ?_, ?_⟩
    · intro hm
      rw [same.lsdb, Std.ExtTreeMap.mem_insert, compare_eq_iff_eq] at hm
      exact hm.resolve_left foreign
    · intro m' hm'
      rw [stored, same.lsdb, OrdMap.get_insert, if_neg foreign] at hm'
      exact hm'
  | expire origin entry current expiry same quiet =>
    refine .inl ⟨same.mySeq, quiet, ?_, ?_⟩
    · intro hm
      rw [same.lsdb, Std.ExtTreeMap.mem_insert, compare_eq_iff_eq] at hm
      rcases hm with rfl | hm
      · exact OrdMap.mem_iff_get.mpr ⟨entry, current⟩
      · exact hm
    · intro m' hm'
      rw [stored, same.lsdb, OrdMap.get_insert] at hm'
      split at hm'
      · simp [LsdbEntry.active] at hm'
      · exact hm'

/-- The topic ads of a node change only to a sorted valid list that was announced. -/
theorem Outcome.localTopicAds {p q : ControlPlane} {now : MonoTime} {event : ControlEvent}
    {acts : List ControlAction} (h : Outcome p now event q acts) :
    q.localTopicAds = p.localTopicAds ∨ ∃ ads, event = .localTopicAdsChanged ads ∧
      q.localTopicAds = ads.insertionSort (· ≤ ·) ∧
      validTopicAds (ads.insertionSort (· ≤ ·)) = true := by
  cases h with
  | linkUp l peer cost ho => exact .inl ho.same.localTopicAds
  | linkDown l known ho => exact .inl ho.same.localTopicAds
  | topicAds ads valid changed ho => exact .inr ⟨ads, rfl, ho.same.localTopicAds, valid⟩
  | refresh epoch seq ho => exact .inl ho.same.localTopicAds
  | unknownLinkDown | keptTopicAds | deadDigestTimer | staleRefresh | digestTimer | digest
  | digestReq | staleExpire =>
    exact .inl rfl
  | lsa l m hr =>
    cases hr with
    | ignored | full | stale => exact .inl rfl
    | installed hlink hvalid hver hme hnew hroom hsame hsent hquiet =>
      exact .inl hsame.localTopicAds
  | spf generation same quiet => exact .inl same.localTopicAds
  | expired origin epoch seq entry current version same quiet => exact .inl same.localTopicAds

/-- An origination does not panic while the counters have room. -/
theorem originateLsa_some {p : ControlPlane} (now : MonoTime) (hseq : p.mySeq.toNat ≠ u64Max)
    (hroom : p.nextMessage.lsa.origin ∈ p.lsdb ∨ p.lsdb.size < maxLsdbEntries)
    (hgen : p.spfGeneration < u64Max) : ∃ r, p.originateLsa now = some r := by
  have hfull : ¬ (!p.lsdb.contains p.nextMessage.lsa.origin &&
      decide (maxLsdbEntries ≤ p.lsdb.size)) = true := by
    simp only [Bool.and_eq_true, Bool.not_eq_true', decide_eq_true_eq, not_and_or,
      Bool.not_eq_false, ← Std.ExtTreeMap.mem_iff_contains, Nat.not_le]
    exact hroom
  have hinstall : ∃ r, ControlPlane.install { p with mySeq := p.mySeq + 1 } p.nextMessage now =
      some r ∧ r.1.spfGeneration = p.spfGeneration := by
    rw [install, if_neg hfull]
    exact ⟨_, rfl, rfl⟩
  obtain ⟨⟨installed, expiry⟩, hi, hsame⟩ := hinstall
  obtain ⟨dirty, spf, hd, -⟩ := installed.markSpfDirty_some now (hsame ▸ hgen)
  have hnext : ControlPlane.install { p with mySeq := p.mySeq + 1 }
      (p.signer (ControlPlane.localLsa { p with mySeq := p.mySeq + 1 } (p.mySeq + 1))) now =
      some (installed, expiry) := hi
  simp only [originateLsa, if_neg hseq, bind, hnext, Option.bind_some, hd]
  exact ⟨_, rfl⟩

/-- New topic ads that pass the check are announced on every link. -/
theorem announce_some {p : ControlPlane} (hown : Own p) (now : MonoTime) {ads : List TopicAd}
    (hvalid : validTopicAds ads = true) (hne : ads.insertionSort (· ≤ ·) ≠ p.localTopicAds)
    (hseq : p.mySeq.toNat ≠ u64Max) (hsize : p.me ∈ p.lsdb ∨ p.lsdb.size < maxLsdbEntries)
    (hgen : p.spfGeneration < u64Max) :
    ∃ q acts, p.handle now (.localTopicAdsChanged ads) = some (q, acts) ∧
      Originates { p with localTopicAds := ads.insertionSort (· ≤ ·) } now q acts ∧
      ∀ link ∈ p.adjacencies, .send link (.lsa (unsecuredSign (ControlPlane.localLsa
        { p with localTopicAds := ads.insertionSort (· ≤ ·) } (p.mySeq + 1)))) ∈ acts := by
  have hsorted : validTopicAds (ads.insertionSort (· ≤ ·)) = true :=
    (validTopicAds_perm (List.perm_insertionSort _ _)).mpr hvalid
  generalize hmid : { p with localTopicAds := ads.insertionSort (· ≤ ·) } = mid
  have hhandle : p.handle now (.localTopicAdsChanged ads) = mid.originateLsa now := by
    simp only [handle, hsorted, hne, ← hmid, Bool.not_true, decide_false, Bool.or_false]
    rfl
  have hnext : mid.nextMessage = unsecuredSign (mid.localLsa (p.mySeq + 1)) := by
    have hmySeq : mid.mySeq = p.mySeq := by rw [← hmid]
    rw [nextMessage_eq (by rw [← hmid]; exact hown.signer), hmySeq]
  have hroom : mid.nextMessage.lsa.origin ∈ mid.lsdb ∨ mid.lsdb.size < maxLsdbEntries := by
    rw [hnext, ← hmid]
    exact hsize
  obtain ⟨⟨q, acts⟩, ho⟩ : ∃ r, mid.originateLsa now = some r := by
    refine originateLsa_some now ?_ hroom ?_
    · rw [← hmid]
      exact hseq
    · rw [← hmid]
      exact hgen
  have hO := originateLsa_spec ho
  refine ⟨q, acts, hhandle.trans ho, hO, ?_⟩
  intro link hlink
  have hmem : link ∈ mid.adjacencies := by
    rw [← hmid]
    exact hlink
  rw [← mem_sends, hO.sent, ← hnext]
  exact mem_floodSends.mpr ⟨hmem, by simp, rfl⟩

end ControlPlane
end Control
end MeshBus
