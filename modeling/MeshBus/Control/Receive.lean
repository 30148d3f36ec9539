import MeshBus.Control.Plane
import MeshBus.Lib.Emit

/-!
# Control.Receive

One statement per function of the control plane that touches the link-state database: what it
stores and what it sends.

* `SameButSpf p q`: `q` differs from `p` in the state of the route computation only.
* `originateLsa_spec`: an origination raises the sequence number by one, stores the new message
  and returns `PersistSeq` first, followed by one copy of the message per local link.
* `receiveLsa_spec`, `receiveDigest_spec`, `mem_receiveDigestReq`: the three frames.
-/

namespace MeshBus
namespace Control

variable {p : ControlPlane} {now : MonoTime} {acts : List ControlAction} {incoming : LinkId}
  {frame : ControlFrame} {message : LsaMessage} {entries : List DigestEntry}

/-- The frames of an action list, in order. -/
def sends (actions : List ControlAction) : List (LinkId × ControlFrame) :=
  actions.filterMap fun
    | .send link frame => some (link, frame)
    | _ => none

/-- The sequence numbers an action list asks to persist. -/
def persists (actions : List ControlAction) : List UInt64 :=
  actions.filterMap fun
    | .persistSeq seq => some seq
    | _ => none

section Actions

variable (a b : List ControlAction) (link : LinkId) (frame : ControlFrame) (timer : ControlTimer)
  (due : MonoTime) (seq : UInt64)

@[simp] theorem sends_nil : sends [] = [] := rfl
@[simp] theorem sends_append : sends (a ++ b) = sends a ++ sends b := List.filterMap_append
@[simp] theorem sends_cons_send : sends (.send link frame :: a) = (link, frame) :: sends a := rfl
@[simp] theorem sends_cons_setTimer : sends (.setTimer timer due :: a) = sends a := rfl
@[simp] theorem sends_cons_persistSeq : sends (.persistSeq seq :: a) = sends a := rfl
@[simp] theorem persists_nil : persists [] = [] := rfl
@[simp] theorem persists_append : persists (a ++ b) = persists a ++ persists b :=
  List.filterMap_append
@[simp] theorem persists_cons_send : persists (.send link frame :: a) = persists a := rfl
@[simp] theorem persists_cons_setTimer : persists (.setTimer timer due :: a) = persists a := rfl
@[simp] theorem persists_cons_persistSeq : persists (.persistSeq seq :: a) = seq :: persists a :=
  rfl

end Actions

theorem mem_sends {actions : List ControlAction} {link : LinkId} :
    (link, frame) ∈ sends actions ↔ .send link frame ∈ actions := by
  simp only [sends, List.mem_filterMap]
  constructor
  · rintro ⟨action, ha, heq⟩
    cases action <;> simp at heq
    obtain ⟨rfl, rfl⟩ := heq
    exact ha
  · intro h
    exact ⟨_, h, rfl⟩

/-- Frames only. -/
def Replies (actions : List ControlAction) : Prop :=
  ∀ a ∈ actions, ∃ link frame, a = .send link frame

theorem Replies.persists {actions : List ControlAction} (h : Replies actions) :
    persists actions = [] := by
  rw [Control.persists, List.filterMap_eq_nil_iff]
  intro a ha
  obtain ⟨link, frame, rfl⟩ := h a ha
  rfl

/-- Neither frames nor sequence numbers: timers and publications only. -/
def Quiet (actions : List ControlAction) : Prop := sends actions = [] ∧ persists actions = []

theorem Quiet.append {a b : List ControlAction} (ha : Quiet a) (hb : Quiet b) : Quiet (a ++ b) := by
  refine ⟨?_, ?_⟩
  · rw [sends_append, ha.1, hb.1]; rfl
  · rw [persists_append, ha.2, hb.2]; rfl

namespace ControlPlane

/-- `q` differs from `p` in the state of the route computation only. -/
structure SameButSpf (p q : ControlPlane) : Prop where
  me : q.me = p.me
  epoch : q.epoch = p.epoch
  mySeq : q.mySeq = p.mySeq
  adjacencies : q.adjacencies = p.adjacencies
  localTopicAds : q.localTopicAds = p.localTopicAds
  lsdb : q.lsdb = p.lsdb
  signer : q.signer = p.signer
  verifier : q.verifier = p.verifier

theorem SameButSpf.refl (p : ControlPlane) : SameButSpf p p :=
  ⟨rfl, rfl, rfl, rfl, rfl, rfl, rfl, rfl⟩

theorem markSpfDirty_spec {p q : ControlPlane} (h : p.markSpfDirty now = some (q, acts)) :
    SameButSpf p q ∧ Quiet acts := by
  simp only [markSpfDirty] at h
  split at h
  · cases h
    exact ⟨⟨rfl, rfl, rfl, rfl, rfl, rfl, rfl, rfl⟩, rfl, rfl⟩
  · split at h
    · cases h
    · cases h
      exact ⟨⟨rfl, rfl, rfl, rfl, rfl, rfl, rfl, rfl⟩, rfl, rfl⟩

/-- The generation counter is the only thing that can panic. -/
theorem markSpfDirty_some (p : ControlPlane) (now : MonoTime) (h : p.spfGeneration < u64Max) :
    ∃ q acts, p.markSpfDirty now = some (q, acts) ∧ q.spfGeneration ≤ p.spfGeneration + 1 := by
  simp only [markSpfDirty]
  split
  · exact ⟨_, _, rfl, Nat.le_succ _⟩
  · rw [if_neg (Nat.not_le.mpr h)]
    exact ⟨_, _, rfl, le_rfl⟩

theorem markSpfDirty_generation {p q : ControlPlane} (h : p.markSpfDirty now = some (q, acts)) :
    q.spfGeneration ≤ p.spfGeneration + 1 := by
  simp only [markSpfDirty] at h
  split at h
  · cases h
    exact Nat.le_succ _
  · split at h
    · cases h
    · cases h
      exact le_rfl

/-- The entry `install` stores. -/
def activeEntry (message : LsaMessage) (now : MonoTime) : LsdbEntry :=
  { version := lsaVersion message.lsa
    state := .active
      { message := message, receivedAt := now, expiresAt := satAdd now (ttlMs message.lsa) } }

/-- The timer `install` returns. -/
def installTimer (message : LsaMessage) (now : MonoTime) : ControlAction :=
  .setTimer (.lsaExpire message.lsa.origin message.lsa.epoch message.lsa.seq)
    (satAdd now (ttlMs message.lsa))

theorem install_spec {p q : ControlPlane} {action : ControlAction}
    (h : p.install message now = some (q, action)) :
    q = { p with lsdb := p.lsdb.insert message.lsa.origin (activeEntry message now) } ∧
      action = installTimer message now := by
  simp only [install] at h
  split at h
  · cases h
  · cases h
    exact ⟨rfl, rfl⟩

/-- Only a new origin in a full database is refused. -/
theorem install_none (h : p.install message now = none) :
    message.lsa.origin ∉ p.lsdb ∧ maxLsdbEntries ≤ p.lsdb.size := by
  simp only [install] at h
  split at h
  · rename_i hfull
    simpa using hfull
  · cases h

theorem install_room {r : ControlPlane × ControlAction} (h : p.install message now = some r) :
    message.lsa.origin ∈ p.lsdb ∨ p.lsdb.size < maxLsdbEntries := by
  simp only [install] at h
  split at h
  · cases h
  · rename_i hroom
    simp only [Bool.and_eq_true, Bool.not_eq_true', decide_eq_true_eq, not_and_or,
      Bool.not_eq_false, Nat.not_le] at hroom
    exact hroom.imp Std.ExtTreeMap.mem_iff_contains.mpr id

/-- The message `originate_lsa` signs next. -/
def nextMessage (p : ControlPlane) : LsaMessage := p.signer (p.localLsa (p.mySeq + 1))

/-- The state after an origination, up to the route computation. -/
def originated (p : ControlPlane) (now : MonoTime) : ControlPlane :=
  { p with
    mySeq := p.mySeq + 1
    lsdb := p.lsdb.insert p.nextMessage.lsa.origin (activeEntry p.nextMessage now) }

/-- One copy of a message per local link, `except_` left out. -/
def floodSends (p : ControlPlane) (message : LsaMessage) (except_ : Option LinkId) :
    List (LinkId × ControlFrame) :=
  (p.adjacencies.keys.filter fun link => some link ≠ except_).map fun link => (link, .lsa message)

theorem sends_flood (p : ControlPlane) (message : LsaMessage) (except_ : Option LinkId) :
    sends (p.flood message except_) = p.floodSends message except_ := by
  simp only [flood, floodSends, sends, List.filterMap_map]
  exact congrFun List.filterMap_eq_map _

theorem flood_replies (p : ControlPlane) (message : LsaMessage) (except_ : Option LinkId) :
    Replies (p.flood message except_) := by
  intro a ha
  obtain ⟨link, -, rfl⟩ := List.mem_map.mp ha
  exact ⟨link, _, rfl⟩

theorem persists_flood (p : ControlPlane) (message : LsaMessage) (except_ : Option LinkId) :
    persists (p.flood message except_) = [] := (p.flood_replies message except_).persists

theorem mem_floodSends {except_ : Option LinkId} {link : LinkId} :
    (link, frame) ∈ p.floodSends message except_ ↔
      link ∈ p.adjacencies ∧ some link ≠ except_ ∧ frame = .lsa message := by
  simp only [floodSends, List.mem_map, List.mem_filter, Std.ExtTreeMap.mem_keys, decide_eq_true_eq,
    Prod.mk.injEq]
  constructor
  · rintro ⟨l, ⟨hl, hne⟩, rfl, rfl⟩
    exact ⟨hl, hne, rfl⟩
  · rintro ⟨hl, hne, rfl⟩
    exact ⟨link, ⟨hl, hne⟩, rfl, rfl⟩

/-- `acts` and `q` are what originating from `p` gives. -/
structure Originates (p : ControlPlane) (now : MonoTime) (q : ControlPlane)
    (acts : List ControlAction) : Prop where
  seq_lt : p.mySeq.toNat ≠ u64Max
  room : p.nextMessage.lsa.origin ∈ p.lsdb ∨ p.lsdb.size < maxLsdbEntries
  same : SameButSpf (p.originated now) q
  persisted : ∃ rest, acts = .persistSeq (p.mySeq + 1) :: rest ∧ persists rest = []
  sent : sends acts = p.floodSends p.nextMessage none

/-- All that an origination does. -/
theorem originateLsa_inv {p q : ControlPlane} (h : p.originateLsa now = some (q, acts)) :
    p.mySeq.toNat ≠ u64Max ∧
      (p.nextMessage.lsa.origin ∈ p.lsdb ∨ p.lsdb.size < maxLsdbEntries) ∧
      ∃ spf, (p.originated now).markSpfDirty now = some (q, spf) ∧
        acts = .persistSeq (p.mySeq + 1) :: p.flood p.nextMessage none ++
          [installTimer p.nextMessage now, nextRefreshTimer now p.nextMessage.lsa] ++ spf := by
  simp only [originateLsa] at h
  split at h
  · cases h
  · rename_i hseq
    simp only [bind, Option.bind_eq_some_iff] at h
    obtain ⟨⟨installed, expiry⟩, hi, ⟨dirty, spf⟩, hd, heq⟩ := h
    have hroom := install_room hi
    obtain ⟨rfl, rfl⟩ := install_spec hi
    simp only [Option.some.injEq, Prod.mk.injEq] at heq
    obtain ⟨rfl, rfl⟩ := heq
    exact ⟨hseq, hroom, spf, hd, rfl⟩

theorem originateLsa_spec {p q : ControlPlane} (h : p.originateLsa now = some (q, acts)) :
    Originates p now q acts := by
  obtain ⟨hseq, hroom, spf, hd, rfl⟩ := originateLsa_inv h
  obtain ⟨hsame, hspf⟩ := markSpfDirty_spec hd
  refine ⟨hseq, hroom, hsame, ⟨_, rfl, ?_⟩, ?_⟩
  · simp [persists_flood, hspf.2, installTimer, nextRefreshTimer]
  · simp only [List.append_assoc, List.cons_append, sends_cons_persistSeq, sends_append,
      sends_flood, List.nil_append, sends_cons_setTimer, hspf.1, installTimer, nextRefreshTimer,
      List.append_nil]

/-! ## Received frames -/

/-- The active message of an origin. -/
def stored (p : ControlPlane) (origin : NodeId) : Option LsaMessage :=
  (p.lsdb[origin]?.bind LsdbEntry.active).map ActiveLsa.message

theorem isNewer_iff {lsa : Lsa} :
    p.isNewer lsa = true ↔ ∀ e, p.lsdb[lsa.origin]? = some e → e.version < lsaVersion lsa := by
  simp only [isNewer]
  split
  · rename_i hnone
    simp [hnone]
  · rename_i e he
    simp [he]

theorem staleReply_spec {lsa : Lsa} {link : LinkId}
    (h : (link, frame) ∈ sends (p.staleReply incoming lsa)) :
    link = incoming ∧ ∃ m, p.stored lsa.origin = some m ∧ frame = .lsa m := by
  simp only [staleReply, mem_sends] at h
  split at h
  · simp at h
  · rename_i e he
    split at h
    · obtain ⟨active, hactive, heq⟩ := Option.map_eq_some_iff.mp (Option.mem_toList.mp h)
      cases heq
      exact ⟨rfl, _, by simp [stored, he, hactive], rfl⟩
    · simp at h

theorem staleReply_replies (p : ControlPlane) (incoming : LinkId) (lsa : Lsa) :
    Replies (p.staleReply incoming lsa) := by
  intro a ha
  simp only [staleReply] at ha
  split at ha
  · simp at ha
  · split at ha
    · obtain ⟨active, -, rfl⟩ := Option.map_eq_some_iff.mp (Option.mem_toList.mp ha)
      exact ⟨incoming, _, rfl⟩
    · simp at ha

/-- A stale LSA is answered with a later version only. -/
theorem staleReply_later {incoming link : LinkId} {lsa : Lsa}
    (h : (link, frame) ∈ sends (p.staleReply incoming lsa)) :
    ∃ e active, p.lsdb[lsa.origin]? = some e ∧ e.active = some active ∧
      lsaVersion lsa < e.version ∧ frame = .lsa active.message := by
  simp only [staleReply] at h
  split at h
  · simp at h
  · rename_i e he
    split at h
    · rename_i hlt
      cases hactive : e.active with
      | none => simp [hactive] at h
      | some active =>
        simp only [hactive, Option.map_some, Option.toList_some, sendLsa, sends_cons_send,
          sends_nil, List.mem_singleton, Prod.mk.injEq] at h
        exact ⟨e, active, he, hactive, hlt, h.2⟩
    · simp at h

/-- The four outcomes of a received LSA. -/
inductive LsaReceipt (p : ControlPlane) (now : MonoTime) (incoming : LinkId) (m : LsaMessage) :
    ControlPlane → List ControlAction → Prop
  | ignored (h : incoming ∉ p.adjacencies ∨ validLsa m.lsa = false ∨ p.verifier m = false) :
      LsaReceipt p now incoming m p []
  | stale (h : m.lsa.origin = p.me ∨
        ∃ e, p.lsdb[m.lsa.origin]? = some e ∧ lsaVersion m.lsa ≤ e.version) :
      LsaReceipt p now incoming m p (p.staleReply incoming m.lsa)
  | full (h : m.lsa.origin ∉ p.lsdb ∧ maxLsdbEntries ≤ p.lsdb.size) :
      LsaReceipt p now incoming m p []
  | installed {q : ControlPlane} {acts : List ControlAction}
      (link : incoming ∈ p.adjacencies) (valid : validLsa m.lsa = true)
      (verified : p.verifier m = true) (foreign : m.lsa.origin ≠ p.me)
      (newer : ∀ e, p.lsdb[m.lsa.origin]? = some e → e.version < lsaVersion m.lsa)
      (room : m.lsa.origin ∈ p.lsdb ∨ p.lsdb.size < maxLsdbEntries)
      (same : SameButSpf { p with lsdb := p.lsdb.insert m.lsa.origin (activeEntry m now) } q)
      (sent : sends acts = p.floodSends m (some incoming)) (quiet : persists acts = []) :
      LsaReceipt p now incoming m q acts

theorem receiveLsa_spec {p q : ControlPlane} {m : LsaMessage}
    (h : p.receiveLsa now incoming m = some (q, acts)) : LsaReceipt p now incoming m q acts := by
  simp only [receiveLsa] at h
  split at h
  · rename_i hign
    cases h
    refine .ignored ?_
    simpa [or_assoc] using hign
  · rename_i hacc
    simp only [Bool.or_eq_true, Bool.not_eq_true', not_or, Bool.not_eq_false] at hacc
    obtain ⟨⟨hlink, hvalid⟩, hver⟩ := hacc
    split at h
    · rename_i hme
      cases h
      exact .stale (.inl hme)
    · rename_i hme
      split at h
      · rename_i hnew
        cases h
        refine .stale (.inr ?_)
        rw [Bool.not_eq_true', ← Bool.not_eq_true, isNewer_iff] at hnew
        simpa using hnew
      · rename_i hnew
        rw [Bool.not_eq_true', Bool.not_eq_false, isNewer_iff] at hnew
        split at h
        · rename_i hfull
          cases h
          exact .full (install_none hfull)
        · rename_i installed expiry hi
          simp only [bind, Option.bind_eq_some_iff] at h
          obtain ⟨⟨dirty, spf⟩, hd, heq⟩ := h
          have hroom := install_room hi
          obtain ⟨rfl, rfl⟩ := install_spec hi
          obtain ⟨hsame, hspf⟩ := markSpfDirty_spec hd
          cases heq
          refine .installed (Std.ExtTreeMap.mem_iff_contains.mpr hlink) hvalid hver hme hnew hroom
            hsame ?_ ?_
          · simp only [sends_append, sends_flood, installTimer, sends_cons_setTimer, sends_nil,
              hspf.1, List.append_nil]
            rfl
          · simp [persists_flood, hspf.2, installTimer]

theorem remoteVersions_append (entries : List DigestEntry) (entry : DigestEntry) (o : NodeId) :
    (remoteVersions (entries ++ [entry]))[o]? =
      if entry.origin = o then
        match (remoteVersions entries)[o]? with
        | none => some entry.version
        | some version => some (max version entry.version)
      else (remoteVersions entries)[o]? := by
  simp only [remoteVersions, List.foldl_append, List.foldl_cons, List.foldl_nil]
  rw [Std.ExtTreeMap.getElem?_alter]
  simp only [compare_eq_iff_eq]
  split
  · rename_i h
    subst h
    rfl
  · rfl

/-- Every origin `remoteVersions` knows is the origin of an entry. -/
theorem mem_of_remoteVersions {o : NodeId} {v : Version}
    (h : (remoteVersions entries)[o]? = some v) : o ∈ entries.map DigestEntry.origin := by
  induction entries using List.reverseRecOn generalizing v with
  | nil => simp [remoteVersions] at h
  | append_singleton entries entry ih =>
    rw [remoteVersions_append] at h
    rw [List.map_append, List.mem_append]
    split at h
    · rename_i heq
      exact .inr (by simp [heq])
    · exact .inl (ih h)

/-- A digest without repeated origins is read back as it is. -/
theorem remoteVersions_of_nodup (hnd : (entries.map DigestEntry.origin).Nodup) (o : NodeId)
    (v : Version) : (remoteVersions entries)[o]? = some v ↔ ⟨o, v.epoch, v.seq⟩ ∈ entries := by
  induction entries using List.reverseRecOn generalizing v with
  | nil => simp [remoteVersions]
  | append_singleton entries entry ih =>
    rw [List.map_append, List.nodup_append] at hnd
    obtain ⟨hnd', -, hdisj⟩ := hnd
    rw [remoteVersions_append, List.mem_append, List.mem_singleton]
    by_cases heq : entry.origin = o
    · subst heq
      have hfresh : entry.origin ∉ entries.map DigestEntry.origin := by
        intro hmem
        exact hdisj _ hmem entry.origin (by simp) rfl
      have hnone : (remoteVersions entries)[entry.origin]? = none := by
        cases hg : (remoteVersions entries)[entry.origin]? with
        | none => rfl
        | some w => exact absurd (mem_of_remoteVersions hg) hfresh
      have hnot : ⟨entry.origin, v.epoch, v.seq⟩ ∉ entries := fun hmem =>
        hfresh (List.mem_map.mpr ⟨_, hmem, rfl⟩)
      rw [if_pos rfl, hnone]
      cases v
      cases entry
      simp [hnot, DigestEntry.version, eq_comm]
    · rw [if_neg heq, ih hnd']
      have hne : (⟨o, v.epoch, v.seq⟩ : DigestEntry) ≠ entry := by
        rintro rfl
        exact heq rfl
      simp [hne]

/-- The digest of a node, read by its peer, gives the version of each entry. -/
theorem remoteVersions_digest (p : ControlPlane) (o : NodeId) :
    (remoteVersions p.digest)[o]? = p.lsdb[o]?.map LsdbEntry.version := by
  have hnd : (p.digest.map DigestEntry.origin).Nodup := by
    rw [digest, List.map_map]
    exact OrdMap.nodup_fst_toList p.lsdb
  ext v
  rw [remoteVersions_of_nodup hnd]
  simp only [digest, List.mem_map, Option.map_eq_some_iff, DigestEntry.mk.injEq]
  constructor
  · rintro ⟨⟨k, e⟩, hmem, rfl, he, hs⟩
    exact ⟨e, OrdMap.mem_toList.mp hmem, by cases v; cases he; cases hs; rfl⟩
  · rintro ⟨e, he, rfl⟩
    exact ⟨(o, e), OrdMap.mem_toList.mpr he, rfl, rfl, rfl⟩

theorem length_digest (p : ControlPlane) : p.digest.length = p.lsdb.size := by
  rw [digest, List.length_map, Std.ExtTreeMap.length_toList]

/-- The request or the answer a single origin gives. -/
theorem compareOrigin_spec {remote : OrdMap NodeId Version} {o : NodeId} {req : List NodeId}
    (h : p.compareOrigin incoming remote o = some (req, acts)) :
    (req = [] ∨ req = [o] ∧ o ∈ remote) ∧
    (∀ v, remote[o]? = some v → (∀ e, p.lsdb[o]? = some e → e.version < v) → o ≠ p.me →
      req = [o]) ∧
    (∀ a ∈ acts, ∃ m, p.stored o = some m ∧ a = sendLsa incoming m) ∧
    (∀ e m, p.lsdb[o]? = some e → p.stored o = some m →
      (∀ v, remote[o]? = some v → v < e.version) → sendLsa incoming m ∈ acts) := by
  simp only [compareOrigin, bind, Option.bind_eq_some_iff] at h
  obtain ⟨rel, hrel, h⟩ := h
  have hanswer : ∀ a ∈ ((p.lsdb[o]?.bind LsdbEntry.active).map fun active =>
      sendLsa incoming active.message).toList,
      ∃ m, p.stored o = some m ∧ a = sendLsa incoming m := by
    intro a ha
    simp only [Option.mem_toList, Option.map_eq_some_iff] at ha
    obtain ⟨active, hact, rfl⟩ := ha
    exact ⟨active.message, by simp [stored, hact], rfl⟩
  cases hr : remote[o]? with
  | none =>
    cases hl : p.lsdb[o]? with
    | none => simp [hr, hl, compareVersions] at hrel
    | some e =>
      simp only [hr, hl, Option.map_some, compareVersions, Option.some.injEq] at hrel
      subst hrel
      cases h
      refine ⟨.inl rfl, by simp, hanswer, ?_⟩
      intro e' m he' hm _
      simp only [stored, Option.map_eq_some_iff] at hm
      obtain ⟨active, hact, rfl⟩ := hm
      simp [hact]
  | some v =>
    have hmem : o ∈ remote := OrdMap.mem_iff_get.mpr ⟨v, hr⟩
    cases hl : p.lsdb[o]? with
    | none =>
      simp only [hr, hl, Option.map_none, compareVersions, Option.some.injEq] at hrel
      subst hrel
      cases h
      refine ⟨?_, ?_, by simp, by simp⟩
      · split
        · exact .inr ⟨rfl, hmem⟩
        · exact .inl rfl
      · intro w _ _ hne
        simp [hne]
    | some e =>
      simp only [hr, hl, Option.map_some, compareVersions] at hrel
      split at hrel
      · rename_i hgt
        cases hrel
        cases h
        refine ⟨?_, ?_, by simp, ?_⟩
        · split
          · exact .inr ⟨rfl, hmem⟩
          · exact .inl rfl
        · intro w _ _ hne
          simp [hne]
        · intro e' m he' _ hlt
          cases he'
          exact absurd (hlt v rfl) (not_lt.mpr hgt.le)
      · rename_i hngt
        split at hrel
        · rename_i hlt
          cases hrel
          cases h
          refine ⟨.inl rfl, ?_, hanswer, ?_⟩
          · intro w hw hall
            cases hw
            exact absurd (hall e rfl) hngt
          · intro e' m he' hm _
            simp only [stored, Option.map_eq_some_iff] at hm
            obtain ⟨active, hact, rfl⟩ := hm
            simp [hact]
        · rename_i hnlt
          cases hrel
          cases h
          refine ⟨.inl rfl, ?_, by simp, ?_⟩
          · intro w hw hall
            cases hw
            exact absurd (hall e rfl) hngt
          · intro e' m he' _ hlt
            cases he'
            exact absurd (hlt v rfl) hnlt

/-- Everything a digest of acceptable length makes a node send. -/
structure DigestReply (p : ControlPlane) (incoming : LinkId) (entries : List DigestEntry)
    (acts : List ControlAction) : Prop where
  /-- An origin the digest lacks, or has an older version of, is answered. -/
  answered : ∀ o e m, p.lsdb[o]? = some e → p.stored o = some m →
    (∀ v, (remoteVersions entries)[o]? = some v → v < e.version) →
    (incoming, .lsa m) ∈ sends acts
  /-- An origin the digest has a newer version of is requested. -/
  asked : ∀ o v, (remoteVersions entries)[o]? = some v →
    (∀ e, p.lsdb[o]? = some e → e.version < v) → o ≠ p.me →
    ∃ os, (incoming, .digestReq os) ∈ sends acts ∧ o ∈ os
  /-- Nothing else is sent. -/
  only : ∀ link frame, (link, frame) ∈ sends acts → link = incoming ∧
    ((∃ o m, p.stored o = some m ∧ frame = .lsa m) ∨
      ∃ os, frame = .digestReq os ∧ os.length ≤ entries.length ∧
        ∀ o ∈ os, o ∈ entries.map DigestEntry.origin)
  quiet : persists acts = []

theorem flatMap_fst_sublist {f : NodeId → Option (List NodeId × List ControlAction)}
    (hf : ∀ x r, f x = some r → r.1 = [] ∨ r.1 = [x]) :
    ∀ {xs : List NodeId} {ys : List (List NodeId × List ControlAction)},
      xs.map f = ys.map some → (ys.flatMap Prod.fst).Sublist xs := by
  intro xs
  induction xs with
  | nil => intro ys h; cases ys <;> simp_all
  | cons x xs ih =>
    intro ys h
    cases ys with
    | nil => simp at h
    | cons y ys =>
      simp only [List.map_cons, List.cons.injEq] at h
      obtain ⟨hy, hrest⟩ := h
      rw [List.flatMap_cons]
      rcases hf x y hy with hnil | hone
      · rw [hnil]
        exact (ih hrest).cons x
      · rw [hone]
        exact (ih hrest).cons_cons x

theorem compared_of_mem {f : NodeId → Option (List NodeId × List ControlAction)}
    {xs : List NodeId} {ys : List (List NodeId × List ControlAction)} (h : xs.mapM f = some ys)
    {x : NodeId} (hx : x ∈ xs) : ∃ r, f x = some r := by
  have hmap : f x ∈ ys.map some := by
    rw [← map_eq_of_mapM h]
    exact List.mem_map_of_mem hx
  obtain ⟨r, -, hr⟩ := List.mem_map.mp hmap
  exact ⟨r, hr.symm⟩

theorem receiveDigest_ignored (h : p.receiveDigest incoming entries = some acts)
    (hign : incoming ∉ p.adjacencies ∨ maxDigestEntries < entries.length) : acts = [] := by
  have hcond : (!p.adjacencies.contains incoming || decide (maxDigestEntries < entries.length)) =
      true := by
    simpa using hign
  rw [receiveDigest, if_pos hcond] at h
  cases h
  rfl

theorem receiveDigest_replies (h : p.receiveDigest incoming entries = some acts) :
    Replies acts := by
  rw [receiveDigest] at h
  split at h
  · cases h
    simp [Replies]
  · simp only [bind, Option.bind_eq_some_iff] at h
    obtain ⟨compared, hc, heq⟩ := h
    cases heq
    intro a ha
    rcases List.mem_append.mp ha with ha | ha
    · obtain ⟨⟨req, as⟩, hr, ha⟩ := List.mem_flatMap.mp ha
      obtain ⟨o, -, ho⟩ := (mem_of_mapM hc).mp hr
      obtain ⟨m, -, rfl⟩ := (compareOrigin_spec ho).2.2.1 a ha
      exact ⟨incoming, _, rfl⟩
    · split at ha
      · simp at ha
      · exact ⟨incoming, _, List.mem_singleton.mp ha⟩

theorem receiveDigest_spec (h : p.receiveDigest incoming entries = some acts)
    (hlink : incoming ∈ p.adjacencies) (hlen : entries.length ≤ maxDigestEntries) :
    DigestReply p incoming entries acts := by
  have hreceived := h
  have hcond : ¬ (!p.adjacencies.contains incoming ||
      decide (maxDigestEntries < entries.length)) = true := by
    simp [hlink, hlen]
  rw [receiveDigest, if_neg hcond] at h
  simp only [bind, Option.bind_eq_some_iff] at h
  obtain ⟨compared, hc, heq⟩ := h
  have hmem := @mem_of_mapM _ _ _ _ _ hc
  generalize horig : (Std.ExtTreeMap.unitOfList (p.lsdb.keys ++ (remoteVersions entries).keys)
    compare).keys = origins at hc hmem
  have horigins : ∀ o, o ∈ origins ↔ o ∈ p.lsdb ∨ o ∈ remoteVersions entries := by
    intro o
    rw [← horig, Std.ExtTreeMap.mem_keys, Std.ExtTreeMap.mem_unitOfList]
    simp
  generalize hreq : compared.flatMap Prod.fst = requested at heq
  have hrequested : ∀ o, o ∈ requested → o ∈ remoteVersions entries := by
    intro o ho
    rw [← hreq, List.mem_flatMap] at ho
    obtain ⟨⟨req, as⟩, hr, ho⟩ := ho
    obtain ⟨x, -, hx⟩ := hmem.mp hr
    rcases (compareOrigin_spec hx).1 with hnil | ⟨hone, hin⟩
    · simp [hnil] at ho
    · simp only [hone, List.mem_singleton] at ho
      exact ho ▸ hin
  have hsub : requested.Sublist origins := by
    rw [← hreq]
    exact flatMap_fst_sublist (fun x r hx => (compareOrigin_spec hx).1.imp id And.left)
      (map_eq_of_mapM hc)
  have hnd : requested.Nodup := by
    refine hsub.nodup ?_
    rw [← horig]
    exact Std.ExtTreeMap.nodup_keys
  have hin : ∀ o ∈ requested, o ∈ entries.map DigestEntry.origin := by
    intro o ho
    obtain ⟨v, hv⟩ := OrdMap.mem_iff_get.mp (hrequested o ho)
    exact mem_of_remoteVersions hv
  have hanswers : ∀ a ∈ compared.flatMap Prod.snd, ∃ o m, p.stored o = some m ∧
      a = sendLsa incoming m := by
    intro a ha
    obtain ⟨⟨req, as⟩, hr, ha⟩ := List.mem_flatMap.mp ha
    obtain ⟨x, -, hx⟩ := hmem.mp hr
    obtain ⟨m, hm, rfl⟩ := (compareOrigin_spec hx).2.2.1 a ha
    exact ⟨x, m, hm, rfl⟩
  cases heq
  refine ⟨?_, ?_, ?_, (receiveDigest_replies hreceived).persists⟩
  · intro o e m he hm hlt
    have ho : o ∈ origins := (horigins o).mpr (.inl (OrdMap.mem_iff_get.mpr ⟨e, he⟩))
    obtain ⟨r, hr⟩ := compared_of_mem hc ho
    rw [mem_sends, List.mem_append, List.mem_flatMap]
    exact .inl ⟨r, hmem.mpr ⟨o, ho, hr⟩, (compareOrigin_spec hr).2.2.2 e m he hm hlt⟩
  · intro o v hv hlt hne
    have ho : o ∈ origins := (horigins o).mpr (.inr (OrdMap.mem_iff_get.mpr ⟨v, hv⟩))
    obtain ⟨r, hr⟩ := compared_of_mem hc ho
    have hreqo : o ∈ requested := by
      rw [← hreq, List.mem_flatMap]
      refine ⟨r, hmem.mpr ⟨o, ho, hr⟩, ?_⟩
      rw [(compareOrigin_spec hr).2.1 v hv hlt hne]
      simp
    refine ⟨requested, ?_, hreqo⟩
    rw [mem_sends, List.mem_append, if_neg (by simpa using List.ne_nil_of_mem hreqo)]
    exact .inr (by simp)
  · intro link frame hs
    rw [mem_sends, List.mem_append] at hs
    rcases hs with hs | hs
    · obtain ⟨o, m, hm, ha⟩ := hanswers _ hs
      cases ha
      exact ⟨rfl, .inl ⟨o, m, hm, rfl⟩⟩
    · split at hs
      · simp at hs
      · simp only [List.mem_singleton, ControlAction.send.injEq] at hs
        obtain ⟨rfl, rfl⟩ := hs
        have hle := (List.subperm_of_subset hnd hin).length_le
        rw [List.length_map] at hle
        exact ⟨rfl, .inr ⟨requested, rfl, hle, hin⟩⟩

/-- A request of acceptable length is answered with the active messages it names. -/
theorem mem_receiveDigestReq {incoming link : LinkId} {origins : List NodeId} :
    (link, frame) ∈ sends (p.receiveDigestReq incoming origins) ↔
      (incoming ∈ p.adjacencies ∧ origins.length ≤ maxDigestReqOrigins) ∧ link = incoming ∧
        ∃ o m, o ∈ origins ∧ p.stored o = some m ∧ frame = .lsa m := by
  simp only [receiveDigestReq]
  split
  · rename_i hign
    simp only [Bool.or_eq_true, Bool.not_eq_true', OrdMap.contains_eq_false,
      decide_eq_true_eq] at hign
    simp only [sends_nil, List.not_mem_nil, false_iff]
    rintro ⟨⟨hlink, hlen⟩, -⟩
    rcases hign with hign | hign
    · exact hign hlink
    · omega
  · rename_i hacc
    simp only [Bool.or_eq_true, Bool.not_eq_true', not_or, Bool.not_eq_false, decide_eq_true_eq,
      Nat.not_lt, ← Std.ExtTreeMap.mem_iff_contains] at hacc
    rw [mem_sends, List.mem_filterMap]
    simp only [Std.ExtTreeMap.mem_keys, Std.ExtTreeMap.mem_unitOfList, List.contains_iff_mem,
      Option.map_eq_some_iff, sendLsa, ControlAction.send.injEq, stored]
    constructor
    · rintro ⟨o, ho, active, hact, rfl, rfl⟩
      exact ⟨hacc, rfl, o, active.message, ho, ⟨active, hact, rfl⟩, rfl⟩
    · rintro ⟨-, rfl, o, m, ho, ⟨active, hact, rfl⟩, rfl⟩
      exact ⟨o, ho, active, hact, rfl, rfl⟩

theorem receiveDigestReq_replies (p : ControlPlane) (incoming : LinkId) (origins : List NodeId) :
    Replies (p.receiveDigestReq incoming origins) := by
  intro a ha
  simp only [receiveDigestReq] at ha
  split at ha
  · simp at ha
  · simp only [List.mem_filterMap, Option.map_eq_some_iff] at ha
    obtain ⟨o, -, active, -, rfl⟩ := ha
    exact ⟨incoming, _, rfl⟩

end ControlPlane
end Control
end MeshBus
