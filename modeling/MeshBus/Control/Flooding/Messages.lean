import MeshBus.Control.Mesh

/-!
# Control.Flooding.Messages

The messages of a network. `Sound` says that every LSA in it was originated by the node it names,
that no version is above that node's own, and that a version has one content; `Short` that no
digest or request is too long for its receiver. Both hold along every run.
-/

namespace MeshBus
namespace Control
namespace Mesh

open ControlPlane

variable {ι : Type}

/-- The message is stored at some node, or in flight. -/
def Said (c : Mesh ι) (m : LsaMessage) : Prop :=
  (∃ i o, (c.node i).stored o = some m) ∨ ∃ a, ⟨a, .lsa m⟩ ∈ c.flight

/-- Node `i` holds version `v` of origin `o`, or a newer one. -/
def Holds (c : Mesh ι) (i : ι) (o : NodeId) (v : Version) : Prop :=
  ∃ e, (c.node i).lsdb[o]? = some e ∧ v ≤ e.version

/-- What holds of the messages of a network whose nodes have the given ids. -/
structure Sound (id : ι → NodeId) (c : Mesh ι) : Prop where
  me : ∀ i, (c.node i).me = id i
  signer : ∀ i, (c.node i).signer = unsecuredSign
  verifier : ∀ i, (c.node i).verifier = unsecuredVerify
  active : ∀ i o e, (c.node i).lsdb[o]? = some e → ∃ m now, e = activeEntry m now ∧ m.lsa.origin = o
  own : ∀ i e, (c.node i).lsdb[id i]? = some e → e.version = ⟨(c.node i).epoch, (c.node i).mySeq⟩
  known : ∀ m, c.Said m → ∃ i, id i = m.lsa.origin ∧ c.Holds i m.lsa.origin (lsaVersion m.lsa)
  valid : ∀ m, c.Said m → validLsa m.lsa = true
  unique : ∀ m m', c.Said m → c.Said m' → m.lsa.origin = m'.lsa.origin →
    lsaVersion m.lsa = lsaVersion m'.lsa → m = m'
  held : ∀ a m, ⟨a, .lsa m⟩ ∈ c.flight → c.Holds a.1 m.lsa.origin (lsaVersion m.lsa)

/-- No digest or request in flight is so long that its receiver ignores it. -/
structure Short (c : Mesh ι) : Prop where
  digests : ∀ a entries, ⟨a, .digest entries⟩ ∈ c.flight → entries.length ≤ maxDigestEntries
  requests : ∀ a os, ⟨a, .digestReq os⟩ ∈ c.flight → os.length ≤ maxDigestReqOrigins

theorem eq_or_mem_eraseIdx {α : Type*} {l : List α} {n : Nat} {x : α} (hx : l[n]? = some x) :
    ∀ y ∈ l, y = x ∨ y ∈ l.eraseIdx n := by
  intro y hy
  obtain ⟨i, hi⟩ := List.mem_iff_getElem?.mp hy
  by_cases h : i = n
  · subst h
    rw [hx] at hi
    exact .inl (Option.some.inj hi).symm
  · exact .inr (List.mem_eraseIdx_iff_getElem?.mpr ⟨i, h, hi⟩)

section Emit

variable [DecidableEq ι] (c : Mesh ι) (i : ι) (p : ControlPlane) (acts : List ControlAction)

@[simp] theorem emit_node_self : (c.emit i p acts).node i = p := by
  simp [emit]

theorem emit_node_ne {j : ι} (h : j ≠ i) : (c.emit i p acts).node j = c.node j := by
  simp [emit, h]

theorem mem_emit_flight {x : InFlight ι} :
    x ∈ (c.emit i p acts).flight ↔
      x ∈ c.flight ∨ ∃ link frame, (link, frame) ∈ sends acts ∧ x = ⟨(i, link), frame⟩ := by
  simp only [emit, List.mem_append, List.mem_map, Prod.exists]
  refine or_congr Iff.rfl ?_
  constructor
  · rintro ⟨link, frame, h, rfl⟩
    exact ⟨link, frame, h, rfl⟩
  · rintro ⟨link, frame, h, rfl⟩
    exact ⟨link, frame, h, rfl⟩

end Emit

/-! ## Steps -/

/-- Node `k` handles one event; `acts` go into flight, and a frame it received leaves it. -/
structure Acts (w : Wiring ι) (c c' : Mesh ι) (k : ι) (now : MonoTime) (event : ControlEvent)
    (acts : List ControlAction) : Prop where
  outcome : Outcome (c.node k) now event (c'.node k) acts
  others : ∀ j, j ≠ k → c'.node j = c.node j
  old : ∀ x ∈ c'.flight, x ∈ c.flight ∨
    ∃ link frame, (link, frame) ∈ sends acts ∧ x = ⟨(k, link), frame⟩
  new : ∀ link frame, (link, frame) ∈ sends acts → ⟨(k, link), frame⟩ ∈ c'.flight
  kept : ∀ x ∈ c.flight, x ∈ c'.flight ∨
    ∃ link, w.far x.src = (k, link) ∧ event = .frame link x.frame
  received : ∀ link frame, event = .frame link frame →
    ∃ a, w.far a = (k, link) ∧ ⟨a, frame⟩ ∈ c.flight
  live : ∀ o epoch seq, event ≠ .timer (.lsaExpire o epoch seq)

/-- What the acting node keeps, every node keeps. -/
theorem Acts.same {w : Wiring ι} {c c' : Mesh ι} {k : ι} {now : MonoTime} {event : ControlEvent}
    {acts : List ControlAction} (h : Acts w c c' k now event acts) {α : Type*}
    (f : ControlPlane → α) (hk : f (c'.node k) = f (c.node k)) (i : ι) :
    f (c'.node i) = f (c.node i) := by
  by_cases hik : i = k
  · rw [hik]
    exact hk
  · rw [h.others i hik]

/-- A frame of a link that is not up at both ends disappears. -/
structure Loses (w : Wiring ι) (c c' : Mesh ι) : Prop where
  nodes : c'.node = c.node
  old : ∀ x ∈ c'.flight, x ∈ c.flight
  kept : ∀ x ∈ c.flight, x ∈ c'.flight ∨ ¬ (c.Up x.src ∧ c.Up (w.far x.src))

theorem step_cases [DecidableEq ι] {w : Wiring ι} {c c' : Mesh ι} {s : MeshStep ι}
    (h : c.step w s = some c') :
    (∃ k now event acts, Acts w c c' k now event acts) ∨ Loses w c c' := by
  cases s with
  | event i now event =>
    simp only [step] at h
    split at h
    · rename_i hlocal
      obtain ⟨⟨q, acts⟩, hh, rfl⟩ := Option.map_eq_some_iff.mp h
      refine .inl ⟨i, now, event, acts, ?_, ?_, ?_, ?_, ?_, ?_, ?_⟩
      · rw [emit_node_self]
        exact handle_spec hh
      · exact fun j hj => emit_node_ne _ _ _ _ hj
      · exact fun x hx => (mem_emit_flight _ _ _ _).mp hx
      · exact fun link frame hs => (mem_emit_flight _ _ _ _).mpr (.inr ⟨link, frame, hs, rfl⟩)
      · exact fun x hx => .inl ((mem_emit_flight _ _ _ _).mpr (.inl hx))
      · rintro link frame rfl
        simp [ControlEvent.isLocal] at hlocal
      · rintro o epoch seq rfl
        simp [ControlEvent.isLocal] at hlocal
    · cases h
  | deliver n now =>
    simp only [step] at h
    split at h
    · cases h
    · rename_i x hx
      obtain ⟨⟨q, acts⟩, hh, rfl⟩ := Option.map_eq_some_iff.mp h
      refine .inl ⟨(w.far x.src).1, now, .frame (w.far x.src).2 x.frame, acts, ?_, ?_, ?_, ?_, ?_,
        ?_, ?_⟩
      · rw [emit_node_self]
        exact handle_spec hh
      · exact fun j hj => emit_node_ne _ _ _ _ hj
      · intro y hy
        refine ((mem_emit_flight _ _ _ _).mp hy).imp ?_ id
        exact List.mem_of_mem_eraseIdx
      · exact fun link frame hs => (mem_emit_flight _ _ _ _).mpr (.inr ⟨link, frame, hs, rfl⟩)
      · intro y hy
        rcases eq_or_mem_eraseIdx hx y hy with rfl | hy
        · exact .inr ⟨_, rfl, rfl⟩
        · exact .inl ((mem_emit_flight _ _ _ _).mpr (.inl hy))
      · rintro link frame heq
        cases heq
        exact ⟨x.src, rfl, List.mem_of_getElem? hx⟩
      · rintro o epoch seq heq
        cases heq
  | lose n =>
    simp only [step] at h
    split at h
    · cases h
    · rename_i x hx
      split at h
      · cases h
      · rename_i hdown
        cases h
        refine .inr ⟨rfl, fun y hy => List.mem_of_mem_eraseIdx hy, ?_⟩
        intro y hy
        rcases eq_or_mem_eraseIdx hx y hy with rfl | hy
        · exact .inr hdown
        · exact .inl hy

/-! ## Messages -/

section SoundStep

variable {w : Wiring ι} {id : ι → NodeId} {c c' : Mesh ι} {k : ι} {now : MonoTime}
  {event : ControlEvent} {acts : List ControlAction}

theorem said_received (h : Acts w c c' k now event acts) {link : LinkId} {m : LsaMessage}
    (hr : event = .frame link (.lsa m)) : c.Said m := by
  obtain ⟨a, -, ha⟩ := h.received link _ hr
  exact .inr ⟨a, ha⟩

/-- Nothing new is said in a step but the message it originates. -/
theorem said_step (h : Acts w c c' k now event acts) {m : LsaMessage} (hm : c'.Said m) :
    c.Said m ∨ ∃ mid acts', Prepared (c.node k) mid ∧ Originates mid now (c'.node k) acts' ∧
      m = mid.nextMessage := by
  have atK : ∀ o, (c'.node k).stored o = some m → c.Said m ∨ ∃ mid acts',
      Prepared (c.node k) mid ∧ Originates mid now (c'.node k) acts' ∧ m = mid.nextMessage := by
    intro o ho
    rcases stored_step h.outcome.effect ho with hold | hnew | ⟨link, hr⟩
    · exact .inl (.inl ⟨k, o, hold⟩)
    · exact .inr hnew
    · exact .inl (said_received h hr)
  rcases hm with ⟨i, o, ho⟩ | ⟨a, ha⟩
  · by_cases hik : i = k
    · subst hik
      exact atK o ho
    · rw [h.others i hik] at ho
      exact .inl (.inl ⟨i, o, ho⟩)
  · rcases h.old _ ha with hold | ⟨link, frame, hs, heq⟩
    · exact .inl (.inr ⟨a, hold⟩)
    · cases heq
      cases h.outcome.frames hs with
      | lsa ho => exact atK _ ho

/-- The version a node is about to originate is above the one it holds of itself. -/
theorem Sound.own_lt (hS : Sound id c) {mid : ControlPlane} (hp : Prepared (c.node k) mid)
    {q : ControlPlane} {acts' : List ControlAction} (ho : Originates mid now q acts')
    {e : LsdbEntry} (he : (c.node k).lsdb[id k]? = some e) :
    e.version < lsaVersion mid.nextMessage.lsa := by
  rw [hS.own k e he, nextMessage_unsecured (hp.signer.trans (hS.signer k)), Version.lt_def]
  refine .inr ⟨hp.epoch.symm, ?_⟩
  show (c.node k).mySeq.toNat < (mid.mySeq + 1).toNat
  rw [← hp.mySeq]
  exact seq_lt_succ ho.seq_lt

theorem Sound.next_origin (hS : Sound id c) {mid : ControlPlane} (hp : Prepared (c.node k) mid) :
    mid.nextMessage.lsa.origin = id k := by
  rw [nextMessage_unsecured (hp.signer.trans (hS.signer k))]
  show mid.me = id k
  rw [hp.me, hS.me k]

/-- No node goes back to an older version. -/
theorem holds_step (hS : Sound id c) (h : Acts w c c' k now event acts) {i : ι} {o : NodeId}
    {v : Version} (hv : c.Holds i o v) : c'.Holds i o v := by
  by_cases hik : i = k
  · subst hik
    obtain ⟨e, he, hle⟩ := hv
    cases h.outcome.effect with
    | reply same quiet => exact ⟨e, by rw [same.lsdb]; exact he, hle⟩
    | originate mid prepared ho quiet =>
      rw [Holds, ho.same.lsdb, originated, prepared.lsdb]
      by_cases heq : mid.nextMessage.lsa.origin = o
      · subst heq
        refine ⟨activeEntry mid.nextMessage now, by simp, hle.trans (le_of_lt ?_)⟩
        rw [hS.next_origin prepared] at he
        exact hS.own_lt prepared ho he
      · exact ⟨e, by rw [OrdMap.get_insert, if_neg heq]; exact he, hle⟩
    | install link m received foreign newer room same quiet =>
      rw [Holds, same.lsdb]
      by_cases heq : m.lsa.origin = o
      · subst heq
        exact ⟨activeEntry m now, by simp, hle.trans (newer e he).le⟩
      · exact ⟨e, by rw [OrdMap.get_insert, if_neg heq]; exact he, hle⟩
    | expire origin entry current expiry same quiet => exact absurd expiry (h.live _ _ _)
  · rw [Holds, h.others i hik]
    exact hv

theorem lsdb_step (h : Acts w c c' k now event acts) {o : NodeId} {e : LsdbEntry}
    (he : (c'.node k).lsdb[o]? = some e) :
    (c.node k).lsdb[o]? = some e ∨ ∃ m, e = activeEntry m now ∧ m.lsa.origin = o := by
  obtain hold | ⟨m, heq, horigin, -⟩ | ⟨e0, -, -, hexpire⟩ := h.outcome.effect.entry he
  · exact .inl hold
  · exact .inr ⟨m, heq, horigin⟩
  · exact absurd hexpire (h.live _ _ _)

theorem stored_of_active {p : ControlPlane} {o : NodeId} {m : LsaMessage} {now : MonoTime}
    (h : p.lsdb[o]? = some (activeEntry m now)) : p.stored o = some m := by
  simp [stored, h, activeEntry, LsdbEntry.active]

/-- An active message has its entry. -/
theorem entry_of_stored {p : ControlPlane} {o : NodeId} {m : LsaMessage}
    (hactive : ∀ e, p.lsdb[o]? = some e → ∃ m now, e = activeEntry m now ∧ m.lsa.origin = o)
    (h : p.stored o = some m) :
    m.lsa.origin = o ∧ ∃ now, p.lsdb[o]? = some (activeEntry m now) := by
  cases he : p.lsdb[o]? with
  | none => simp [stored, he] at h
  | some e =>
    obtain ⟨m', now, rfl, horigin⟩ := hactive e he
    rw [stored_of_active he] at h
    cases h
    exact ⟨horigin, now, rfl⟩

theorem Sound.step [DecidableEq ι] [Fintype ι] (hid : Function.Injective id) (hS : Sound id c)
    (h : Acts w c c' k now event acts) (hadm : c'.Admissible) : Sound id c' := by
  have heffect := h.outcome.effect
  have hident : (c'.node k).me = (c.node k).me ∧ (c'.node k).signer = (c.node k).signer ∧
      (c'.node k).verifier = (c.node k).verifier := by
    cases heffect with
    | reply same quiet => exact ⟨same.me, same.signer, same.verifier⟩
    | originate mid prepared ho quiet =>
      exact ⟨ho.same.me.trans prepared.me, ho.same.signer.trans prepared.signer,
        ho.same.verifier.trans prepared.verifier⟩
    | install link m received foreign newer room same quiet =>
      exact ⟨same.me, same.signer, same.verifier⟩
    | expire origin entry current expiry same quiet => exact absurd expiry (h.live _ _ _)
  have active : ∀ i o e, (c'.node i).lsdb[o]? = some e →
      ∃ m now, e = activeEntry m now ∧ m.lsa.origin = o := by
    intro i o e he
    by_cases hik : i = k
    · subst hik
      rcases lsdb_step h he with hold | ⟨m, rfl, ho⟩
      · exact hS.active i o e hold
      · exact ⟨m, now, rfl, ho⟩
    · rw [h.others i hik] at he
      exact hS.active i o e he
  have me : ∀ i, (c'.node i).me = id i :=
    fun i => (h.same ControlPlane.me hident.1 i).trans (hS.me i)
  refine ⟨me, ?_, ?_, active, ?_, ?_, ?_, ?_, ?_⟩
  · exact fun i => (h.same ControlPlane.signer hident.2.1 i).trans (hS.signer i)
  · exact fun i => (h.same ControlPlane.verifier hident.2.2 i).trans (hS.verifier i)
  · intro i e he
    by_cases hik : i = k
    · subst hik
      cases heffect with
      | reply same quiet =>
        rw [same.lsdb] at he
        rw [same.epoch, same.mySeq]
        exact hS.own i e he
      | originate mid prepared ho quiet =>
        rw [ho.same.lsdb, originated, OrdMap.get_insert, if_pos (hS.next_origin prepared)] at he
        cases he
        rw [ho.same.epoch, ho.same.mySeq]
        show lsaVersion mid.nextMessage.lsa = _
        rw [nextMessage_unsecured (prepared.signer.trans (hS.signer i))]
        rfl
      | install link m received foreign newer room same quiet =>
        rw [hS.me i] at foreign
        rw [same.lsdb, OrdMap.get_insert, if_neg foreign] at he
        rw [same.epoch, same.mySeq]
        exact hS.own i e he
      | expire origin entry current expiry same quiet => exact absurd expiry (h.live _ _ _)
    · rw [h.others i hik] at he ⊢
      exact hS.own i e he
  · intro m hm
    rcases said_step h hm with hold | ⟨mid, acts', hp, ho, rfl⟩
    · obtain ⟨i, hi, hholds⟩ := hS.known m hold
      exact ⟨i, hi, holds_step hS h hholds⟩
    · refine ⟨k, (hS.next_origin hp).symm, activeEntry mid.nextMessage now, ?_, le_refl _⟩
      rw [ho.same.lsdb, originated, OrdMap.get_insert, if_pos rfl]
  · intro m hm
    rcases said_step h hm with hold | ⟨mid, acts', hp, ho, rfl⟩
    · exact hS.valid m hold
    · have hall := hadm.2 k
      have hstored := ho.stored
      rw [hS.next_origin hp] at hstored
      rw [me k, lsa] at hall
      rw [stored, Option.map_eq_some_iff] at hstored
      obtain ⟨active, hact, hmsg⟩ := hstored
      rw [hact] at hall
      rw [← hmsg]
      simpa using hall
  · intro m m' hm hm' horigin hversion
    -- A newly originated message has a version that nothing said before can have.
    have fresh : ∀ mid acts' m₀, Prepared (c.node k) mid →
        Originates mid now (c'.node k) acts' → c.Said m₀ →
        mid.nextMessage.lsa.origin = m₀.lsa.origin →
        lsaVersion mid.nextMessage.lsa ≠ lsaVersion m₀.lsa := by
      intro mid acts' m₀ hp ho hsaid horig hv
      obtain ⟨i, hi, e, he, hle⟩ := hS.known m₀ hsaid
      rw [← horig, hS.next_origin hp] at hi he
      cases hid hi
      have hlt := hS.own_lt hp ho he
      rw [hv] at hlt
      exact absurd hle (not_le.mpr hlt)
    rcases said_step h hm with hold | ⟨mid, acts₁, hp, ho, rfl⟩
    · rcases said_step h hm' with hold' | ⟨mid', acts₂, hp', ho', rfl⟩
      · exact hS.unique m m' hold hold' horigin hversion
      · exact absurd hversion.symm (fresh mid' acts₂ m hp' ho' hold horigin.symm)
    · rcases said_step h hm' with hold' | ⟨mid', acts₂, hp', ho', rfl⟩
      · exact absurd hversion (fresh mid acts₁ m' hp ho hold' horigin)
      · have h1 := ho.stored
        have h2 := ho'.stored
        rw [← horigin, h1] at h2
        exact Option.some.inj h2
  · intro a m ha
    rcases h.old _ ha with hold | ⟨link, frame, hs, heq⟩
    · exact holds_step hS h (hS.held a m hold)
    · cases heq
      cases h.outcome.frames hs with
      | lsa ho =>
        obtain ⟨rfl, t, hentry⟩ := entry_of_stored (active k _) ho
        exact ⟨_, hentry, le_refl _⟩

end SoundStep

/-! ## Sizes -/

/-- Every origin in a database is a node that has originated. -/
theorem Sound.key_mem [DecidableEq ι] [Fintype ι] {id : ι → NodeId} {c : Mesh ι}
    (hS : Sound id c) {m : LsaMessage} (hm : c.Said m) :
    m.lsa.origin ∈ c.origins.image id := by
  obtain ⟨i, hi, e, he, -⟩ := hS.known m hm
  refine Finset.mem_image.mpr ⟨i, ?_, hi⟩
  rw [origins, Finset.mem_filter, hS.me i, hi]
  exact ⟨Finset.mem_univ i, OrdMap.mem_iff_get.mpr ⟨e, he⟩⟩

theorem Sound.keys_subset [DecidableEq ι] [Fintype ι] {id : ι → NodeId} {c : Mesh ι}
    (hS : Sound id c) (i : ι) : (c.node i).lsdb.keys.toFinset ⊆ c.origins.image id := by
  intro o ho
  rw [List.mem_toFinset, Std.ExtTreeMap.mem_keys] at ho
  obtain ⟨e, he⟩ := OrdMap.mem_iff_get.mp ho
  obtain ⟨m, t, rfl, rfl⟩ := hS.active i o e he
  exact hS.key_mem (.inl ⟨i, _, stored_of_active he⟩)

theorem Sound.size_le [DecidableEq ι] [Fintype ι] {id : ι → NodeId} {c : Mesh ι}
    (hS : Sound id c) (hadm : c.Admissible) (i : ι) :
    (c.node i).lsdb.size ≤ maxLsdbEntries := by
  rw [← OrdMap.card_keys]
  exact (Finset.card_le_card (hS.keys_subset i)).trans (Finset.card_image_le.trans hadm.1)

/-- A database with room for one more origin is never full. -/
theorem Sound.not_full [DecidableEq ι] [Fintype ι] {id : ι → NodeId} {c : Mesh ι}
    (hS : Sound id c) (hadm : c.Admissible) {i : ι} {m : LsaMessage} (hm : c.Said m)
    (hnew : m.lsa.origin ∉ (c.node i).lsdb) : (c.node i).lsdb.size < maxLsdbEntries := by
  have hnot : m.lsa.origin ∉ (c.node i).lsdb.keys.toFinset := by
    rw [List.mem_toFinset, Std.ExtTreeMap.mem_keys]
    exact hnew
  have hsub : insert m.lsa.origin (c.node i).lsdb.keys.toFinset ⊆ c.origins.image id :=
    Finset.insert_subset (hS.key_mem hm) (hS.keys_subset i)
  have hcard := (Finset.card_le_card hsub).trans (Finset.card_image_le.trans hadm.1)
  rw [Finset.card_insert_of_notMem hnot, OrdMap.card_keys] at hcard
  exact hcard

theorem Short.step [DecidableEq ι] [Fintype ι] {w : Wiring ι} {id : ι → NodeId} {c c' : Mesh ι}
    {k : ι} {now : MonoTime} {event : ControlEvent} {acts : List ControlAction} (hs : Short c)
    (hS' : Sound id c') (hadm : c'.Admissible) (h : Acts w c c' k now event acts) : Short c' := by
  refine ⟨?_, ?_⟩
  · intro a entries ha
    rcases h.old _ ha with hold | ⟨link, frame, hsent, heq⟩
    · exact hs.digests a entries hold
    · cases heq
      cases h.outcome.frames hsent with
      | digest =>
        rw [length_digest]
        exact hS'.size_le hadm k
  · intro a os ha
    rcases h.old _ ha with hold | ⟨link, frame, hsent, heq⟩
    · exact hs.requests a os hold
    · cases heq
      cases h.outcome.frames hsent with
      | digestReq answers accepted length_le => exact length_le.trans accepted

end Mesh
end Control
end MeshBus
