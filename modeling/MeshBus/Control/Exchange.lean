import MeshBus.Control.Steps

/-!
# Control.Exchange

One digest exchange between two neighbours: the digest of `a` goes to `b`, the frames `b` answers
with go to `a`, and the frames `a` answers with go to `b`. It returns (`exchange_some`).
-/

namespace MeshBus
namespace Control

/-- The frames an action list sends on a link, in order. -/
def framesOn (link : LinkId) (actions : List ControlAction) : List ControlFrame :=
  (sends actions).filterMap fun s => if s.1 = link then some s.2 else none

@[simp] theorem framesOn_append (link : LinkId) (a b : List ControlAction) :
    framesOn link (a ++ b) = framesOn link a ++ framesOn link b := by
  rw [framesOn, sends_append, List.filterMap_append]
  rfl

theorem mem_framesOn {link : LinkId} {actions : List ControlAction} {frame : ControlFrame} :
    frame ∈ framesOn link actions ↔ (link, frame) ∈ sends actions := by
  simp only [framesOn, List.mem_filterMap]
  constructor
  · rintro ⟨⟨l, f⟩, hs, heq⟩
    split at heq
    · rename_i hl
      have hl : l = link := hl
      cases heq
      exact hl ▸ hs
    · cases heq
  · intro hs
    exact ⟨_, hs, if_pos rfl⟩

namespace ControlPlane

/-- The frames of a list arrive on a link one after the other, the `i`-th at `clock i`. -/
def deliver (p : ControlPlane) (link : LinkId) (clock : Nat → MonoTime)
    (frames : List ControlFrame) : Option (ControlPlane × List ControlAction) :=
  p.run (frames.mapIdx fun i frame => (clock i, .frame link frame))

/-- One exchange over a link that is `la` at `a` and `lb` at `b`. -/
def exchange (a b : ControlPlane) (la lb : LinkId) (now : MonoTime) (atA atB : Nat → MonoTime) :
    Option (ControlPlane × ControlPlane) := do
  let (b, answers) ← b.handle now (.frame lb (.digest a.digest))
  let (a, updates) ← a.deliver la atA (framesOn lb answers)
  let (b, _) ← b.deliver lb atB (framesOn la updates)
  some (a, b)

theorem deliver_events {p q : ControlPlane} {link : LinkId} {clock : Nat → MonoTime}
    {frames : List ControlFrame} {acts : List ControlAction}
    (h : p.deliver link clock frames = some (q, acts)) :
    ∃ events, p.run events = some (q, acts) ∧
      (∀ x ∈ events, ∃ frame ∈ frames, x.2 = .frame link frame) ∧
      ∀ frame ∈ frames, ∃ x ∈ events, x.2 = .frame link frame := by
  refine ⟨_, h, ?_, ?_⟩
  · intro x hx
    obtain ⟨i, hi, rfl⟩ := List.mem_mapIdx.mp hx
    exact ⟨_, List.getElem_mem hi, rfl⟩
  · intro frame hframe
    obtain ⟨i, hi, rfl⟩ := List.mem_iff_getElem.mp hframe
    exact ⟨_, List.mem_mapIdx.mpr ⟨i, hi, rfl⟩, rfl⟩

/-- LSAs and requests are answered with LSAs, each from the database. -/
theorem answers_stored {q q' : ControlPlane} {link : LinkId} {now : MonoTime}
    {frame : ControlFrame} {acts : List ControlAction} (hframe : ∀ entries, frame ≠ .digest entries)
    (h : q.handle now (.frame link frame) = some (q', acts)) :
    ∀ x ∈ sends acts, ∃ o m, q'.stored o = some m ∧ x.2 = .lsa m := by
  rintro ⟨l, f⟩ hx
  cases handle_spec h with
  | lsa _ m hr =>
    cases hr with
    | ignored | full => simp at hx
    | stale =>
      obtain ⟨-, m', hm', rfl⟩ := staleReply_spec hx
      exact ⟨_, m', hm', rfl⟩
    | installed hlink _ _ hme hnew hroom hsame hsent hquiet =>
      rw [hsent] at hx
      obtain ⟨-, -, rfl⟩ := mem_floodSends.mp hx
      refine ⟨m.lsa.origin, m, ?_, rfl⟩
      rw [stored_congr hsame.lsdb]
      exact stored_insert_self _ _ now
  | digest _ entries hd => exact absurd rfl (hframe entries)
  | digestReq _ os =>
    obtain ⟨-, -, o, m, -, hm, rfl⟩ := mem_receiveDigestReq.mp hx
    exact ⟨o, m, hm, rfl⟩

/-! ## The exchange returns

The route computation counts its generations in a `u64`, and a step panics when the count
overflows. Every origin of the two nodes makes for one message of the exchange at most, so a node
handles at most one frame more than there are origins. -/

/-- How many messages a frame is answered with at most. -/
def load : ControlFrame → Nat
  | .lsa _ => 1
  | .digest _ => 0
  | .digestReq os => os.length

theorem length_framesOn_le (link : LinkId) (acts : List ControlAction) :
    (framesOn link acts).length ≤ acts.length :=
  (List.length_filterMap_le _ _).trans (List.length_filterMap_le _ _)

theorem length_staleReply_le (p : ControlPlane) (link : LinkId) (lsa : Lsa) :
    (p.staleReply link lsa).length ≤ 1 := by
  rw [staleReply]
  split
  · exact Nat.zero_le _
  · split
    · rw [Option.length_toList]
      split <;> omega
    · exact Nat.zero_le _

theorem length_receiveDigestReq_le (p : ControlPlane) (link : LinkId) (os : List NodeId) :
    (p.receiveDigestReq link os).length ≤ os.length := by
  rw [receiveDigestReq]
  split
  · exact Nat.zero_le _
  · refine (List.length_filterMap_le _ _).trans ?_
    have hsub : ∀ o ∈ (Std.ExtTreeMap.unitOfList os compare).keys, o ∈ os := by
      intro o ho
      rw [Std.ExtTreeMap.mem_keys, Std.ExtTreeMap.mem_unitOfList] at ho
      exact List.contains_iff_mem.mp ho
    exact (List.subperm_of_subset Std.ExtTreeMap.nodup_keys hsub).length_le

theorem receiveLsa_some (p : ControlPlane) (now : MonoTime) (link : LinkId) (m : LsaMessage)
    (h : p.spfGeneration < u64Max) : ∃ q acts, p.receiveLsa now link m = some (q, acts) ∧
      q.spfGeneration ≤ p.spfGeneration + 1 := by
  simp only [receiveLsa]
  split
  · exact ⟨p, [], rfl, Nat.le_succ _⟩
  · split
    · exact ⟨p, _, rfl, Nat.le_succ _⟩
    · split
      · exact ⟨p, _, rfl, Nat.le_succ _⟩
      · split
        · exact ⟨p, [], rfl, Nat.le_succ _⟩
        · rename_i installed expiry hi
          obtain ⟨rfl, -⟩ := install_spec hi
          obtain ⟨q, spf, hq, hle⟩ := markSpfDirty_some
            { p with lsdb := p.lsdb.insert m.lsa.origin (activeEntry m now) } now h
          rw [hq]
          exact ⟨q, _, rfl, hle⟩

theorem handle_frame_some {p : ControlPlane} {link : LinkId} {frame : ControlFrame}
    (now : MonoTime) (hframe : ∀ entries, frame ≠ .digest entries) (h : p.spfGeneration < u64Max) :
    ∃ q acts, p.handle now (.frame link frame) = some (q, acts) ∧
      q.spfGeneration ≤ p.spfGeneration + 1 ∧ (framesOn link acts).length ≤ load frame ∧
      ∀ reply ∈ framesOn link acts, ∀ entries, reply ≠ .digest entries := by
  have hreplies : ∀ {q : ControlPlane} {acts : List ControlAction},
      p.handle now (.frame link frame) = some (q, acts) →
      ∀ reply ∈ framesOn link acts, ∀ entries, reply ≠ .digest entries := by
    rintro q acts hq reply hreply entries rfl
    obtain ⟨o, m, -, hm⟩ := answers_stored hframe hq _ (mem_framesOn.mp hreply)
    cases hm
  cases frame with
  | digest entries => exact absurd rfl (hframe entries)
  | digestReq os =>
    exact ⟨p, _, rfl, Nat.le_succ _,
      (length_framesOn_le _ _).trans (length_receiveDigestReq_le p link os), hreplies rfl⟩
  | lsa m =>
    obtain ⟨q, acts, hreceive, hle⟩ := p.receiveLsa_some now link m h
    refine ⟨q, acts, hreceive, hle, ?_, hreplies hreceive⟩
    cases receiveLsa_spec hreceive with
    | ignored | full => exact Nat.zero_le _
    | stale => exact (length_framesOn_le _ _).trans (length_staleReply_le p link m.lsa)
    | installed hlink hvalid hver hme hnew hroom hsame hsent hquiet =>
      -- a message is not flooded back
      have hnone : framesOn link acts = [] := by
        rw [List.eq_nil_iff_forall_not_mem]
        intro frame hframe
        rw [mem_framesOn, hsent, mem_floodSends] at hframe
        exact hframe.2.1 rfl
      rw [hnone]
      exact Nat.zero_le _

theorem deliver_some (link : LinkId) : ∀ {frames : List ControlFrame} (p : ControlPlane)
    (clock : Nat → MonoTime), (∀ frame ∈ frames, ∀ entries, frame ≠ .digest entries) →
    p.spfGeneration + frames.length ≤ u64Max →
    ∃ q acts, p.deliver link clock frames = some (q, acts) ∧
      (framesOn link acts).length ≤ (frames.map load).sum ∧
      ∀ reply ∈ framesOn link acts, ∀ entries, reply ≠ .digest entries := by
  intro frames
  induction frames with
  | nil => exact fun p _ _ _ => ⟨p, [], rfl, Nat.zero_le _, by simp [framesOn]⟩
  | cons frame frames ih =>
    intro p clock hframes hgen
    rw [List.length_cons] at hgen
    obtain ⟨q, acts, hq, hle, hload, hreply⟩ := handle_frame_some (p := p) (clock 0)
      (hframes frame List.mem_cons_self) (by omega)
    obtain ⟨r, rest, hr, hload', hreply'⟩ := ih q (fun i => clock (i + 1)) (fun f hf =>
      hframes f (List.mem_cons_of_mem _ hf)) (by omega)
    refine ⟨r, acts ++ rest, ?_, ?_, ?_⟩
    · rw [deliver, List.mapIdx_cons]
      exact emitAll_cons_some hq hr
    · rw [framesOn_append, List.length_append, List.map_cons, List.sum_cons]
      exact Nat.add_le_add hload hload'
    · intro reply hmem
      rw [framesOn_append, List.mem_append] at hmem
      exact hmem.elim (hreply reply) (hreply' reply)

/-- An origin is requested or answered, never both. -/
theorem compareOrigin_some {p : ControlPlane} {remote : OrdMap NodeId Version} {o : NodeId}
    (link : LinkId) (h : o ∈ p.lsdb ∨ o ∈ remote) :
    ∃ req acts, p.compareOrigin link remote o = some (req, acts) ∧
      req.length + acts.length ≤ 1 := by
  have hrel : ∃ rel, compareVersions (p.lsdb[o]?.map LsdbEntry.version) remote[o]? = some rel := by
    cases hl : p.lsdb[o]? with
    | none =>
      cases hr : remote[o]? with
      | none =>
        rcases h with h | h
        · obtain ⟨e, he⟩ := OrdMap.mem_iff_get.mp h
          rw [hl] at he
          cases he
        · obtain ⟨v, hv⟩ := OrdMap.mem_iff_get.mp h
          rw [hr] at hv
          cases hv
      | some v => exact ⟨_, rfl⟩
    | some e =>
      cases hr : remote[o]? with
      | none => exact ⟨_, rfl⟩
      | some v =>
        simp only [Option.map_some, compareVersions]
        split
        · exact ⟨_, rfl⟩
        · split <;> exact ⟨_, rfl⟩
  obtain ⟨rel, hrel⟩ := hrel
  simp only [compareOrigin, bind, hrel, Option.bind_some]
  cases rel with
  | remoteOnly | remoteNewer =>
    refine ⟨_, _, rfl, ?_⟩
    split <;> simp
  | localOnly | localNewer =>
    refine ⟨_, _, rfl, ?_⟩
    rw [List.length_nil, Nat.zero_add, Option.length_toList]
    split <;> omega
  | sameVersion => exact ⟨[], [], rfl, Nat.zero_le _⟩

theorem length_flatMap_add_le {compared : List (List NodeId × List ControlAction)}
    (h : ∀ r ∈ compared, r.1.length + r.2.length ≤ 1) :
    (compared.flatMap Prod.fst).length + (compared.flatMap Prod.snd).length ≤ compared.length := by
  induction compared with
  | nil => exact le_rfl
  | cons r compared ih =>
    have hr := h r List.mem_cons_self
    have hrest := ih fun x hx => h x (List.mem_cons_of_mem _ hx)
    simp only [List.flatMap_cons, List.length_append, List.length_cons]
    omega

/-- The origins a digest is compared on: those of the database and those of the digest. -/
theorem mem_comparedOrigins {p : ControlPlane} {entries : List DigestEntry} {o : NodeId} :
    o ∈ (Std.ExtTreeMap.unitOfList (p.lsdb.keys ++ (remoteVersions entries).keys) compare).keys ↔
      o ∈ p.lsdb ∨ o ∈ remoteVersions entries := by
  rw [Std.ExtTreeMap.mem_keys, Std.ExtTreeMap.mem_unitOfList]
  simp

/-- No origin is compared that neither side knows. -/
theorem compared_some (p : ControlPlane) (link : LinkId) (entries : List DigestEntry) :
    ∃ compared, (Std.ExtTreeMap.unitOfList (p.lsdb.keys ++ (remoteVersions entries).keys)
      compare).keys.mapM (p.compareOrigin link (remoteVersions entries)) = some compared := by
  refine mapM_some fun o ho => ?_
  obtain ⟨req, acts, heq, -⟩ := compareOrigin_some link (mem_comparedOrigins.mp ho)
  exact ⟨_, heq⟩

/-- The comparison of the digest of `a` with the database of `b` makes for one request or one
answer for each origin at most. -/
theorem comparisons_some (a b : ControlPlane) (link : LinkId) :
    ∃ compared, (Std.ExtTreeMap.unitOfList (b.lsdb.keys ++ (remoteVersions a.digest).keys)
        compare).keys.mapM (b.compareOrigin link (remoteVersions a.digest)) = some compared ∧
      (compared.flatMap Prod.fst).length + (compared.flatMap Prod.snd).length ≤
        (a.lsdb.keys ++ b.lsdb.keys).toFinset.card ∧
      ∀ action ∈ compared.flatMap Prod.snd, ∃ m, action = sendLsa link m := by
  obtain ⟨compared, hcompared⟩ := b.compared_some link a.digest
  have hmem := @mem_comparedOrigins b a.digest
  refine ⟨compared, hcompared, ?_⟩
  generalize horigins : (Std.ExtTreeMap.unitOfList
    (b.lsdb.keys ++ (remoteVersions a.digest).keys) compare).keys = origins at hcompared hmem
  have hdigest : ∀ o, o ∈ remoteVersions a.digest ↔ o ∈ a.lsdb := by
    intro o
    rw [OrdMap.mem_iff_get, OrdMap.mem_iff_get, remoteVersions_digest]
    simp
  have hcard : origins.length = (a.lsdb.keys ++ b.lsdb.keys).toFinset.card := by
    have hnodup : origins.Nodup := by
      rw [← horigins]
      exact Std.ExtTreeMap.nodup_keys
    rw [← List.toFinset_card_of_nodup hnodup]
    congr 1
    ext o
    rw [List.mem_toFinset, hmem, hdigest, List.mem_toFinset, List.mem_append,
      Std.ExtTreeMap.mem_keys, Std.ExtTreeMap.mem_keys, or_comm]
  refine ⟨?_, ?_⟩
  · have hlength := congrArg List.length (map_eq_of_mapM hcompared)
    rw [List.length_map, List.length_map] at hlength
    rw [← hcard, hlength]
    refine length_flatMap_add_le fun r hr => ?_
    obtain ⟨o, ho, heq⟩ := (mem_of_mapM hcompared).mp hr
    obtain ⟨req, acts, heq', hle⟩ := compareOrigin_some link (hmem.mp ho)
    rw [heq] at heq'
    cases heq'
    exact hle
  · intro action haction
    obtain ⟨r, hr, haction⟩ := List.mem_flatMap.mp haction
    obtain ⟨o, -, heq⟩ := (mem_of_mapM hcompared).mp hr
    obtain ⟨m, -, hsend⟩ := (compareOrigin_spec heq).2.2.1 _ haction
    exact ⟨m, hsend⟩

theorem framesOn_sendLsa {link : LinkId} : ∀ {acts : List ControlAction},
    (∀ action ∈ acts, ∃ m, action = sendLsa link m) →
    ((framesOn link acts).map load).sum = acts.length ∧
      ∀ frame ∈ framesOn link acts, ∃ m, frame = .lsa m := by
  intro acts
  induction acts with
  | nil => exact fun _ => ⟨rfl, by simp [framesOn]⟩
  | cons action acts ih =>
    intro h
    obtain ⟨m, rfl⟩ := h action List.mem_cons_self
    obtain ⟨hsum, hlsa⟩ := ih fun x hx => h x (List.mem_cons_of_mem _ hx)
    have hcons : framesOn link (sendLsa link m :: acts) = .lsa m :: framesOn link acts := by
      rw [framesOn, sendLsa, sends_cons_send, List.filterMap_cons, if_pos rfl]
      rfl
    rw [hcons]
    refine ⟨?_, ?_⟩
    · rw [List.map_cons, List.sum_cons, hsum, List.length_cons, load, Nat.add_comm]
    · intro frame hframe
      rcases List.mem_cons.mp hframe with rfl | hframe
      · exact ⟨m, rfl⟩
      · exact hlsa frame hframe

/-- The digest of `a` makes `b` send one frame more than there are origins at most, and be answered
with one message for each origin at most. -/
theorem receiveDigest_some (a b : ControlPlane) (link : LinkId) :
    ∃ acts, b.receiveDigest link a.digest = some acts ∧
      ((framesOn link acts).map load).sum ≤ (a.lsdb.keys ++ b.lsdb.keys).toFinset.card ∧
      (framesOn link acts).length ≤ (a.lsdb.keys ++ b.lsdb.keys).toFinset.card + 1 ∧
      ∀ frame ∈ framesOn link acts, ∀ entries, frame ≠ .digest entries := by
  simp only [receiveDigest]
  split
  · exact ⟨[], rfl, Nat.zero_le _, Nat.zero_le _, by simp [framesOn]⟩
  · obtain ⟨compared, hcompared, hle, hanswers⟩ := comparisons_some a b link
    simp only [bind, hcompared, Option.bind_some]
    refine ⟨_, rfl, ?_⟩
    obtain ⟨hsum, hlsa⟩ := framesOn_sendLsa hanswers
    have hlength := length_framesOn_le link (compared.flatMap Prod.snd)
    have hquiet : ∀ frame ∈ framesOn link (compared.flatMap Prod.snd), ∀ entries,
        frame ≠ .digest entries := by
      rintro frame hframe entries rfl
      obtain ⟨m, hm⟩ := hlsa _ hframe
      cases hm
    split
    · rw [List.append_nil]
      exact ⟨by omega, by omega, hquiet⟩
    · have hreq : framesOn link [.send link (.digestReq (compared.flatMap Prod.fst))] =
          [.digestReq (compared.flatMap Prod.fst)] := by
        simp [framesOn]
      rw [framesOn_append, hreq, List.map_append, List.sum_append, List.length_append]
      refine ⟨?_, ?_, ?_⟩
      · rw [hsum]
        simp only [List.map_cons, List.map_nil, List.sum_cons, List.sum_nil, load]
        omega
      · simp only [List.length_cons, List.length_nil]
        omega
      · intro frame hframe entries
        rcases List.mem_append.mp hframe with hframe | hframe
        · exact hquiet frame hframe entries
        · rw [List.mem_singleton.mp hframe]
          exact ControlFrame.noConfusion

theorem exchange_some {a b : ControlPlane} {la lb : LinkId} (now : MonoTime)
    (atA atB : Nat → MonoTime)
    (hroom : (a.lsdb.keys ++ b.lsdb.keys).toFinset.card ≤ maxLsdbEntries)
    (ha : a.spfGeneration + maxLsdbEntries < u64Max)
    (hb : b.spfGeneration + maxLsdbEntries < u64Max) :
    ∃ r, a.exchange b la lb now atA atB = some r := by
  obtain ⟨answers, hanswers, hload, hlength, hquiet⟩ := receiveDigest_some a b lb
  obtain ⟨a', updates, ha', hupdates, hquiet'⟩ := deliver_some la a atA hquiet (by omega)
  obtain ⟨b', out, hb', -⟩ := deliver_some lb b atB hquiet' (by omega)
  refine ⟨(a', b'), ?_⟩
  simp only [exchange, handle, bind, hanswers, Option.bind_some, ha', hb']

end ControlPlane
end Control
end MeshBus
