import MeshBus.Control.Own
import MeshBus.Control.Regular
import MeshBus.Control.Total

/-!
# Control.Limits

The node's own LSA against the limits a receiver checks. It is always the LSA that the links and
topic ads of the node give (`Describes`). Its topic ads were checked when they were announced and
its lifetime is fixed, but nothing bounds the number of peers.

* `validLsa_localLsa`: the LSA a node builds is valid iff it has at most `maxLsaAdjacencies` peers.
* `own_lsa_valid`: as long as no link is added that makes for more, all own LSAs are accepted.
* `crowded_lsa_invalid`: a node with one peer more stores and floods an LSA its peers drop.
-/

namespace MeshBus
namespace Control
namespace ControlPlane

variable {p q : ControlPlane} {now : MonoTime} {acts : List ControlAction} {event : ControlEvent}
  {verifier : LsaMessage → Bool}

/-- The node's own LSA is the one that its links and topic ads give. -/
def Describes (p : ControlPlane) : Prop :=
  ∀ m, p.stored p.me = some m → m.lsa = p.localLsa p.mySeq

theorem Describes.congr (hp : Describes p) (h : SameButSpf p q) : Describes q := by
  intro m hm
  rw [stored_congr h.lsdb, h.me] at hm
  rw [h.mySeq, h.localLsa]
  exact hp m hm

theorem Originates.describes (h : Originates p now q acts) (hs : ∀ lsa, (p.signer lsa).lsa = lsa) :
    Describes q := by
  refine Describes.congr ?_ h.same
  intro m hm
  have hlsa : p.nextMessage.lsa = p.localLsa (p.mySeq + 1) := hs _
  have horigin : p.nextMessage.lsa.origin = p.me := by
    rw [hlsa]
    rfl
  have hstored : (p.originated now).stored p.nextMessage.lsa.origin = some p.nextMessage :=
    stored_insert_self _ _ now
  rw [horigin] at hstored
  cases hstored.symm.trans hm
  exact hlsa

theorem Describes.step (hp : Describes p) (hs : ∀ lsa, (p.signer lsa).lsa = lsa)
    (h : Effect p now event q acts) : Describes q := by
  cases h with
  | reply same quiet => exact hp.congr same
  | originate mid prepared ho quiet => exact ho.describes (prepared.signer ▸ hs)
  | install link m received foreign newer room same quiet =>
    refine Describes.congr ?_ same
    intro m' hm'
    rw [stored, OrdMap.get_insert, if_neg foreign] at hm'
    exact hp m' hm'
  | expire origin entry current expiry same quiet =>
    refine Describes.congr ?_ same
    intro m hm
    rw [stored, OrdMap.get_insert] at hm
    split at hm
    · simp [LsdbEntry.active] at hm
    · exact hp m hm

/-- The peers at the end of some links. -/
def peersOf (adjacencies : OrdMap LinkId LocalAdjacency) : Finset NodeId :=
  (adjacencies.toList.map fun e => e.2.peer).toFinset

theorem mem_bestByPeer {p : ControlPlane} {peer : NodeId} :
    peer ∈ p.bestByPeer ↔ peer ∈ peersOf p.adjacencies := by
  have hbest := bestOf_spec p.adjacencies.toList peer
  rw [OrdMap.mem_iff_get, bestByPeer, peersOf, List.mem_toFinset, List.mem_map]
  split at hbest
  · rename_i hnone
    rw [hnone]
    simp only [reduceCtorEq, exists_false, false_iff]
    rintro ⟨e, he, rfl⟩
    have hcost : e.2.cost ∈ costsTo p.adjacencies.toList e.2.peer := ⟨e, he, rfl, rfl⟩
    rw [hbest] at hcost
    exact hcost
  · rename_i cost hsome
    obtain ⟨e, he, hpeer, -⟩ := hbest.1
    exact ⟨fun _ => ⟨e, he, hpeer⟩, fun _ => ⟨cost, hsome⟩⟩

theorem length_localLsa_adjacencies (p : ControlPlane) (seq : UInt64) :
    (p.localLsa seq).adjacencies.length = (peersOf p.adjacencies).card := by
  have hkeys : p.bestByPeer.keys.toFinset = peersOf p.adjacencies := by
    ext peer
    rw [List.mem_toFinset, Std.ExtTreeMap.mem_keys, mem_bestByPeer]
  rw [localLsa, List.length_map, Std.ExtTreeMap.length_toList, ← OrdMap.card_keys, hkeys]

theorem validLsa_localLsa {p : ControlPlane} (hads : validTopicAds p.localTopicAds = true)
    (seq : UInt64) :
    validLsa (p.localLsa seq) = true ↔ (peersOf p.adjacencies).card ≤ maxLsaAdjacencies := by
  have hlow : (1 ≤ (p.localLsa seq).ttlSec) = (1 ≤ defaultLsaTtlSec) := rfl
  have hhigh : ((p.localLsa seq).ttlSec ≤ maxLsaTtlSec) = (defaultLsaTtlSec ≤ maxLsaTtlSec) := rfl
  have htopics : (p.localLsa seq).topics = p.localTopicAds := rfl
  rw [validLsa, htopics, hads, length_localLsa_adjacencies]
  simp only [hlow, hhigh, Bool.and_eq_true, decide_eq_true_eq, and_true]
  exact and_iff_right (by decide)

/-- A link that comes up leaves no more peers than an LSA may list. -/
def FewPeers (p : ControlPlane) : ControlEvent → Prop
  | .linkUp link peer cost =>
    (peersOf (p.adjacencies.insert link ⟨peer, cost⟩)).card ≤ maxLsaAdjacencies
  | _ => True

instance (p : ControlPlane) (event : ControlEvent) : Decidable (FewPeers p event) :=
  match event with
  | .linkUp link peer cost => inferInstanceAs (Decidable
      ((peersOf (p.adjacencies.insert link ⟨peer, cost⟩)).card ≤ maxLsaAdjacencies))
  | .linkDown _ | .localTopicAdsChanged _ | .frame _ _ | .timer _ => .isTrue trivial

/-- What a node keeps whose links lead to few peers. -/
structure Fits (verifier : LsaMessage → Bool) (p : ControlPlane) : Prop where
  regular : Regular verifier p
  describes : Describes p
  ads : validTopicAds p.localTopicAds = true
  peers : (peersOf p.adjacencies).card ≤ maxLsaAdjacencies

theorem Fits.valid {p : ControlPlane} (h : Fits verifier p) {m : LsaMessage}
    (hm : p.stored p.me = some m) : validLsa m.lsa = true := by
  rw [h.describes m hm]
  exact (validLsa_localLsa h.ads p.mySeq).mpr h.peers

theorem peersOf_erase_subset (adjacencies : OrdMap LinkId LocalAdjacency) (link : LinkId) :
    peersOf (adjacencies.erase link) ⊆ peersOf adjacencies := by
  intro peer hpeer
  simp only [peersOf, List.mem_toFinset, List.mem_map] at hpeer ⊢
  obtain ⟨⟨l, adj⟩, he, rfl⟩ := hpeer
  rw [OrdMap.mem_toList, OrdMap.get_erase] at he
  split at he
  · cases he
  · exact ⟨(l, adj), OrdMap.mem_toList.mpr he, rfl⟩

theorem validTopicAds_step (hads : validTopicAds p.localTopicAds = true)
    (h : Outcome p now event q acts) : validTopicAds q.localTopicAds = true := by
  rcases h.localTopicAds with hsame | ⟨ads, -, hq, hvalid⟩
  · rw [hsame]
    exact hads
  · rw [hq]
    exact hvalid

theorem Fits.step (hp : Fits verifier p) (hfew : FewPeers p event)
    (h : p.handle now event = some (q, acts)) : Fits verifier q := by
  have hout := handle_spec h
  refine ⟨hp.regular.step h, hp.describes.step hp.regular.signs.lsa hout.effect,
    validTopicAds_step hp.ads hout, ?_⟩
  rw [handle_adjacencies h]
  cases event with
  | linkUp link peer cost => exact hfew
  | linkDown link =>
    exact (Finset.card_le_card (peersOf_erase_subset p.adjacencies link)).trans hp.peers
  | localTopicAdsChanged _ | frame _ _ | timer _ => exact hp.peers

/-- The LSAs of its own that a node sends are valid. -/
theorem Fits.sent (hq : Fits verifier q) (h : p.handle now event = some (q, acts)) {link : LinkId}
    {m : LsaMessage} (hsent : .send link (.lsa m) ∈ acts) (horigin : m.lsa.origin = q.me) :
    validLsa m.lsa = true := by
  cases (handle_spec h).frames (mem_sends.mpr hsent) with
  | lsa hstored =>
    obtain ⟨e, active, he, hactive, rfl⟩ := stored_eq_some.mp hstored
    obtain ⟨hplaced, -⟩ := hq.regular.placed _ e active he hactive
    rw [← hplaced, horigin] at hstored
    exact hq.valid hstored

/-- A valid LSA is taken by a neighbour that has room for it, unless the neighbour has that version
or a later one. -/
theorem receiveLsa_accepts {b b' : ControlPlane} {link : LinkId} {m : LsaMessage}
    (hvalid : validLsa m.lsa = true) (hlink : link ∈ b.adjacencies)
    (hverified : b.verifier m = true) (hforeign : m.lsa.origin ≠ b.me)
    (hroom : m.lsa.origin ∈ b.lsdb ∨ b.lsdb.size < maxLsdbEntries)
    (h : b.receiveLsa now link m = some (b', acts)) :
    ∃ e : LsdbEntry, b'.lsdb[m.lsa.origin]? = some e ∧ lsaVersion m.lsa ≤ e.version := by
  cases receiveLsa_spec h with
  | ignored hign => simp [hlink, hvalid, hverified] at hign
  | full hfull =>
    rcases hroom with hroom | hroom
    · exact absurd hroom hfull.1
    · exact absurd hfull.2 (Nat.not_le.mpr hroom)
  | stale hstale => exact hstale.resolve_left hforeign
  | installed _ _ _ _ _ _ hsame _ _ =>
    refine ⟨activeEntry m now, ?_, le_rfl⟩
    rw [hsame.lsdb, OrdMap.get_insert, if_pos rfl]

theorem fits_new {signer : Lsa → LsaMessage} (hsigns : Signs signer verifier) (me : NodeId)
    (epoch : UInt32) (lastSeq : UInt64) :
    Fits verifier (withAuthAndSeq me epoch lastSeq signer verifier) := by
  have hstart : (withAuthAndSeq me epoch lastSeq signer verifier).run [] =
      some (withAuthAndSeq me epoch lastSeq signer verifier, []) := rfl
  refine ⟨Reached.regular ⟨me, epoch, lastSeq, signer, [], [], hsigns, hstart⟩, ?_,
    (by decide +kernel : validTopicAds [] = true), ?_⟩
  · intro m hm
    simp [withAuthAndSeq, stored] at hm
  · have hnone : (∅ : OrdMap LinkId LocalAdjacency).toList = [] :=
      Std.ExtTreeMap.toList_eq_nil_iff.mpr rfl
    simp [withAuthAndSeq, peersOf, hnone]

/-- In a run that never adds a link to more than `maxLsaAdjacencies` peers, every LSA of its own
that a node stores or sends is valid, so every neighbour with room for it ends with that version or
a later one. The link that makes for one peer more makes the node's LSA invalid. -/
theorem own_lsa_valid {signer : Lsa → LsaMessage} {verifier : LsaMessage → Bool} {me : NodeId}
    {epoch : UInt32} {lastSeq : UInt64} {events : List (MonoTime × ControlEvent)}
    {q : ControlPlane} {acts : List ControlAction} (hsigns : Signs signer verifier)
    (hfew : Along (fun plane e => plane.handle e.1 e.2) (fun plane e => FewPeers plane e.2)
      (withAuthAndSeq me epoch lastSeq signer verifier) events)
    (hrun : (withAuthAndSeq me epoch lastSeq signer verifier).run events = some (q, acts)) :
    (∀ m, q.stored me = some m → validLsa m.lsa = true ∧
      ∀ (b b' : ControlPlane) (link : LinkId) (now : MonoTime) (acts' : List ControlAction),
        link ∈ b.adjacencies → b.verifier = verifier → me ≠ b.me →
        (me ∈ b.lsdb ∨ b.lsdb.size < maxLsdbEntries) →
        b.handle now (.frame link (.lsa m)) = some (b', acts') →
        ∃ e : LsdbEntry, b'.lsdb[me]? = some e ∧ lsaVersion m.lsa ≤ e.version) ∧
    (∀ link m, .send link (.lsa m) ∈ acts → m.lsa.origin = me → validLsa m.lsa = true) ∧
    ∀ now event r acts', q.handle now event = some (r, acts') → ¬ FewPeers q event →
      ∃ m, r.stored me = some m ∧ validLsa m.lsa = false := by
  have hboth := Along.out
    (Q := fun p => Fits verifier p ∧ p.me = me)
    (R := fun a => ∀ link m, a = .send link (.lsa m) → m.lsa.origin = me → validLsa m.lsa = true)
    (by
      rintro p x p' out ⟨hp, hme⟩ hx hstep
      have hp' := hp.step hx hstep
      have hme' : p'.me = me := (handle_spec hstep).effect.same.me.trans hme
      refine ⟨⟨hp', hme'⟩, ?_⟩
      rintro a ha link m rfl horigin
      exact hp'.sent hstep ha (horigin.trans hme'.symm))
    hfew ⟨fits_new hsigns me epoch lastSeq, rfl⟩ hrun
  obtain ⟨⟨hq, hme⟩, hsent⟩ := hboth
  subst hme
  refine ⟨?_, fun link m hmem => hsent _ hmem link m rfl, ?_⟩
  · intro m hm
    have hvalid := hq.valid hm
    have horigin : m.lsa.origin = q.me := by
      rw [hq.describes m hm]
      rfl
    refine ⟨hvalid, ?_⟩
    intro b b' link now acts' hlink hverifier hne hroom hhandle
    rw [← horigin] at hne hroom ⊢
    refine receiveLsa_accepts hvalid hlink ?_ hne hroom hhandle
    rw [hverifier]
    exact hq.regular.accepted _ m hm
  · intro now event r acts' hhandle hmany
    have hout := handle_spec hhandle
    have hdescribes := hq.describes.step hq.regular.signs.lsa hout.effect
    have hads := validTopicAds_step hq.ads hout
    have hme := hout.effect.same.me
    have hadj := handle_adjacencies hhandle
    cases event with
    | linkUp link peer cost =>
      cases hout with
      | linkUp _ _ _ ho =>
        have hstored := ho.stored
        have horigin : (ControlPlane.nextMessage { q with
            adjacencies := q.adjacencies.insert link ⟨peer, cost⟩ }).lsa.origin = q.me := by
          rw [nextMessage, hq.regular.signs.lsa]
          rfl
        rw [horigin] at hstored
        refine ⟨_, hstored, ?_⟩
        rw [hdescribes _ (hme ▸ hstored), ← Bool.not_eq_true, validLsa_localLsa hads, hadj]
        exact hmany
    | linkDown _ | localTopicAdsChanged _ | frame _ _ | timer _ => exact absurd trivial hmany

theorem own_lsa_valid_one_link :
    ∃ q acts m, (withAuthAndSeq (.ofByte 1) 1 0 unsecuredSign unsecuredVerify).run
        [(0, .linkUp 7 (.ofByte 2) ⟨1, by decide, by decide⟩)] = some (q, acts) ∧
      q.stored (.ofByte 1) = some m ∧ validLsa m.lsa = true := by
  have hfacts : ((withAuthAndSeq (.ofByte 1) 1 0 unsecuredSign unsecuredVerify).run
      [(0, .linkUp 7 (.ofByte 2) ⟨1, by decide, by decide⟩)]).map
        (fun r => decide ((r.1.stored (.ofByte 1)).isSome = true)) = some true := by
    decide +kernel
  obtain ⟨⟨q, acts⟩, hrun, hdec⟩ := Option.map_eq_some_iff.mp hfacts
  obtain ⟨m, hm⟩ := Option.isSome_iff_exists.mp (of_decide_eq_true hdec)
  exact ⟨q, acts, m, hrun, hm,
    ((own_lsa_valid ⟨fun _ => rfl, fun _ => rfl⟩ (by decide +kernel) hrun).1 m hm).1⟩

/-! ## One peer too many -/

/-- The `i`-th of many peers. -/
def crowdPeer (i : Nat) : NodeId :=
  ⟨List.replicate 30 0 ++ [UInt8.ofNat (i / 256), UInt8.ofNat i], by simp⟩

theorem crowdPeer_injOn : Set.InjOn crowdPeer {i | i < 65536} := by
  intro i hi j hj h
  have hbytes : [UInt8.ofNat (i / 256), UInt8.ofNat i] = [UInt8.ofNat (j / 256), UInt8.ofNat j] :=
    List.append_cancel_left (congrArg NodeId.bytes h)
  simp only [List.cons.injEq, and_true] at hbytes
  have hhigh := congrArg UInt8.toNat hbytes.1
  have hlow := congrArg UInt8.toNat hbytes.2
  simp only [UInt8.toNat_ofNat'] at hhigh hlow
  have hi : i < 65536 := hi
  have hj : j < 65536 := hj
  omega

/-- A link to each of the first `n` peers comes up. -/
def crowd (n : Nat) : List (MonoTime × ControlEvent) :=
  (List.range n).map fun i => (0, .linkUp i (crowdPeer i) unitCost)

theorem originateLsa_generation (h : p.originateLsa now = some (q, acts)) :
    q.spfGeneration ≤ p.spfGeneration + 1 := by
  obtain ⟨-, -, spf, hd, -⟩ := originateLsa_inv h
  exact markSpfDirty_generation (p := p.originated now) hd

/-- What `n` links that came up leave. -/
structure Crowded (n : Nat) (q : ControlPlane) (acts : List ControlAction) : Prop where
  bounded : Bounded q
  me : q.me = .ofByte 1
  seq : q.mySeq.toNat = n
  generation : q.spfGeneration ≤ n
  links : ∀ i < n, q.adjacencies[i]? = some ⟨crowdPeer i, unitCost⟩
  sent : 0 < n → ∃ link m, q.stored q.me = some m ∧ .send link (.lsa m) ∈ acts

theorem crowd_run {n : Nat} (hn : n < 65536) :
    ∃ q acts, (newUnsecuredWithSeq (.ofByte 1) 1 0).run (crowd n) = some (q, acts) ∧
      Crowded n q acts := by
  induction n with
  | zero =>
    refine ⟨_, _, rfl, bounded_new _ _ _, rfl, rfl, Nat.zero_le _, ?_, ?_⟩
    · exact fun i hi => absurd hi (Nat.not_lt_zero i)
    · exact fun h => absurd h (Nat.lt_irrefl 0)
  | succ n ih =>
    obtain ⟨p, acts, hrun, hp⟩ := ih (by omega)
    have hlimit : n < u64Max := by
      have : (65536 : Nat) ≤ u64Max := by decide
      omega
    obtain ⟨⟨q, acts'⟩, ho⟩ := hp.bounded.originate
      { p with adjacencies := p.adjacencies.insert n ⟨crowdPeer n, unitCost⟩ }
      ⟨rfl, rfl, rfl, rfl, rfl, rfl⟩ rfl (by rw [hp.seq]; omega)
      (lt_of_le_of_lt hp.generation hlimit) 0
    have hO := originateLsa_spec ho
    have hstep : p.handle 0 (.linkUp n (crowdPeer n) unitCost) =
        some (q, acts' ++ [q.sendDigest n, nextDigestTimer 0 n]) := by
      simp only [handle, ho, bind, Option.bind_some]
    have hone : p.run [(0, .linkUp n (crowdPeer n) unitCost)] =
        some (q, acts' ++ [q.sendDigest n, nextDigestTimer 0 n] ++ []) :=
      emitAll_cons_some hstep rfl
    refine ⟨q, acts ++ (acts' ++ [q.sendDigest n, nextDigestTimer 0 n] ++ []), ?_,
      hp.bounded.step hstep, hO.same.me.trans hp.me, ?_, ?_, ?_, ?_⟩
    · rw [crowd, List.range_succ, List.map_append]
      exact emitAll_append_some hrun hone
    · have hseq : q.mySeq = p.mySeq + 1 := hO.same.mySeq
      have h1 : (1 : UInt64).toNat = 1 := rfl
      rw [hseq, UInt64.toNat_add, hp.seq]
      omega
    · exact (originateLsa_generation ho).trans (Nat.succ_le_succ hp.generation)
    · intro i hi
      rw [hO.same.adjacencies]
      change (p.adjacencies.insert n ⟨crowdPeer n, unitCost⟩)[i]? = _
      rw [OrdMap.get_insert]
      split
      · rename_i heq
        rw [heq]
      · exact hp.links i (by omega)
    · intro _
      refine ⟨n, _, hO.stored_me hp.bounded.own.signer, ?_⟩
      have hmem : (n, ControlFrame.lsa (ControlPlane.nextMessage
          { p with adjacencies := p.adjacencies.insert n ⟨crowdPeer n, unitCost⟩ })) ∈
          sends acts' := by
        rw [hO.sent]
        exact mem_floodSends.mpr ⟨Std.ExtTreeMap.mem_insert_self, by simp, rfl⟩
      simp only [List.mem_append]
      exact .inr (.inl (.inl (mem_sends.mp hmem)))

/-- A node with one peer more than an LSA may list stores an LSA and sends it, and every neighbour
drops it without a word. -/
theorem crowded_lsa_invalid :
    ∃ q acts link m, (newUnsecuredWithSeq (.ofByte 1) 1 0).run (crowd (maxLsaAdjacencies + 1)) =
        some (q, acts) ∧ q.stored (.ofByte 1) = some m ∧ m.lsa.origin = .ofByte 1 ∧
      .send link (.lsa m) ∈ acts ∧ validLsa m.lsa = false ∧
      ∀ (b : ControlPlane) (l : LinkId) (now : MonoTime),
        b.handle now (.frame l (.lsa m)) = some (b, []) := by
  have hn : maxLsaAdjacencies + 1 < 65536 := by decide
  obtain ⟨q, acts, hrun, hq⟩ := crowd_run hn
  obtain ⟨link, m, hm, hsent⟩ := hq.sent (Nat.succ_pos _)
  have hmessage := hq.bounded.own.message m hm
  have hpeers : maxLsaAdjacencies + 1 ≤ (peersOf q.adjacencies).card := by
    rw [← Finset.card_range (maxLsaAdjacencies + 1)]
    refine Finset.card_le_card_of_injOn crowdPeer ?_ ?_
    · intro i hi
      rw [Finset.mem_coe, peersOf, List.mem_toFinset, List.mem_map]
      exact ⟨(i, ⟨crowdPeer i, unitCost⟩),
        OrdMap.mem_toList.mpr (hq.links i (Finset.mem_range.mp hi)), rfl⟩
    · refine crowdPeer_injOn.mono ?_
      intro i hi
      exact (Finset.mem_range.mp hi).trans hn
  have hinvalid : validLsa m.lsa = false := by
    have hlength : ¬ m.lsa.adjacencies.length ≤ maxLsaAdjacencies := by
      rw [hmessage]
      change ¬ (q.localLsa q.mySeq).adjacencies.length ≤ _
      rw [length_localLsa_adjacencies]
      omega
    simp [validLsa, hlength]
  refine ⟨q, acts, link, m, hrun, hq.me ▸ hm, ?_, hsent, hinvalid, ?_⟩
  · rw [hmessage, ← hq.me]
    rfl
  · intro b l now
    simp [handle, receiveLsa, hinvalid]

end ControlPlane
end Control
end MeshBus
