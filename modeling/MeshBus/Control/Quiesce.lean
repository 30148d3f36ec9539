import MeshBus.Control.Mesh
import MeshBus.Lib.Quiesce

/-!
# Control.Quiesce

Flooding comes to rest: without timers, link events and local events, a finite network delivers
finitely many frames, from whatever its nodes hold and whatever is in flight.

Delivering a frame makes no new LSA, so the LSAs that are stored or in flight at the start are all
there ever are (`InPlay`). A node that takes one up uses up some of its potential, the number of
them that would still be newer than what it holds. In all other cases the database stays and a
frame is answered by frames that rank below it: a digest by a request and LSAs, a request by LSAs,
and a stale LSA by a newer one of the same origin.
-/

namespace MeshBus
namespace Control

open ControlPlane

/-- How many of the messages have a later version. -/
def later (S : Finset LsaMessage) (m : LsaMessage) : ℕ :=
  (S.filter fun m' => m'.lsa.origin = m.lsa.origin ∧ lsaVersion m.lsa < lsaVersion m'.lsa).card

/-- The rank of a frame, when `S` are the messages there are. -/
def rank (S : Finset LsaMessage) : ControlFrame → ℕ
  | .lsa m => later S m
  | .digestReq _ => S.card + 1
  | .digest _ => S.card + 2

theorem rank_lsa_le (S : Finset LsaMessage) (m : LsaMessage) : rank S (.lsa m) ≤ S.card :=
  Finset.card_filter_le _ _

theorem rank_lsa_lt {S : Finset LsaMessage} {m m' : LsaMessage} (hm' : m' ∈ S)
    (horigin : m'.lsa.origin = m.lsa.origin) (hlt : lsaVersion m.lsa < lsaVersion m'.lsa) :
    rank S (.lsa m') < rank S (.lsa m) := by
  refine Finset.card_lt_card ⟨?_, ?_⟩
  · intro x hx
    obtain ⟨hx, hox, hvx⟩ := Finset.mem_filter.mp hx
    exact Finset.mem_filter.mpr ⟨hx, hox.trans horigin, hlt.trans hvx⟩
  · intro hsub
    have hself := hsub (Finset.mem_filter.mpr ⟨hm', horigin, hlt⟩)
    exact lt_irrefl _ (Finset.mem_filter.mp hself).2.2

/-- How many of the messages a node would take for newer than what it holds. -/
def appetite (S : Finset LsaMessage) (p : ControlPlane) : ℕ :=
  (S.filter fun m => p.isNewer m.lsa = true).card

theorem appetite_congr (S : Finset LsaMessage) {p q : ControlPlane} (h : q.lsdb = p.lsdb) :
    appetite S q = appetite S p := by
  have hnewer : ∀ lsa, q.isNewer lsa = p.isNewer lsa := by
    intro lsa
    rw [isNewer, isNewer, h]
  simp only [appetite, hnewer]

theorem appetite_lt {S : Finset LsaMessage} {p q : ControlPlane} (hgrows : Grows p q)
    {m : LsaMessage} (hm : m ∈ S) (hnew : p.isNewer m.lsa = true) (hold : q.isNewer m.lsa = false) :
    appetite S q < appetite S p := by
  refine Finset.card_lt_card ⟨?_, ?_⟩
  · intro x hx
    obtain ⟨hx, hnewer⟩ := Finset.mem_filter.mp hx
    refine Finset.mem_filter.mpr ⟨hx, isNewer_iff.mpr fun e he => ?_⟩
    obtain ⟨e', he', hle⟩ := hgrows _ e he
    exact hle.trans_lt (isNewer_iff.mp hnewer e' he')
  · intro hsub
    have hself := (Finset.mem_filter.mp (hsub (Finset.mem_filter.mpr ⟨hm, hnew⟩))).2
    rw [hold] at hself
    cases hself

/-! ## One node -/

/-- The messages a node holds are among those there are, each in its place. -/
structure Holds (S : Finset LsaMessage) (p : ControlPlane) : Prop where
  placed : Placed p
  stored : ∀ o m, p.stored o = some m → m ∈ S

theorem Holds.handle {S : Finset LsaMessage} {p q : ControlPlane} {now : MonoTime} {link : LinkId}
    {frame : ControlFrame} {acts : List ControlAction} (hp : Holds S p)
    (hframe : ∀ m, frame = .lsa m → m ∈ S)
    (h : p.handle now (.frame link frame) = some (q, acts)) :
    Holds S q ∧ ∀ x ∈ sends acts, ∀ m, x.2 = .lsa m → m ∈ S := by
  have hout := handle_spec h
  have hq : ∀ o m, q.stored o = some m → m ∈ S := fun o m hm =>
    (handle_frame_stored h hm).elim (hp.stored o m) (hframe m)
  refine ⟨⟨hp.placed.step hout.effect, hq⟩, ?_⟩
  rintro ⟨l, f⟩ hx m rfl
  cases hout.frames hx with
  | lsa hm => exact hq _ m hm

/-- A node takes an LSA up, or answers a frame with frames that rank below it. -/
theorem Holds.settles {S : Finset LsaMessage} {p q : ControlPlane} {now : MonoTime} {link : LinkId}
    {frame : ControlFrame} {acts : List ControlAction} (hp : Holds S p)
    (hframe : ∀ m, frame = .lsa m → m ∈ S)
    (h : p.handle now (.frame link frame) = some (q, acts)) :
    appetite S q < appetite S p ∨
      q.lsdb = p.lsdb ∧ ∀ x ∈ sends acts, rank S x.2 < rank S frame := by
  have hgrows := handle_frame_grows h
  cases handle_spec h with
  | digestReq _ os =>
    refine .inr ⟨rfl, ?_⟩
    rintro ⟨l, f⟩ hx
    obtain ⟨-, -, o, m, -, -, rfl⟩ := mem_receiveDigestReq.mp hx
    exact Nat.lt_succ_of_le (rank_lsa_le S m)
  | digest _ entries hd =>
    refine .inr ⟨rfl, ?_⟩
    rintro ⟨l, f⟩ hx
    by_cases hacc : link ∈ p.adjacencies ∧ entries.length ≤ maxDigestEntries
    · obtain ⟨-, ⟨o, m, -, rfl⟩ | ⟨os, rfl, -⟩⟩ :=
        (receiveDigest_spec hd hacc.1 hacc.2).only l f hx
      · exact Nat.lt_succ_of_le ((rank_lsa_le S m).trans (Nat.le_succ _))
      · exact Nat.lt_succ_self _
    · rw [receiveDigest_ignored hd ((not_and_or.mp hacc).imp id Nat.lt_of_not_le)] at hx
      simp at hx
  | lsa _ m hr =>
    cases hr with
    | ignored | full => exact .inr ⟨rfl, by simp⟩
    | stale hstale =>
      refine .inr ⟨rfl, ?_⟩
      rintro ⟨l, f⟩ hx
      obtain ⟨e, active, he, hactive, hlt, rfl⟩ := staleReply_later hx
      obtain ⟨horigin, hversion⟩ := hp.placed _ e active he hactive
      exact rank_lsa_lt (hp.stored _ _ (stored_eq_some.mpr ⟨e, active, he, hactive, rfl⟩)) horigin
        (hversion ▸ hlt)
    | installed hlink hvalid hver hme hnew hroom hsame hsent hquiet =>
      refine .inl (appetite_lt hgrows (hframe m rfl) (isNewer_iff.mpr hnew) ?_)
      rw [← Bool.not_eq_true, isNewer_iff]
      intro hnewer
      have hself := hnewer (activeEntry m now) (by rw [hsame.lsdb, OrdMap.get_insert, if_pos rfl])
      exact lt_irrefl _ hself

/-! ## The network -/

namespace Mesh

variable {ι : Type}

/-- A frame in flight arrives. -/
def Delivers [DecidableEq ι] (w : Wiring ι) (c c' : Mesh ι) : Prop :=
  ∃ n now, c.step w (.deliver n now) = some c'

/-- All messages that are stored or in flight are among those of `S`. -/
structure InPlay (S : Finset LsaMessage) (c : Mesh ι) : Prop where
  nodes : ∀ i, Control.Holds S (c.node i)
  flight : ∀ x ∈ c.flight, ∀ m, x.frame = .lsa m → m ∈ S

/-- The ranks of the frames in flight. -/
def ranks (S : Finset LsaMessage) (c : Mesh ι) : Multiset ℕ :=
  Multiset.ofList (c.flight.map fun x => rank S x.frame)

def potential [Fintype ι] (S : Finset LsaMessage) (c : Mesh ι) : ℕ :=
  ∑ i, appetite S (c.node i)

theorem Delivers.spec [DecidableEq ι] {w : Wiring ι} {c c' : Mesh ι} (h : Delivers w c c') :
    ∃ x flight now q acts, c.flight.Perm (x :: flight) ∧
      (c.node (w.far x.src).1).handle now (.frame (w.far x.src).2 x.frame) = some (q, acts) ∧
      c'.node = Function.update c.node (w.far x.src).1 q ∧
      c'.flight = flight ++ (sends acts).map fun s => ⟨((w.far x.src).1, s.1), s.2⟩ := by
  obtain ⟨n, now, h⟩ := h
  simp only [step] at h
  split at h
  · cases h
  · rename_i x hx
    obtain ⟨⟨q, acts⟩, hhandle, rfl⟩ := Option.map_eq_some_iff.mp h
    refine ⟨x, c.flight.eraseIdx n, now, q, acts, ?_, hhandle, rfl, rfl⟩
    obtain ⟨hn, rfl⟩ := List.getElem?_eq_some_iff.mp hx
    exact (List.getElem_cons_eraseIdx_perm hn).symm

theorem InPlay.deliver [DecidableEq ι] [Fintype ι] {S : Finset LsaMessage} {w : Wiring ι}
    {c c' : Mesh ι} (hc : InPlay S c) (h : Delivers w c c') :
    InPlay S c' ∧ Settles (potential S c) (potential S c') (ranks S c) (ranks S c') := by
  obtain ⟨x, flight, now, q, acts, hperm, hhandle, hnode, hflight⟩ := h.spec
  generalize hi : (w.far x.src).1 = i at *
  have hx : ∀ m, x.frame = .lsa m → m ∈ S :=
    hc.flight x (hperm.symm.subset List.mem_cons_self)
  obtain ⟨hq, hsent⟩ := (hc.nodes i).handle hx hhandle
  refine ⟨⟨?_, ?_⟩, ?_⟩
  · intro j
    rw [hnode]
    by_cases hj : j = i
    · subst hj
      rw [Function.update_self]
      exact hq
    · rw [Function.update_of_ne hj]
      exact hc.nodes j
  · intro y hy m hm
    rw [hflight] at hy
    rcases List.mem_append.mp hy with hy | hy
    · exact hc.flight y (hperm.symm.subset (List.mem_cons_of_mem _ hy)) m hm
    · obtain ⟨s, hs, rfl⟩ := List.mem_map.mp hy
      exact hsent s hs m hm
  · rcases (hc.nodes i).settles hx hhandle with hlt | ⟨hlsdb, hbelow⟩
    · refine .falls (Finset.sum_lt_sum (fun j _ => ?_) ⟨i, Finset.mem_univ i, ?_⟩)
      · rw [hnode]
        by_cases hj : j = i
        · subst hj
          rw [Function.update_self]
          exact hlt.le
        · rw [Function.update_of_ne hj]
      · rw [hnode, Function.update_self]
        exact hlt
    · refine .replaces ?_ (rank S x.frame) (Multiset.ofList (flight.map fun y => rank S y.frame))
        (Multiset.ofList ((sends acts).map fun s => rank S s.2)) ?_ ?_ ?_
      · refine Finset.sum_congr rfl fun j _ => ?_
        rw [hnode]
        by_cases hj : j = i
        · subst hj
          rw [Function.update_self, appetite_congr S hlsdb]
        · rw [Function.update_of_ne hj]
      · rw [ranks, Multiset.coe_eq_coe.mpr (hperm.map _), List.map_cons, ← Multiset.cons_coe,
          ← Multiset.singleton_add, add_comm]
      · rw [ranks, hflight, List.map_append, ← Multiset.coe_add, List.map_map]
        rfl
      · intro r hr
        obtain ⟨s, hs, rfl⟩ := List.mem_map.mp (Multiset.mem_coe.mp hr)
        exact hbelow s hs

/-- The messages that are stored or in flight. -/
def messages [Fintype ι] (c : Mesh ι) : Finset LsaMessage :=
  (Finset.univ.biUnion fun i => ((c.node i).lsdb.toList.filterMap fun e =>
      e.2.active.map ActiveLsa.message).toFinset) ∪
    (c.flight.filterMap fun x => match x.frame with
      | .lsa m => some m
      | _ => none).toFinset

theorem inPlay_messages [Fintype ι] {c : Mesh ι} (h : ∀ i, Placed (c.node i)) :
    InPlay c.messages c := by
  refine ⟨fun i => ⟨h i, ?_⟩, ?_⟩
  · intro o m hm
    obtain ⟨e, active, he, hactive, rfl⟩ := stored_eq_some.mp hm
    refine Finset.mem_union_left _ (Finset.mem_biUnion.mpr ⟨i, Finset.mem_univ i, ?_⟩)
    rw [List.mem_toFinset, List.mem_filterMap]
    exact ⟨(o, e), OrdMap.mem_toList.mpr he, by rw [hactive]; rfl⟩
  · intro x hx m hm
    refine Finset.mem_union_right _ ?_
    rw [List.mem_toFinset, List.mem_filterMap]
    exact ⟨x, hx, by rw [hm]⟩

/-- There is no infinite sequence of deliveries, whatever the nodes hold and whatever is in
flight, as long as every LSA stands under its own origin and version. -/
theorem flooding_quiesces [DecidableEq ι] [Fintype ι] (w : Wiring ι) (c : ℕ → Mesh ι)
    (hplaced : ∀ i, Placed ((c 0).node i)) : ¬ ∀ k, Delivers w (c k) (c (k + 1)) :=
  quiesces (P := InPlay (c 0).messages) (fun _ _ hc h => hc.deliver h) c (inPlay_messages hplaced)

/-- Link 0 has come up at both ends: LSAs and digests are in flight both ways. -/
def pairUp : Option (Mesh Bool) :=
  [MeshStep.event false 0 (.linkUp 0 (pairId true) unitCost),
    .event true 0 (.linkUp 0 (pairId false) unitCost)].foldlM (step pairWiring)
    (init pairId (fun _ => 1) fun _ => 0)

/-- The first frame in flight is delivered, again and again. -/
def pairRun (k : ℕ) : Mesh Bool :=
  Nat.rec (pairUp.getD (init pairId (fun _ => 1) fun _ => 0))
    (fun _ c => (c.step pairWiring (.deliver 0 0)).getD c) k

theorem flooding_quiesces_pair :
    (pairRun 0).flight.length = 4 ∧ (pairRun 6).flight = [] ∧
      ¬ ∀ k, Delivers pairWiring (pairRun k) (pairRun (k + 1)) := by
  refine ⟨by decide +kernel, by decide +kernel, ?_⟩
  exact flooding_quiesces pairWiring pairRun (by decide +kernel)

end Mesh
end Control
end MeshBus
