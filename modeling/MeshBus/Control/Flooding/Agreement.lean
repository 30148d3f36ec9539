import MeshBus.Control.Flooding.Coverage

/-!
# Control.Flooding.Agreement

Flooding agreement: along every run of a network, once no control frame is in flight, two nodes
joined by a link that is up at both ends hold the same link-state database.
-/

namespace MeshBus
namespace Control
namespace Mesh

open ControlPlane

variable {ι : Type}

/-- The invariant of a run. -/
structure Inv (w : Wiring ι) (id : ι → NodeId) (c : Mesh ι) : Prop where
  sound : Sound id c
  short : Short c
  covered : LinksCovered w c

section Run

variable {w : Wiring ι} {id : ι → NodeId}

theorem inv_init (epoch : ι → UInt32) (seq : ι → UInt64) : Inv w id (init id epoch seq) := by
  have hempty : ∀ i (o : NodeId), ((init id epoch seq).node i).lsdb[o]? = none := fun i o =>
    Std.ExtTreeMap.getElem?_empty
  have hsaid : ∀ m, ¬ (init id epoch seq).Said m := by
    rintro m (⟨i, o, h⟩ | ⟨a, h⟩)
    · rw [stored, hempty] at h
      cases h
    · cases h
  refine ⟨⟨fun _ => rfl, fun _ => rfl, fun _ => rfl, ?_, ?_, ?_, ?_, ?_, ?_⟩, ⟨?_, ?_⟩, ?_⟩
  · intro i o e he
    rw [hempty] at he
    cases he
  · intro i e he
    rw [hempty] at he
    cases he
  · exact fun m hm => absurd hm (hsaid m)
  · exact fun m hm => absurd hm (hsaid m)
  · exact fun m m' hm => absurd hm (hsaid m)
  · intro a m h
    cases h
  · intro a entries h
    cases h
  · intro a os h
    cases h
  · intro a _ _ o e he
    rw [hempty] at he
    cases he

/-- Losing a frame of a dead link. -/
theorem Inv.loses {c c' : Mesh ι} (hI : Inv w id c) (h : Loses w c c') : Inv w id c' := by
  obtain ⟨node, flight⟩ := c'
  obtain ⟨hnode, hold, hkept⟩ := h
  simp only at hnode
  subst hnode
  have hsaid : ∀ m, Said ⟨c.node, flight⟩ m → c.Said m := fun m hm =>
    hm.imp_right fun ⟨a, ha⟩ => ⟨a, hold _ ha⟩
  refine ⟨⟨hI.sound.me, hI.sound.signer, hI.sound.verifier, hI.sound.active, hI.sound.own, ?_, ?_,
    ?_, ?_⟩, ⟨?_, ?_⟩, ?_⟩
  · exact fun m hm => hI.sound.known m (hsaid m hm)
  · exact fun m hm => hI.sound.valid m (hsaid m hm)
  · exact fun m m' hm hm' => hI.sound.unique m m' (hsaid m hm) (hsaid m' hm')
  · exact fun a m ha => hI.sound.held a m (hold _ ha)
  · exact fun a entries ha => hI.short.digests a entries (hold _ ha)
  · exact fun a os ha => hI.short.requests a os (hold _ ha)
  · intro a ha hb o e he
    have hstay : ∀ x ∈ c.flight, x.src = a ∨ x.src = w.far a → x ∈ flight := by
      intro x hx hsrc
      rcases hkept x hx with hx | hdown
      · exact hx
      · rcases hsrc with rfl | hsrc
        · exact absurd ⟨ha, hb⟩ hdown
        · rw [hsrc, w.far_far] at hdown
          exact absurd ⟨hb, ha⟩ hdown
    cases hI.covered a ha hb o e he with
    | held hh => exact .held hh
    | sent m hm horigin hle => exact .sent m (hstay _ hm (.inl rfl)) horigin hle
    | offered entries v hd hv hle => exact .offered entries v (hstay _ hd (.inl rfl)) hv hle
    | asked os hr ho => exact .asked os (hstay _ hr (.inr rfl)) ho
    | lacking entries hd hlt => exact .lacking entries (hstay _ hd (.inr rfl)) hlt

theorem Inv.step [DecidableEq ι] [Fintype ι] (hid : Function.Injective id) {c c' : Mesh ι}
    {s : MeshStep ι} (hI : Inv w id c) (hadm : c.Admissible) (hadm' : c'.Admissible)
    (h : c.step w s = some c') : Inv w id c' := by
  rcases step_cases h with ⟨k, now, event, acts, hacts⟩ | hloses
  · have hS' := hI.sound.step hid hacts hadm'
    refine ⟨hS', hI.short.step hS' hadm' hacts, ?_⟩
    cases event with
    | frame link f =>
      cases f with
      | lsa m => exact hI.covered.lsa_step hid hI.sound hadm hacts
      | digest entries => exact hI.covered.digest_step hid hI.sound hI.short hacts
      | digestReq os => exact hI.covered.digestReq_step hI.sound hI.short hacts
    | linkUp | linkDown | localTopicAdsChanged | timer =>
      exact hI.covered.local_step hI.sound hacts (by simp)
  · exact hI.loses hloses

theorem admissible_init [Fintype ι] (epoch : ι → UInt32) (seq : ι → UInt64) :
    (init id epoch seq).Admissible := by
  have hlsdb : ∀ i, ((init id epoch seq).node i).lsdb = ∅ := fun _ => rfl
  refine ⟨?_, fun i => ?_⟩
  · simp [origins, hlsdb]
  · simp [lsa, hlsdb]

theorem run_inv [DecidableEq ι] [Fintype ι] (hid : Function.Injective id)
    {steps : List (MeshStep ι)} {c c' : Mesh ι} (hI : Inv w id c) (hadm : c.Admissible)
    (h : run w c steps = some c') : Inv w id c' := by
  refine (foldlM_inv (P := fun c => Inv w id c ∧ c.Admissible) ?_ ⟨hI, hadm⟩ h).1
  rintro c s c₁ ⟨hI, hadm⟩ hstep
  rw [Option.filter_eq_some_iff, decide_eq_true_eq] at hstep
  exact ⟨hI.step hid hadm hstep.2 hstep.1, hstep.2⟩

/-- Two joined nodes hold the same entry of every origin once nothing is in flight. -/
theorem Inv.agree {c : Mesh ι} (hI : Inv w id c) (hquiet : c.flight = []) {i j : ι}
    (hij : c.Joined w i j) {o : NodeId} {e : LsdbEntry} (he : (c.node i).lsdb[o]? = some e) :
    ∃ e', (c.node j).lsdb[o]? = some e' ∧ e.version ≤ e'.version := by
  obtain ⟨a, rfl, rfl, ha, hb⟩ := hij
  cases hI.covered a ha hb o e he with
  | held hh => exact hh
  | sent m hm | offered entries v hm | asked os hm | lacking entries hm =>
    rw [hquiet] at hm
    cases hm

theorem Joined.symm {c : Mesh ι} {i j : ι} (h : c.Joined w i j) : c.Joined w j i := by
  obtain ⟨a, rfl, rfl, ha, hb⟩ := h
  exact ⟨w.far a, rfl, by rw [w.far_far], hb, by rw [w.far_far]; exact ha⟩

end Run

/-- What a database says about an origin: the version, and the content of an active LSA. -/
def entryView (e : LsdbEntry) : Version × Option Lsa :=
  (e.version, e.active.map fun a => a.message.lsa)

theorem Inv.view_eq {w : Wiring ι} {id : ι → NodeId} {c : Mesh ι}
    (hI : Inv w id c) (hquiet : c.flight = []) {i j : ι} (hij : c.Joined w i j) (o : NodeId) :
    (c.node i).lsdb[o]?.map entryView = (c.node j).lsdb[o]?.map entryView := by
  cases hi : (c.node i).lsdb[o]? with
  | none =>
    cases hj : (c.node j).lsdb[o]? with
    | none => rfl
    | some e =>
      obtain ⟨e', he', -⟩ := hI.agree hquiet hij.symm hj
      rw [hi] at he'
      cases he'
  | some e =>
    obtain ⟨e', he', hle⟩ := hI.agree hquiet hij hi
    obtain ⟨e'', he'', hge⟩ := hI.agree hquiet hij.symm he'
    rw [hi] at he''
    cases he''
    obtain ⟨m, t, rfl, horigin⟩ := hI.sound.active i o e hi
    obtain ⟨m', t', rfl, horigin'⟩ := hI.sound.active j o e' he'
    have hmm : m = m' := hI.sound.unique m m' (.inl ⟨i, o, stored_of_active hi⟩)
      (.inl ⟨j, o, stored_of_active he'⟩) (horigin.trans horigin'.symm) (le_antisymm hle hge)
    rw [he', hmm]
    rfl

/-- With no control frame in flight, the nodes of a connected component hold the same origins, and
for each origin the same version and the same LSA. -/
theorem flooding_agreement [DecidableEq ι] [Fintype ι] (w : Wiring ι) (id : ι → NodeId)
    (hid : Function.Injective id) (epoch : ι → UInt32) (seq : ι → UInt64)
    (steps : List (MeshStep ι)) (c : Mesh ι) (hrun : run w (init id epoch seq) steps = some c)
    (hquiet : c.flight = []) (i j : ι) (hij : Relation.ReflTransGen (c.Joined w) i j)
    (o : NodeId) :
    (c.node i).lsdb[o]?.map entryView = (c.node j).lsdb[o]?.map entryView := by
  have hI := run_inv hid (inv_init epoch seq) (admissible_init epoch seq) hrun
  induction hij with
  | refl => rfl
  | tail _ hstep ih => exact ih.trans (hI.view_eq hquiet hstep o)

/-- Link 0 comes up at both ends, then all frames are delivered in the order they were sent. -/
def pairSteps : List (MeshStep Bool) :=
  [.event false 0 (.linkUp 0 (pairId true) unitCost),
    .event true 0 (.linkUp 0 (pairId false) unitCost)] ++
  List.replicate 6 (.deliver 0 1)

theorem flooding_agreement_pair :
    ∃ c, run pairWiring (init pairId (fun _ => 1) fun _ => 0) pairSteps = some c ∧
      c.flight = [] ∧ c.Joined pairWiring false true ∧ pairId true ∈ (c.node false).lsdb ∧
      ∀ o : NodeId,
        (c.node false).lsdb[o]?.map entryView = (c.node true).lsdb[o]?.map entryView := by
  have hrun : ((run pairWiring (init pairId (fun _ => 1) fun _ => 0) pairSteps).map fun c =>
      (c.flight, decide (c.Up (false, 0) ∧ c.Up (true, 0)),
        decide (pairId true ∈ (c.node false).lsdb))) = some ([], true, true) := by
    decide +kernel
  obtain ⟨c, hc, heq⟩ := Option.map_eq_some_iff.mp hrun
  simp only [Prod.mk.injEq, decide_eq_true_eq] at heq
  obtain ⟨hquiet, hup, hmem⟩ := heq
  have hjoined : c.Joined pairWiring false true := ⟨(false, 0), rfl, rfl, hup.1, hup.2⟩
  have hid : Function.Injective pairId := by
    intro i j h
    revert h
    revert i j
    decide
  exact ⟨c, hc, hquiet, hjoined, hmem, fun o =>
    flooding_agreement pairWiring pairId hid _ _ pairSteps c hc hquiet false true
      (.single hjoined) o⟩

end Mesh
end Control
end MeshBus
