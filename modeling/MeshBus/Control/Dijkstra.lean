import MeshBus.Control.Spf
import MeshBus.Lib.Walk

/-!
# Control.Dijkstra

`SpfState.loop` computes shortest distances. The heap order plays no part in the argument: the loop
is read as label correcting. Every label is the weight of a walk through its first peer (`Labels`),
and a labelled node is still in the heap or has offered its label along all its edges (`Settled`).
When the heap is empty the labels are closed under edges, hence distances.

`rank` bounds the number of pushes, so `spfFuel` is enough and `shortest_paths` always returns.
-/

namespace MeshBus
namespace Control
namespace SpfState

variable {me : NodeId} {graph : OrdMap NodeId (List Adjacency)} {st : SpfState} {v : NodeId} {d : ℕ}

/-- The graph of a route computation as a relation. -/
def Edge (graph : OrdMap NodeId (List Adjacency)) (u v : NodeId) (c : ℕ) : Prop :=
  ∃ edges cost, graph[u]? = some edges ∧ ⟨v, cost⟩ ∈ edges ∧ cost.val = c

theorem Edge.bounds (u v : NodeId) (c : ℕ) (h : Edge graph u v c) : 0 < c ∧ c ≤ 65535 := by
  obtain ⟨edges, cost, -, -, rfl⟩ := h
  have := cost.lt
  exact ⟨cost.pos, by omega⟩

/-- Every label is the weight, capped at `u32::MAX`, of a walk that starts with its first peer. -/
structure Labels (me : NodeId) (graph : OrdMap NodeId (List Adjacency)) (st : SpfState) : Prop where
  root : st.distance[me]? = some 0
  hops : ∀ (v : NodeId) d, st.distance[v]? = some d → ∃ h, st.pathHops[v]? = some h
  first : ∀ (v : NodeId) d, v ≠ me → st.distance[v]? = some d → ∃ p c k, st.firstPeer[v]? = some p ∧
    Edge graph me p c ∧ Walk (Edge graph) p v k ∧ d = min (c + k) u32Max

/-- Node `u` has offered label `d` along all its edges. -/
def Relaxed (graph : OrdMap NodeId (List Adjacency)) (st : SpfState) (u : NodeId) (d : ℕ) : Prop :=
  ∀ v c, Edge graph u v c → ∃ dv, st.distance[v]? = some dv ∧ dv ≤ min (d + c) u32Max

/-- The invariant while the edges of `node` are relaxed; those in `done` have been. -/
structure Relaxing (me : NodeId) (graph : OrdMap NodeId (List Adjacency)) (node : NodeId)
    (known : ℕ) (done : List Adjacency) (st : SpfState) : Prop where
  labels : Labels me graph st
  here : st.distance[node]? = some known
  others : ∀ (u : NodeId) d, u ≠ node → st.distance[u]? = some d →
    toLex (d, u) ∈ st.pending ∨ Relaxed graph st u d
  done : ∀ e ∈ done, ∃ dv, st.distance[e.peer]? = some dv ∧ dv ≤ min (known + e.cost.val) u32Max

theorem Labels.le_max (h : Labels me graph st) (hd : st.distance[v]? = some d) : d ≤ u32Max := by
  by_cases hv : v = me
  · subst hv
    rw [h.root] at hd
    cases hd
    exact Nat.zero_le _
  · obtain ⟨p, c, k, -, -, -, rfl⟩ := h.first v d hv hd
    exact Nat.min_le_right _ _

/-! ## Termination measure -/

/-- Position of a label in the order that `shouldReplace` follows downwards. -/
def rank (graph : OrdMap NodeId (List Adjacency)) (st : SpfState) (v : NodeId) : ℕ :=
  match st.distance[v]? with
  | none => 2 ^ 32 * (graph.size + 1)
  | some d =>
    d * (graph.size + 1) + match st.firstPeer[v]? with
      | none => 0
      | some p => (graph.keys.toFinset.filter (· < p)).card

def potential (graph : OrdMap NodeId (List Adjacency)) (st : SpfState) : ℕ :=
  ∑ v ∈ graph.keys.toFinset, st.rank graph v + st.pending.length

theorem card_below_le (graph : OrdMap NodeId (List Adjacency)) (p : NodeId) :
    (graph.keys.toFinset.filter (· < p)).card ≤ graph.size := by
  rw [← OrdMap.card_keys]
  exact Finset.card_filter_le _ _

theorem card_below_lt {p q : NodeId} (hp : p ∈ graph) (hlt : p < q) :
    (graph.keys.toFinset.filter (· < p)).card < (graph.keys.toFinset.filter (· < q)).card := by
  refine Finset.card_lt_card (Finset.ssubset_iff_of_subset ?_ |>.mpr ⟨p, ?_, ?_⟩)
  · intro x hx
    rw [Finset.mem_filter] at hx ⊢
    exact ⟨hx.1, hx.2.trans hlt⟩
  · rw [Finset.mem_filter, List.mem_toFinset, Std.ExtTreeMap.mem_keys]
    exact ⟨hp, hlt⟩
  · simp

theorem rank_of_none (h : st.distance[v]? = none) :
    st.rank graph v = 2 ^ 32 * (graph.size + 1) := by
  simp only [rank, h]

theorem rank_of_some {v first : NodeId} (h : st.distance[v]? = some d)
    (hfirst : st.firstPeer[v]? = some first) :
    st.rank graph v = d * (graph.size + 1) + (graph.keys.toFinset.filter (· < first)).card := by
  simp only [rank, h, hfirst]

theorem le_rank_of_some (h : st.distance[v]? = some d) :
    d * (graph.size + 1) ≤ st.rank graph v := by
  simp only [rank, h, Nat.le_add_right]

/-- A replaced label has a smaller rank. -/
theorem rank_replace {v first : NodeId} {cost hops : ℕ} (hcost : cost ≤ u32Max)
    (hfirst : first ∈ graph) (h : st.shouldReplace v cost first = true) :
    (st.replace v cost hops first).rank graph v < st.rank graph v := by
  have hle := card_below_le graph first
  have hmul : ∀ b : ℕ, cost < b →
      cost * (graph.size + 1) + (graph.size + 1) ≤ b * (graph.size + 1) := by
    intro b hb
    rw [← Nat.succ_mul]
    exact Nat.mul_le_mul_right _ hb
  have hnew : (st.replace v cost hops first).rank graph v =
      cost * (graph.size + 1) + (graph.keys.toFinset.filter (· < first)).card :=
    rank_of_some (by simp only [replace, OrdMap.get_insert, if_true])
      (by simp only [replace, OrdMap.get_insert, if_true])
  rw [hnew]
  simp only [shouldReplace] at h
  split at h
  · rename_i hnone
    rw [rank_of_none hnone]
    have := hmul (2 ^ 32) (by simp only [u32Max] at hcost; omega)
    omega
  · rename_i current hcur
    split at h
    · rename_i hlt
      have := hmul current hlt
      have : current * (graph.size + 1) ≤ st.rank graph v := le_rank_of_some hcur
      omega
    · split at h
      · rename_i heq
        subst heq
        cases hp : st.firstPeer[v]? with
        | none => simp [hp] at h
        | some p =>
          simp only [hp, Option.any_some, decide_eq_true_eq] at h
          rw [rank_of_some hcur hp]
          exact Nat.add_lt_add_left (card_below_lt hfirst h) _
      · cases h

theorem rank_replace_ne {u v first : NodeId} {cost hops : ℕ} (h : u ≠ v) :
    (st.replace v cost hops first).rank graph u = st.rank graph u := by
  simp only [rank, replace, OrdMap.get_insert, if_neg (Ne.symm h)]

theorem potential_replace {v first : NodeId} {cost hops : ℕ} (hv : v ∈ graph)
    (hcost : cost ≤ u32Max) (hfirst : first ∈ graph) (h : st.shouldReplace v cost first = true) :
    (st.replace v cost hops first).potential graph ≤ st.potential graph := by
  have hsum : ∑ u ∈ graph.keys.toFinset, (st.replace v cost hops first).rank graph u <
      ∑ u ∈ graph.keys.toFinset, st.rank graph u := by
    refine Finset.sum_lt_sum ?_ ⟨v, ?_, rank_replace hcost hfirst h⟩
    · intro u _
      by_cases huv : u = v
      · subst huv
        exact (rank_replace hcost hfirst h).le
      · rw [rank_replace_ne huv]
    · rw [List.mem_toFinset, Std.ExtTreeMap.mem_keys]
      exact hv
  have hlen : (st.replace v cost hops first).pending.length = st.pending.length + 1 := by
    rw [replace, List.orderedInsert_length]
  rw [potential, potential, hlen]
  omega

/-! ## One edge -/

section Step

variable {node : NodeId} {known : ℕ} {done : List Adjacency} {edge : Adjacency}

/-- The first peer a candidate label gets. -/
theorem Relaxing.candidate (h : Relaxing me graph node known done st)
    (hedge : Edge graph node edge.peer edge.cost.val) :
    ∃ first c k, (if node = me then some edge.peer else st.firstPeer[node]?) = some first ∧
      Edge graph me first c ∧ Walk (Edge graph) first edge.peer k ∧
      min (known + edge.cost.val) u32Max = min (c + k) u32Max := by
  by_cases hme : node = me
  · subst hme
    have hknown : known = 0 := by
      have := h.here
      rw [h.labels.root] at this
      exact (Option.some.inj this).symm
    refine ⟨edge.peer, edge.cost.val, 0, by simp, hedge, .nil _, ?_⟩
    rw [hknown, Nat.zero_add, Nat.add_zero]
  · obtain ⟨p, c, k, hp, hmep, hwalk, hd⟩ := h.labels.first node known hme h.here
    refine ⟨p, c, k + edge.cost.val, by rw [if_neg hme]; exact hp, hmep, hwalk.snoc hedge, ?_⟩
    rw [hd]
    omega

/-- The node being relaxed keeps its label: a candidate for itself is no better. -/
theorem Relaxing.not_self (h : Relaxing me graph node known done st) {first : NodeId}
    (hfirst : (if node = me then some edge.peer else st.firstPeer[node]?) = some first)
    (hrep : st.shouldReplace edge.peer (min (known + edge.cost.val) u32Max) first = true) :
    edge.peer ≠ node := by
  rintro heq
  have hle := h.labels.le_max h.here
  have hpos := edge.cost.pos
  rw [heq, shouldReplace, h.here] at hrep
  simp only at hrep
  split at hrep
  · omega
  · split at hrep
    · by_cases hme : node = me
      · subst hme
        have := h.here
        rw [h.labels.root] at this
        cases this
        simp only [u32Max] at *
        omega
      · rw [if_neg hme] at hfirst
        rw [hfirst] at hrep
        simp at hrep
    · cases hrep

theorem Labels.replace (h : Labels me graph st) {v first : NodeId} {cost hops c k : ℕ}
    (hv : v ≠ me) (hmef : Edge graph me first c) (hwalk : Walk (Edge graph) first v k)
    (hcost : cost = min (c + k) u32Max) : Labels me graph (st.replace v cost hops first) := by
  refine ⟨?_, ?_, ?_⟩
  · simp only [SpfState.replace, OrdMap.get_insert, if_neg hv]
    exact h.root
  · intro u d hd
    simp only [SpfState.replace, OrdMap.get_insert] at hd ⊢
    split at hd
    · rename_i heq
      exact ⟨hops, by rw [if_pos heq]⟩
    · rename_i hne
      rw [if_neg hne]
      exact h.hops u d hd
  · intro u d hu hd
    simp only [SpfState.replace, OrdMap.get_insert] at hd ⊢
    split at hd
    · rename_i heq
      subst heq
      cases hd
      exact ⟨first, c, k, by simp, hmef, hwalk, hcost⟩
    · rename_i hne
      rw [if_neg hne]
      exact h.first u d hu hd

theorem shouldReplace_root (h : Labels me graph st) {cost : ℕ} {first : NodeId} (hpos : 0 < cost) :
    st.shouldReplace me cost first = false := by
  simp only [shouldReplace, h.root]
  rw [if_neg (by omega), if_neg (by omega)]

/-- A label only gets smaller. -/
theorem distance_replace {v first u : NodeId} {cost hops d : ℕ}
    (hrep : st.shouldReplace v cost first = true) (hd : st.distance[u]? = some d) :
    ∃ d', (st.replace v cost hops first).distance[u]? = some d' ∧ d' ≤ d := by
  simp only [SpfState.replace, OrdMap.get_insert]
  split
  · rename_i heq
    subst heq
    refine ⟨cost, rfl, ?_⟩
    simp only [shouldReplace, hd] at hrep
    split at hrep
    · omega
    · split at hrep
      · omega
      · cases hrep
  · exact ⟨d, hd, Nat.le_refl _⟩

theorem Relaxed.replace {u v first : NodeId} {cost hops d : ℕ} (h : Relaxed graph st u d)
    (hrep : st.shouldReplace v cost first = true) :
    Relaxed graph (st.replace v cost hops first) u d := by
  intro x c hedge
  obtain ⟨dx, hdx, hle⟩ := h x c hedge
  obtain ⟨dx', hdx', hle'⟩ := distance_replace hrep hdx
  exact ⟨dx', hdx', hle'.trans hle⟩

/-- Without a replacement the edge's target already has a label as small as the candidate. -/
theorem le_of_not_replace {v first : NodeId} {cost : ℕ}
    (hrep : ¬ st.shouldReplace v cost first = true) :
    ∃ dv, st.distance[v]? = some dv ∧ dv ≤ cost := by
  simp only [shouldReplace] at hrep
  split at hrep
  · simp at hrep
  · rename_i current hcur
    refine ⟨current, hcur, ?_⟩
    by_contra hlt
    rw [if_pos (by omega)] at hrep
    simp at hrep

/-- One edge, in terms of the candidate label. -/
theorem relax_eq {hops : ℕ} {first : NodeId} (hhops : st.pathHops[node]? = some hops)
    (hfirst : (if node = me then some edge.peer else st.firstPeer[node]?) = some first) :
    SpfState.relax me node known st edge =
      if st.shouldReplace edge.peer (min (known + edge.cost.val) u32Max) first then
        some (st.replace edge.peer (min (known + edge.cost.val) u32Max) (min (hops + 1) 255) first)
      else some st := by
  simp only [SpfState.relax, hhops, bind, Option.bind_some]
  split
  · rename_i hme
    rw [if_pos hme] at hfirst
    cases hfirst
    rfl
  · rename_i hme
    rw [if_neg hme] at hfirst
    rw [hfirst]
    rfl

/-- The root keeps its label. -/
theorem Relaxing.not_root (h : Relaxing me graph node known done st) {first : NodeId}
    (hrep : st.shouldReplace edge.peer (min (known + edge.cost.val) u32Max) first = true) :
    edge.peer ≠ me := by
  intro heq
  have hpos := edge.cost.pos
  rw [heq, shouldReplace_root h.labels (by simp only [u32Max]; omega)] at hrep
  cases hrep

theorem Relaxing.relax (h : Relaxing me graph node known done st)
    (hedge : Edge graph node edge.peer edge.cost.val)
    (hclosed : ∀ u v c, Edge graph u v c → v ∈ graph) :
    ∃ st', SpfState.relax me node known st edge = some st' ∧
      Relaxing me graph node known (done ++ [edge]) st' ∧
      st'.potential graph ≤ st.potential graph := by
  obtain ⟨hops, hhops⟩ := h.labels.hops node known h.here
  obtain ⟨first, c, k, hfirst, hmef, hwalk, hcost⟩ := h.candidate hedge
  rw [relax_eq hhops hfirst]
  by_cases hrep : st.shouldReplace edge.peer (min (known + edge.cost.val) u32Max) first = true
  · rw [if_pos hrep]
    have hself := h.not_self hfirst hrep
    have hme := h.not_root hrep
    refine ⟨_, rfl, ⟨h.labels.replace hme hmef hwalk hcost, ?_, ?_, ?_⟩, ?_⟩
    · simp only [SpfState.replace, OrdMap.get_insert, if_neg hself]
      exact h.here
    · intro u d hu hd
      by_cases heq : edge.peer = u
      · left
        simp only [SpfState.replace, OrdMap.get_insert, if_pos heq, Option.some.injEq] at hd ⊢
        rw [List.mem_orderedInsert]
        left
        rw [hd, heq]
      · have hd' : st.distance[u]? = some d := by
          simpa only [SpfState.replace, OrdMap.get_insert, if_neg heq] using hd
        rcases h.others u d hu hd' with hp | hr
        · left
          simp only [SpfState.replace]
          rw [List.mem_orderedInsert]
          exact .inr hp
        · exact .inr (hr.replace hrep)
    · intro e he
      rcases List.mem_append.mp he with he | he
      · obtain ⟨dv, hdv, hle⟩ := h.done e he
        obtain ⟨dv', hdv', hle'⟩ := distance_replace hrep hdv
        exact ⟨dv', hdv', hle'.trans hle⟩
      · rw [List.mem_singleton] at he
        subst he
        exact ⟨_, by simp [SpfState.replace], Nat.le_refl _⟩
    · exact potential_replace (hclosed _ _ _ hedge) (Nat.min_le_right _ _) (hclosed _ _ _ hmef) hrep
  · rw [if_neg hrep]
    refine ⟨st, rfl, ⟨h.labels, h.here, h.others, ?_⟩, Nat.le_refl _⟩
    intro e he
    rcases List.mem_append.mp he with he | he
    · exact h.done e he
    · rw [List.mem_singleton] at he
      subst he
      exact le_of_not_replace hrep

theorem Relaxing.relaxAll (hclosed : ∀ u v c, Edge graph u v c → v ∈ graph) :
    ∀ {edges done : List Adjacency} {st : SpfState}, Relaxing me graph node known done st →
      (∀ e ∈ edges, Edge graph node e.peer e.cost.val) →
      ∃ st', edges.foldlM (SpfState.relax me node known) st = some st' ∧
        Relaxing me graph node known (done ++ edges) st' ∧
        st'.potential graph ≤ st.potential graph := by
  intro edges
  induction edges with
  | nil =>
    intro done st h _
    exact ⟨st, rfl, by simpa using h, Nat.le_refl _⟩
  | cons e edges ih =>
    intro done st h hedges
    obtain ⟨st1, h1, hr1, hp1⟩ := h.relax (hedges e (by simp)) hclosed
    obtain ⟨st2, h2, hr2, hp2⟩ := ih hr1 fun x hx => hedges x (by simp [hx])
    refine ⟨st2, ?_, by simpa using hr2, hp2.trans hp1⟩
    simp only [List.foldlM_cons, h1, bind, Option.bind_some]
    exact h2

end Step

/-! ## The loop -/

/-- The invariant between two rounds. -/
structure Inv (me : NodeId) (graph : OrdMap NodeId (List Adjacency)) (st : SpfState) : Prop where
  labels : Labels me graph st
  settled : ∀ (u : NodeId) d, st.distance[u]? = some d →
    toLex (d, u) ∈ st.pending ∨ Relaxed graph st u d

/-- At first only the root is labelled. -/
theorem distance_start {me v : NodeId} (h : (start me).distance[v]? = some d) : v = me ∧ d = 0 := by
  simp only [start, OrdMap.get_insert] at h
  split at h
  · rename_i heq
    exact ⟨heq.symm, (Option.some.inj h).symm⟩
  · simp at h

theorem inv_start (me : NodeId) (graph : OrdMap NodeId (List Adjacency)) :
    Inv me graph (start me) := by
  refine ⟨⟨by simp [start], ?_, ?_⟩, ?_⟩
  · intro v d hd
    obtain ⟨rfl, -⟩ := distance_start hd
    exact ⟨0, by simp [start]⟩
  · intro v d hv hd
    exact absurd (distance_start hd).1 hv
  · intro u d hd
    obtain ⟨rfl, rfl⟩ := distance_start hd
    exact .inl (by simp [start])

/-- Popping an entry whose node is labelled otherwise, or has no edges. -/
theorem Inv.pop {top : ℕ ×ₗ NodeId} {rest : List (ℕ ×ₗ NodeId)} (h : Inv me graph st)
    (hp : st.pending = top :: rest) (htop : st.distance[(ofLex top).2]? = some (ofLex top).1 →
      Relaxed graph st (ofLex top).2 (ofLex top).1) : Inv me graph { st with pending := rest } := by
  refine ⟨⟨h.labels.root, h.labels.hops, h.labels.first⟩, ?_⟩
  intro u d hd
  rcases h.settled u d hd with hmem | hr
  · rw [hp] at hmem
    rcases List.mem_cons.mp hmem with heq | hmem
    · subst heq
      exact .inr (htop hd)
    · exact .inl hmem
  · exact .inr hr

/-- Before the edges of a popped node are relaxed. -/
theorem Inv.relaxing {top : ℕ ×ₗ NodeId} {rest : List (ℕ ×ₗ NodeId)} (h : Inv me graph st)
    (hp : st.pending = top :: rest) (hcur : st.distance[(ofLex top).2]? = some (ofLex top).1) :
    Relaxing me graph (ofLex top).2 (ofLex top).1 [] { st with pending := rest } := by
  refine ⟨⟨h.labels.root, h.labels.hops, h.labels.first⟩, hcur, ?_, by simp⟩
  intro u d hu hd
  rcases h.settled u d hd with hmem | hr
  · rw [hp] at hmem
    rcases List.mem_cons.mp hmem with heq | hmem
    · subst heq
      exact absurd rfl hu
    · exact .inl hmem
  · exact .inr hr

/-- After all edges of a node have been relaxed. -/
theorem Relaxing.inv {me node : NodeId} {known : ℕ} {edges : List Adjacency}
    (h : Relaxing me graph node known edges st) (hedges : graph[node]? = some edges) :
    Inv me graph st := by
  refine ⟨h.labels, ?_⟩
  intro u d hd
  by_cases hu : u = node
  · subst hu
    rw [h.here] at hd
    cases hd
    right
    rintro v c ⟨edges', cost, hedges', he, rfl⟩
    rw [hedges] at hedges'
    cases hedges'
    exact h.done ⟨v, cost⟩ he
  · exact h.others u d hu hd

theorem edge_of_mem {u : NodeId} {edges : List Adjacency} (hedges : graph[u]? = some edges) :
    ∀ e ∈ edges, Edge graph u e.peer e.cost.val :=
  fun e he => ⟨edges, e.cost, hedges, he, rfl⟩

theorem loop_spec (hclosed : ∀ u v c, Edge graph u v c → v ∈ graph) : ∀ {fuel : ℕ} {st : SpfState},
    Inv me graph st → st.potential graph < fuel →
    ∃ st', loop me graph fuel st = some st' ∧ Inv me graph st' ∧ st'.pending = [] := by
  intro fuel
  induction fuel with
  | zero =>
    intro st _ hfuel
    omega
  | succ fuel ih =>
    intro st h hfuel
    rw [loop]
    split
    · rename_i hnil
      exact ⟨st, rfl, h, hnil⟩
    · rename_i top rest hp
      have hpot : ∀ st' : SpfState,
          st'.potential graph ≤ ({ st with pending := rest } : SpfState).potential graph →
          st'.potential graph < fuel := by
        intro st' hle
        have heq : st.potential graph =
            ({ st with pending := rest } : SpfState).potential graph + 1 := by
          simp only [potential, hp, List.length_cons]
          rfl
        omega
      simp only
      split
      · rename_i hstale
        refine ih (h.pop hp ?_) (hpot _ (Nat.le_refl _))
        intro hd
        exact absurd hd hstale
      · rename_i hcur
        split
        · rename_i hnone
          refine ih (h.pop hp ?_) (hpot _ (Nat.le_refl _))
          rintro - v c ⟨edges, cost, hedges, -⟩
          rw [hnone] at hedges
          cases hedges
        · rename_i edges hedges
          obtain ⟨st1, h1, hr1, hp1⟩ := Relaxing.relaxAll hclosed (h.relaxing hp (not_not.mp hcur))
            (edge_of_mem hedges)
          rw [h1]
          rw [List.nil_append] at hr1
          exact ih (hr1.inv hedges) (hpot st1 hp1)

theorem potential_start (me : NodeId) (graph : OrdMap NodeId (List Adjacency)) :
    (start me).potential graph < spfFuel graph := by
  have hrank : ∀ v ∈ graph.keys.toFinset, (start me).rank graph v ≤ 2 ^ 32 * (graph.size + 1) := by
    intro v _
    by_cases hv : me = v
    · simp [rank, start, hv]
    · simp [rank, start, hv]
  have hsum : ∑ v ∈ graph.keys.toFinset, (start me).rank graph v ≤
      graph.size * (2 ^ 32 * (graph.size + 1)) := by
    have h := Finset.sum_le_card_nsmul _ _ _ hrank
    rwa [OrdMap.card_keys, smul_eq_mul] at h
  have hmul : graph.size * (2 ^ 32 * (graph.size + 1)) ≤
      2 ^ 32 * (graph.size + 1) * (graph.size + 1) := by
    rw [Nat.mul_comm graph.size]
    exact Nat.mul_le_mul_left _ (Nat.le_succ _)
  have hlen : (start me).pending.length = 1 := rfl
  rw [potential, spfFuel, hlen]
  omega

/-! ## Distances -/

/-- Closed labels are at most the weight of any walk. -/
theorem Inv.le_walk (h : Inv me graph st) (hdone : st.pending = []) {k : ℕ}
    (hwalk : Walk (Edge graph) me v k) : ∃ d, st.distance[v]? = some d ∧ d ≤ min k u32Max := by
  refine Walk.invariant (P := fun v k => ∃ d, st.distance[v]? = some d ∧ d ≤ min k u32Max)
    ⟨0, h.labels.root, Nat.zero_le _⟩ ?_ hwalk
  rintro v w c k - ⟨d, hd, hle⟩ hedge
  rcases h.settled v d hd with hmem | hr
  · rw [hdone] at hmem
    cases hmem
  · obtain ⟨dw, hdw, hlew⟩ := hr w c hedge
    exact ⟨dw, hdw, by omega⟩

theorem Labels.walk (h : Labels me graph st) (hd : st.distance[v]? = some d) :
    ∃ k, Walk (Edge graph) me v k ∧ d = min k u32Max := by
  by_cases hv : v = me
  · subst hv
    rw [h.root] at hd
    cases hd
    exact ⟨0, .nil _, by simp⟩
  · obtain ⟨p, c, k, -, hedge, hwalk, rfl⟩ := h.first v d hv hd
    exact ⟨c + k, .cons hedge hwalk, rfl⟩

/-- With at most `maxLsdbEntries` nodes no distance reaches `u32::MAX`. -/
theorem dist_lt (hclosed : ∀ u v c, Edge graph u v c → v ∈ graph)
    (hsize : graph.size ≤ maxLsdbEntries) (h : IsDist (Edge graph) me v d) : d < u32Max := by
  have hS : ∀ v k, Walk (Edge graph) me v k → v ∈ insert me graph.keys.toFinset := by
    intro v k hwalk
    rw [Finset.mem_insert, List.mem_toFinset, Std.ExtTreeMap.mem_keys]
    rcases hwalk.last with ⟨rfl, -⟩ | ⟨x, c, k', -, hedge, -⟩
    · exact .inl rfl
    · exact .inr (hclosed _ _ _ hedge)
  have hcard : (insert me graph.keys.toFinset).card ≤ maxLsdbEntries + 1 := by
    have := Finset.card_insert_le me graph.keys.toFinset
    rw [OrdMap.card_keys] at this
    omega
  have hle := h.lt_of_card Edge.bounds hS hcard
  simp only [maxLsdbEntries, u32Max] at *
  omega

theorem Inv.isDist (h : Inv me graph st) (hdone : st.pending = [])
    (hclosed : ∀ u v c, Edge graph u v c → v ∈ graph) (hsize : graph.size ≤ maxLsdbEntries) :
    st.distance[v]? = some d ↔ IsDist (Edge graph) me v d := by
  have exact_of : ∀ {d d' : ℕ}, st.distance[v]? = some d → IsDist (Edge graph) me v d' →
      d = d' := by
    intro d d' hd hdist
    obtain ⟨d'', hd'', hle⟩ := h.le_walk hdone hdist.walk
    rw [hd] at hd''
    cases hd''
    obtain ⟨k, hk, rfl⟩ := h.labels.walk hd
    have hlt := dist_lt hclosed hsize hdist
    have hge := hdist.le k hk
    omega
  constructor
  · intro hd
    obtain ⟨k, hk, -⟩ := h.labels.walk hd
    obtain ⟨d', hd'⟩ := hk.exists_isDist
    rw [exact_of hd hd']
    exact hd'
  · intro hdist
    obtain ⟨d', hd', -⟩ := h.le_walk hdone hdist.walk
    rw [hd', exact_of hd' hdist]

/-- The first peer of a label starts a shortest walk. -/
theorem Inv.first (h : Inv me graph st) (hclosed : ∀ u v c, Edge graph u v c → v ∈ graph)
    (hsize : graph.size ≤ maxLsdbEntries) (hv : v ≠ me) (hd : st.distance[v]? = some d)
    (hdist : IsDist (Edge graph) me v d) :
    ∃ p c k, st.firstPeer[v]? = some p ∧ Edge graph me p c ∧ Walk (Edge graph) p v k ∧
      d = c + k := by
  obtain ⟨p, c, k, hp, hedge, hwalk, hmin⟩ := h.labels.first v d hv hd
  have hlt := dist_lt hclosed hsize hdist
  exact ⟨p, c, k, hp, hedge, hwalk, by omega⟩

end SpfState
end Control
end MeshBus
