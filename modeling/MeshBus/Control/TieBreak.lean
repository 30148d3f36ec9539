import MeshBus.Control.Dijkstra
import MeshBus.Control.Limits

/-!
# Control.TieBreak

Which of several shortest walks a route follows. A label of the route computation is a distance with
the first peer and the number of edges of one walk (`Traced`). A label also gives way to one of the
same distance and a smaller first peer, and its node is pushed again, so what was said of distances
holds of pairs of a distance and a first peer: a labelled node is still in the heap or has offered
both along all its edges (`Ties.settled`). Again the order of the heap plays no part.

* `Ties.le_first`: at the end no shortest walk starts with a smaller peer than the label says.
* `shortest_paths_correct`: the routes of every node, in terms of the advertised graph.
-/

namespace MeshBus
namespace Control
namespace SpfState

/-- The three parts of a label belong to one walk. -/
def Traced (me : NodeId) (graph : OrdMap NodeId (List Adjacency)) (st : SpfState) : Prop :=
  st.pathHops[me]? = some 0 ∧
  ∀ (v : NodeId) d p h, v ≠ me → st.distance[v]? = some d → st.firstPeer[v]? = some p →
    st.pathHops[v]? = some h →
    ∃ c k n, Edge graph me p c ∧ CountedWalk (Edge graph) p v k n ∧ d = min (c + k) u32Max ∧
      h = min (n + 1) 255

/-- The label of `v` is no worse than `cost` with first peer `first`. -/
def AtMost (st : SpfState) (v : NodeId) (cost : ℕ) (first : NodeId) : Prop :=
  ∃ d, st.distance[v]? = some d ∧
    (d < cost ∨ d = cost ∧ ∃ p, st.firstPeer[v]? = some p ∧ p ≤ first)

/-- The first peer that `u` offers along an edge to `v`. -/
def offer (me : NodeId) (st : SpfState) (u v : NodeId) : Option NodeId :=
  if u = me then some v else st.firstPeer[u]?

/-- Node `u` has offered distance `d` and its first peer along all its edges. -/
def Offered (me : NodeId) (graph : OrdMap NodeId (List Adjacency)) (st : SpfState) (u : NodeId)
    (d : ℕ) : Prop :=
  ∀ v c first, Edge graph u v c → offer me st u v = some first →
    AtMost st v (min (d + c) u32Max) first

section Step

variable {me : NodeId} {graph : OrdMap NodeId (List Adjacency)} {node : NodeId} {known : ℕ}
  {done : List Adjacency} {st : SpfState} {edge : Adjacency}

/-- A label that is replaced is replaced by a better one. -/
theorem AtMost.replace {v x first first' : NodeId} {cost cost' hops : ℕ}
    (h : AtMost st v cost first) (hrep : st.shouldReplace x cost' first' = true) :
    AtMost (st.replace x cost' hops first') v cost first := by
  obtain ⟨d, hd, hle⟩ := h
  simp only [AtMost, SpfState.replace, OrdMap.get_insert]
  split
  · rename_i heq
    subst heq
    refine ⟨cost', rfl, ?_⟩
    simp only [shouldReplace, hd] at hrep
    split at hrep
    · left
      omega
    · split at hrep
      · rename_i hcost
        rcases hle with hlt | ⟨heq, p, hp, hle⟩
        · left
          omega
        · simp only [hp, Option.any_some, decide_eq_true_eq] at hrep
          exact .inr ⟨hcost.trans heq, first', rfl, hrep.le.trans hle⟩
      · cases hrep
  · exact ⟨d, hd, hle⟩

/-- Without a replacement the label is no worse than the candidate. -/
theorem atMost_of_not_replace (hlabels : Labels me graph st) {v first : NodeId} {cost : ℕ}
    (hpos : 0 < cost) (hrep : ¬ st.shouldReplace v cost first = true) : AtMost st v cost first := by
  obtain ⟨d, hd, hle⟩ := le_of_not_replace hrep
  refine ⟨d, hd, ?_⟩
  rcases Nat.lt_or_eq_of_le hle with hlt | heq
  · exact .inl hlt
  · have hv : v ≠ me := by
      rintro rfl
      rw [hlabels.root] at hd
      cases hd
      omega
    obtain ⟨p, -, -, hp, -⟩ := hlabels.first v d hv hd
    refine .inr ⟨heq, p, hp, ?_⟩
    simp only [shouldReplace, hd, hp, heq, Nat.lt_irrefl, if_false, if_true, Option.any_some,
      decide_eq_true_eq] at hrep
    exact not_lt.mp hrep

/-- The label that is written belongs to the walk it was offered along. -/
theorem Traced.replace (h : Traced me graph st) {v first : NodeId} {cost hops c k n : ℕ}
    (hv : v ≠ me) (hmef : Edge graph me first c) (hwalk : CountedWalk (Edge graph) first v k n)
    (hcost : cost = min (c + k) u32Max) (hhops : hops = min (n + 1) 255) :
    Traced me graph (st.replace v cost hops first) := by
  simp only [Traced, SpfState.replace, OrdMap.get_insert, if_neg hv]
  refine ⟨h.1, ?_⟩
  intro u d p g hu hd hp hg
  split at hd
  · rename_i heq
    subst heq
    rw [if_pos rfl] at hp hg
    cases hd
    cases hp
    cases hg
    exact ⟨c, k, n, hmef, hwalk, hcost, hhops⟩
  · rename_i hne
    rw [if_neg hne] at hp hg
    exact h.2 u d p g hu hd hp hg

/-- The walk behind a candidate. -/
theorem Traced.candidate (h : Traced me graph st) (hlabels : Labels me graph st)
    (hhere : st.distance[node]? = some known) (hedge : Edge graph node edge.peer edge.cost.val)
    {hops : ℕ} {first : NodeId} (hhops : st.pathHops[node]? = some hops)
    (hfirst : offer me st node edge.peer = some first) :
    ∃ c k n, Edge graph me first c ∧ CountedWalk (Edge graph) first edge.peer k n ∧
      min (known + edge.cost.val) u32Max = min (c + k) u32Max ∧
      min (hops + 1) 255 = min (n + 1) 255 := by
  by_cases hme : node = me
  · subst hme
    rw [hlabels.root] at hhere
    rw [h.1] at hhops
    rw [offer, if_pos rfl] at hfirst
    cases hhere
    cases hhops
    cases hfirst
    exact ⟨edge.cost.val, 0, 0, hedge, .nil _, by rw [Nat.zero_add, Nat.add_zero], rfl⟩
  · rw [offer, if_neg hme] at hfirst
    obtain ⟨c, k, n, hmef, hwalk, hd, hn⟩ := h.2 node known first hops hme hhere hfirst hhops
    refine ⟨c, k + edge.cost.val, n + 1, hmef, hwalk.snoc hedge, ?_, ?_⟩
    · rw [hd]
      omega
    · rw [hn]
      omega

/-- The invariant on first peers while the edges of `node` are relaxed. -/
structure Tying (me : NodeId) (graph : OrdMap NodeId (List Adjacency)) (node : NodeId) (known : ℕ)
    (done : List Adjacency) (st : SpfState) : Prop where
  relaxing : Relaxing me graph node known done st
  traced : Traced me graph st
  others : ∀ (u : NodeId) d, u ≠ node → st.distance[u]? = some d →
    toLex (d, u) ∈ st.pending ∨ Offered me graph st u d
  done : ∀ e ∈ done, ∀ first, offer me st node e.peer = some first →
    AtMost st e.peer (min (known + e.cost.val) u32Max) first

theorem offer_replace {u v x first : NodeId} {cost hops : ℕ} (h : x ≠ u) :
    offer me (st.replace x cost hops first) u v = offer me st u v := by
  simp only [offer, SpfState.replace, OrdMap.get_insert, if_neg h]

theorem Tying.relax {st' : SpfState} (h : Tying me graph node known done st)
    (hedge : Edge graph node edge.peer edge.cost.val)
    (hclosed : ∀ u v c, Edge graph u v c → v ∈ graph)
    (hstep : SpfState.relax me node known st edge = some st') :
    Tying me graph node known (done ++ [edge]) st' := by
  obtain ⟨st1, hst1, hrelaxing, -⟩ := h.relaxing.relax hedge hclosed
  cases hst1.symm.trans hstep
  obtain ⟨hops, hhops⟩ := h.relaxing.labels.hops node known h.relaxing.here
  obtain ⟨first, -, -, hfirst, -⟩ := h.relaxing.candidate hedge
  rw [relax_eq hhops hfirst] at hstep
  have hpos : 0 < min (known + edge.cost.val) u32Max := by
    have := edge.cost.pos
    simp only [u32Max]
    omega
  split at hstep
  · rename_i hrep
    cases hstep
    have hself := h.relaxing.not_self hfirst hrep
    obtain ⟨c, k, n, hmef, hwalk, hcost, hn⟩ :=
      h.traced.candidate h.relaxing.labels h.relaxing.here hedge hhops hfirst
    refine ⟨hrelaxing, h.traced.replace (h.relaxing.not_root hrep) hmef hwalk hcost hn, ?_, ?_⟩
    · intro u d hu hd
      by_cases heq : edge.peer = u
      · -- the node that was relabelled is in the heap again
        left
        simp only [SpfState.replace, OrdMap.get_insert, if_pos heq, Option.some.injEq] at hd ⊢
        rw [List.mem_orderedInsert, hd, heq]
        exact .inl rfl
      · have hd' : st.distance[u]? = some d := by
          simpa only [SpfState.replace, OrdMap.get_insert, if_neg heq] using hd
        rcases h.others u d hu hd' with hp | hoffered
        · left
          simp only [SpfState.replace]
          rw [List.mem_orderedInsert]
          exact .inr hp
        · right
          intro v c' first' hedge' hoffer
          rw [offer_replace heq] at hoffer
          exact (hoffered v c' first' hedge' hoffer).replace hrep
    · intro e he first' hoffer
      rw [offer_replace hself] at hoffer
      rcases List.mem_append.mp he with he | he
      · exact (h.done e he first' hoffer).replace hrep
      · rw [List.mem_singleton] at he
        subst he
        cases hfirst.symm.trans hoffer
        simp only [AtMost, SpfState.replace, OrdMap.get_insert, if_true]
        exact ⟨_, rfl, .inr ⟨rfl, first, rfl, le_rfl⟩⟩
  · rename_i hrep
    cases hstep
    refine ⟨hrelaxing, h.traced, h.others, ?_⟩
    intro e he first' hoffer
    rcases List.mem_append.mp he with he | he
    · exact h.done e he first' hoffer
    · rw [List.mem_singleton] at he
      subst he
      cases hfirst.symm.trans hoffer
      exact atMost_of_not_replace h.relaxing.labels hpos hrep

theorem Tying.relaxAll (hclosed : ∀ u v c, Edge graph u v c → v ∈ graph) :
    ∀ {edges done : List Adjacency} {st st' : SpfState}, Tying me graph node known done st →
      (∀ e ∈ edges, Edge graph node e.peer e.cost.val) →
      edges.foldlM (SpfState.relax me node known) st = some st' →
      Tying me graph node known (done ++ edges) st' := by
  intro edges
  induction edges with
  | nil =>
    intro done st st' h _ hfold
    cases hfold
    rw [List.append_nil]
    exact h
  | cons e edges ih =>
    intro done st st' h hedges hfold
    simp only [List.foldlM_cons, bind, Option.bind_eq_some_iff] at hfold
    obtain ⟨st1, h1, h2⟩ := hfold
    have hnext := ih (h.relax (hedges e List.mem_cons_self) hclosed h1)
      (fun x hx => hedges x (List.mem_cons_of_mem _ hx)) h2
    rw [List.append_assoc] at hnext
    exact hnext

end Step

/-! ## The loop -/

/-- The invariant on first peers between two rounds. -/
structure Ties (me : NodeId) (graph : OrdMap NodeId (List Adjacency)) (st : SpfState) : Prop where
  inv : Inv me graph st
  traced : Traced me graph st
  settled : ∀ (u : NodeId) d, st.distance[u]? = some d →
    toLex (d, u) ∈ st.pending ∨ Offered me graph st u d

section Loop

variable {me : NodeId} {graph : OrdMap NodeId (List Adjacency)} {st st' : SpfState}
  {top : ℕ ×ₗ NodeId} {rest : List (ℕ ×ₗ NodeId)}

theorem ties_start (me : NodeId) (graph : OrdMap NodeId (List Adjacency)) :
    Ties me graph (start me) := by
  refine ⟨inv_start me graph, ⟨by simp [start], ?_⟩, ?_⟩
  · intro v d p h hv hd
    exact absurd (distance_start hd).1 hv
  · intro u d hd
    obtain ⟨rfl, rfl⟩ := distance_start hd
    exact .inl (by simp [start])

/-- Popping an entry whose node is labelled otherwise, or has no edges. -/
theorem Ties.pop (h : Ties me graph st) (hp : st.pending = top :: rest)
    (hidle : st.distance[(ofLex top).2]? = some (ofLex top).1 → graph[(ofLex top).2]? = none) :
    Ties me graph { st with pending := rest } := by
  have hnone : st.distance[(ofLex top).2]? = some (ofLex top).1 →
      ∀ v c, ¬ Edge graph (ofLex top).2 v c := by
    rintro hd v c ⟨edges, cost, hedges, -⟩
    rw [hidle hd] at hedges
    cases hedges
  refine ⟨h.inv.pop hp fun hd v c hedge => absurd hedge (hnone hd v c), h.traced, ?_⟩
  intro u d hd
  rcases h.settled u d hd with hmem | hoffered
  · rw [hp] at hmem
    rcases List.mem_cons.mp hmem with heq | hmem
    · subst heq
      exact .inr fun v c first hedge => absurd hedge (hnone hd v c)
    · exact .inl hmem
  · exact .inr hoffered

/-- A round: the edges of a popped node are relaxed. -/
theorem Ties.round {edges : List Adjacency} (h : Ties me graph st)
    (hclosed : ∀ u v c, Edge graph u v c → v ∈ graph) (hp : st.pending = top :: rest)
    (hcur : st.distance[(ofLex top).2]? = some (ofLex top).1)
    (hedges : graph[(ofLex top).2]? = some edges)
    (hfold : edges.foldlM (relax me (ofLex top).2 (ofLex top).1) { st with pending := rest } =
      some st') : Ties me graph st' := by
  have hbefore : Tying me graph (ofLex top).2 (ofLex top).1 [] { st with pending := rest } := by
    refine ⟨h.inv.relaxing hp hcur, h.traced, ?_, by simp⟩
    intro u d hu hd
    rcases h.settled u d hd with hmem | hoffered
    · rw [hp] at hmem
      rcases List.mem_cons.mp hmem with heq | hmem
      · subst heq
        exact absurd rfl hu
      · exact .inl hmem
    · exact .inr hoffered
  have hafter := Tying.relaxAll hclosed hbefore (edge_of_mem hedges) hfold
  rw [List.nil_append] at hafter
  refine ⟨hafter.relaxing.inv hedges, hafter.traced, ?_⟩
  intro u d hd
  by_cases hu : u = (ofLex top).2
  · subst hu
    cases hafter.relaxing.here.symm.trans hd
    right
    rintro v c first ⟨edges', cost, hedges', he, rfl⟩ hoffer
    cases hedges.symm.trans hedges'
    exact hafter.done ⟨v, cost⟩ he first hoffer
  · exact hafter.others u d hu hd

theorem Ties.loop (hclosed : ∀ u v c, Edge graph u v c → v ∈ graph) :
    ∀ {fuel : ℕ} {st st' : SpfState}, Ties me graph st → loop me graph fuel st = some st' →
      Ties me graph st' := by
  intro fuel
  induction fuel with
  | zero =>
    intro st st' _ hloop
    cases hloop
  | succ fuel ih =>
    intro st st' h hloop
    rw [SpfState.loop] at hloop
    split at hloop
    · cases hloop
      exact h
    · rename_i top rest hp
      simp only at hloop
      split at hloop
      · rename_i hstale
        exact ih (h.pop hp fun hd => absurd hd hstale) hloop
      · rename_i hcur
        split at hloop
        · rename_i hnone
          exact ih (h.pop hp fun _ => hnone) hloop
        · rename_i edges hedges
          split at hloop
          · cases hloop
          · rename_i st1 hfold
            exact ih (h.round hclosed hp (not_not.mp hcur) hedges hfold) hloop

end Loop

/-! ## First peers -/

section First

variable {me : NodeId} {graph : OrdMap NodeId (List Adjacency)} {st : SpfState}

/-- A label whose distance cannot be smaller has a first peer as small as any that was offered. -/
theorem AtMost.first {v first : NodeId} {cost d : ℕ} (h : AtMost st v cost first)
    (hd : st.distance[v]? = some d) (hle : cost ≤ d) :
    ∃ p, st.firstPeer[v]? = some p ∧ p ≤ first := by
  obtain ⟨d', hd', hcase⟩ := h
  cases hd.symm.trans hd'
  rcases hcase with hlt | ⟨-, hp⟩
  · exact absurd hlt (not_lt.mpr hle)
  · exact hp

/-- No shortest walk starts with a smaller peer than the label says. -/
theorem Ties.le_first (h : Ties me graph st) (hdone : st.pending = [])
    (hclosed : ∀ u v c, Edge graph u v c → v ∈ graph) (hsize : graph.size ≤ maxLsdbEntries)
    {q v : NodeId} {c k : ℕ} (hedge : Edge graph me q c) (hwalk : Walk (Edge graph) q v k)
    (hdist : IsDist (Edge graph) me v (c + k)) : ∃ p, st.firstPeer[v]? = some p ∧ p ≤ q := by
  have hoffered : ∀ u d, st.distance[u]? = some d → Offered me graph st u d := by
    intro u d hd
    rcases h.settled u d hd with hmem | hoffered
    · rw [hdone] at hmem
      cases hmem
    · exact hoffered
  have hlabel : ∀ {x : NodeId} {d : ℕ}, IsDist (Edge graph) me x d → st.distance[x]? = some d :=
    (h.inv.isDist hdone hclosed hsize).mpr
  -- along the walk every vertex is at the distance the walk has come
  refine Walk.invariant (P := fun x j => IsDist (Edge graph) me x (c + j) →
    ∃ p, st.firstPeer[x]? = some p ∧ p ≤ q) ?_ ?_ hwalk hdist
  · intro hq
    have hat := hoffered me 0 h.inv.labels.root q c q hedge (by rw [offer, if_pos rfl])
    refine hat.first (hlabel hq) ?_
    rw [Nat.zero_add, Nat.add_zero]
    exact Nat.min_le_left _ _
  · intro x w c' j hx ih hedge' hw
    rw [← Nat.add_assoc] at hw
    have hdx : IsDist (Edge graph) me x (c + j) := hw.init (.cons hedge hx) hedge'
    obtain ⟨p, hp, hle⟩ := ih hdx
    have hxme : x ≠ me := by
      rintro rfl
      have hzero := hdx.le 0 (.nil x)
      have hpos := (Edge.bounds _ _ _ hedge).1
      omega
    have hat := hoffered x (c + j) (hlabel hdx) w c' p hedge' (by rw [offer, if_neg hxme]; exact hp)
    obtain ⟨p', hp', hle'⟩ := hat.first (hlabel hw) (Nat.min_le_left _ _)
    exact ⟨p', hp', hle'.trans hle⟩

/-- The first peer and the hops of a label are those of one shortest walk. -/
theorem Ties.trace (h : Ties me graph st)
    (hclosed : ∀ u v c, Edge graph u v c → v ∈ graph) (hsize : graph.size ≤ maxLsdbEntries)
    {v p : NodeId} {d g : ℕ} (hv : v ≠ me) (hd : st.distance[v]? = some d)
    (hdist : IsDist (Edge graph) me v d) (hp : st.firstPeer[v]? = some p)
    (hg : st.pathHops[v]? = some g) :
    ∃ c k n, Edge graph me p c ∧ CountedWalk (Edge graph) p v k n ∧ d = c + k ∧
      g = min (n + 1) 255 := by
  obtain ⟨c, k, n, hedge, hwalk, hmin, hhops⟩ := h.traced.2 v d p g hv hd hp hg
  have hlt := dist_lt hclosed hsize hdist
  exact ⟨c, k, n, hedge, hwalk, by omega, hhops⟩

end First

end SpfState

namespace ControlPlane

open SpfState (Ties)

/-- The peer that some shortest walk to `d` starts with. -/
def FirstHop (p : ControlPlane) (d peer : NodeId) : Prop :=
  ∃ c k, p.Advertised p.me peer c ∧ Walk p.Advertised peer d k ∧
    IsDist p.Advertised p.me d (c + k)

/-- The local links to a peer, by cost and then by link. -/
def linksTo (p : ControlPlane) (peer : NodeId) : Set (LinkCost ×ₗ LinkId) :=
  {x | p.adjacencies[(ofLex x).2]? = some ⟨peer, (ofLex x).1⟩}

theorem bestLinkTo_isLeast {p : ControlPlane} {peer : NodeId} {link : LinkId}
    (h : p.bestLinkTo peer = some link) :
    ∃ cost, IsLeast (p.linksTo peer) (toLex (cost, link)) := by
  simp only [bestLinkTo, Option.map_eq_some_iff] at h
  obtain ⟨⟨l, adj⟩, hmin, rfl⟩ := h
  have hmem := List.argmin_mem hmin
  rw [List.mem_filter, OrdMap.mem_toList, beq_iff_eq] at hmem
  obtain ⟨hget, hpeer⟩ := hmem
  refine ⟨adj.cost, ?_, ?_⟩
  · change p.adjacencies[l]? = some ⟨peer, adj.cost⟩
    rw [hget, ← hpeer]
  · intro x hx
    have hx : p.adjacencies[(ofLex x).2]? = some ⟨peer, (ofLex x).1⟩ := hx
    have hin : ((ofLex x).2, (⟨peer, (ofLex x).1⟩ : LocalAdjacency)) ∈
        p.adjacencies.toList.filter fun e => e.2.peer == peer := by
      rw [List.mem_filter, OrdMap.mem_toList]
      exact ⟨hx, beq_self_eq_true _⟩
    have hle := List.le_of_mem_argmin hin hmin
    exact hle

theorem lsa_eq_stored (p : ControlPlane) (o : NodeId) :
    p.lsa o = (p.stored o).map LsaMessage.lsa := by
  simp only [lsa, stored, Option.map_map]
  rfl

/-- A peer that the node advertises is at the end of one of its links. -/
theorem Describes.link {p : ControlPlane} (h : Describes p) {peer : NodeId} {c : ℕ}
    (hadv : p.Advertised p.me peer c) : ∃ link, p.bestLinkTo peer = some link := by
  obtain ⟨lsa, cost, hlsa, hmem, -, -⟩ := hadv
  rw [lsa_eq_stored, Option.map_eq_some_iff] at hlsa
  obtain ⟨m, hm, rfl⟩ := hlsa
  rw [h m hm, localLsa_adjacencies] at hmem
  obtain ⟨⟨⟨link, adj⟩, hlink, hpeer, -⟩, -⟩ := hmem
  have hbest := bestLinkTo_isSome (OrdMap.mem_toList.mp hlink)
  rw [hpeer] at hbest
  exact hbest

theorem Reached.describes {verifier : LsaMessage → Bool} {p : ControlPlane}
    (h : Reached verifier p) : Describes p := by
  obtain ⟨me, epoch, lastSeq, signer, events, acts, hsigns, hrun⟩ := h
  refine (emitAll_inv (P := fun s => Regular verifier s ∧ Describes s) ?_ ⟨?_, ?_⟩ hrun).2
  · rintro s x s' out ⟨hregular, hs⟩ hstep
    exact ⟨hregular.step hstep, hs.step hregular.signs.lsa (handle_spec hstep).effect⟩
  · exact (fits_new hsigns me epoch lastSeq).regular
  · exact (fits_new hsigns me epoch lastSeq).describes

/-- In every state a node can be in, `shortest_paths` returns, and it has a route to exactly the
destinations that can be reached over adjacencies advertised by both ends. A route has the exact
distance; its link is the one of least cost, then of least number, to the smallest peer that a
shortest walk starts with; and its hops are the edges, at most 255, of a shortest walk that starts
with this peer. -/
theorem shortest_paths_correct {verifier : LsaMessage → Bool} {p : ControlPlane}
    (h : Reached verifier p) :
    ∃ routes, p.shortestPaths = some routes ∧ ∀ d, d ≠ p.me →
      ((∃ r, routes[d]? = some r) ↔ ∃ k, Walk p.Advertised p.me d k) ∧
      ∀ r, routes[d]? = some r → IsDist p.Advertised p.me d r.cost ∧
        ∃ peer, IsLeast {x | p.FirstHop d x} peer ∧
          (∃ cost, IsLeast (p.linksTo peer) (toLex (cost, r.nextHop))) ∧
          ∃ c k n, p.Advertised p.me peer c ∧ CountedWalk p.Advertised peer d k n ∧
            IsDist p.Advertised p.me d (c + k) ∧ r.hops = min (n + 1) 255 := by
  have hsize := h.regular.size_le
  obtain ⟨routes, hroutes⟩ := shortestPaths_total p
  refine ⟨routes, hroutes, fun d hd => ?_⟩
  obtain ⟨hsound, hcomplete⟩ := routes_spec hroutes hsize d
  refine ⟨⟨?_, ?_⟩, ?_⟩
  · rintro ⟨r, hr⟩
    exact ⟨r.cost, (hsound r hr).2.1.walk⟩
  · rintro ⟨k, hwalk⟩
    obtain ⟨j, hdist⟩ := hwalk.exists_isDist
    obtain ⟨r, hr, -⟩ := hcomplete j hd hdist fun peer c hadv => h.describes.link hadv
    exact ⟨r, hr⟩
  · intro r hr
    have hdist := (hsound r hr).2.1
    refine ⟨hdist, ?_⟩
    obtain ⟨st, hloop, hinv, hdone⟩ := p.loop_ends
    have hties : Ties p.me p.bidirectionalGraph st :=
      (SpfState.ties_start _ _).loop p.graph_closed hloop
    have hgraph := p.graph_size_le.trans hsize
    have hdist' := hdist
    rw [← edge_eq] at hdist'
    have hlabel := (hinv.isDist hdone p.graph_closed hgraph).mpr hdist'
    obtain ⟨peer, -, -, hpeer, -⟩ := hinv.labels.first d _ hd hlabel
    obtain ⟨hops, hhops⟩ := hinv.labels.hops d _ hlabel
    obtain ⟨c, k, n, hedge, hwalk, hsum, hn⟩ :=
      hties.trace p.graph_closed hgraph hd hlabel hdist' hpeer hhops
    -- the route was made from the label
    have hroute : p.bestLinkTo peer = some r.nextHop ∧ r.hops = hops := by
      rw [shortestPaths_eq hloop] at hroutes
      rw [get_collectM hroutes d, hlabel] at hr
      simp only [Option.bind_some, routeTo, if_neg hd, hpeer, bind] at hr
      split at hr
      · cases hr
      · rename_i link hlink
        simp only [hhops, Option.bind_some, Option.join_some, Option.some.injEq] at hr
        rw [← hr]
        exact ⟨hlink, rfl⟩
    rw [edge_eq] at hedge hwalk
    refine ⟨peer, ⟨⟨c, k, hedge, hwalk.walk, hsum ▸ hdist⟩, ?_⟩, bestLinkTo_isLeast hroute.1,
      c, k, n, hedge, hwalk, hsum ▸ hdist, hroute.2.trans hn⟩
    rintro q ⟨c', k', hadv, hwalk', hdist''⟩
    rw [← edge_eq] at hadv hwalk' hdist''
    obtain ⟨p', hp', hle⟩ := hties.le_first hdone p.graph_closed hgraph hadv hwalk' hdist''
    cases hpeer.symm.trans hp'
    exact hle

/-! Node 1 has links to 3 and to 2, and both reach 4 at the same cost. -/

def diamondLsa (origin : NodeId) (peers : List NodeId) : ControlFrame :=
  .lsa (unsecuredSign
    { origin := origin, epoch := 1, seq := 1, ttlSec := 300, topics := []
      adjacencies := peers.map fun peer => ⟨peer, unitCost⟩ })

def diamondEvents : List (MonoTime × ControlEvent) :=
  [(0, .linkUp 5 (.ofByte 3) unitCost), (0, .linkUp 6 (.ofByte 2) unitCost),
    (0, .frame 5 (diamondLsa (.ofByte 3) [.ofByte 1, .ofByte 4])),
    (0, .frame 6 (diamondLsa (.ofByte 2) [.ofByte 1, .ofByte 4])),
    (0, .frame 6 (diamondLsa (.ofByte 4) [.ofByte 2, .ofByte 3]))]

theorem shortest_paths_correct_diamond :
    ∃ p acts routes r, (newUnsecuredWithSeq (.ofByte 1) 1 0).run diamondEvents = some (p, acts) ∧
      p.shortestPaths = some routes ∧ routes[NodeId.ofByte 4]? = some r ∧ r = ⟨6, 2, 2⟩ ∧
      IsDist p.Advertised (.ofByte 1) (.ofByte 4) 2 := by
  have hfacts : ((newUnsecuredWithSeq (.ofByte 1) 1 0).run diamondEvents).bind (fun r =>
      r.1.shortestPaths.map fun routes => decide
        (routes[NodeId.ofByte 4]? = some ⟨6, 2, 2⟩ ∧ r.1.me = .ofByte 1)) = some true := by
    decide +kernel
  obtain ⟨⟨p, acts⟩, hrun, hrest⟩ := Option.bind_eq_some_iff.mp hfacts
  obtain ⟨routes, hroutes, hdec⟩ := Option.map_eq_some_iff.mp hrest
  obtain ⟨hr, hme⟩ := of_decide_eq_true hdec
  have hme : p.me = .ofByte 1 := hme
  have hreached : Reached unsecuredVerify p :=
    ⟨_, _, _, _, _, acts, ⟨fun _ => rfl, fun _ => rfl⟩, hrun⟩
  obtain ⟨routes', hroutes', hall⟩ := shortest_paths_correct hreached
  cases hroutes.symm.trans hroutes'
  have hdist := ((hall (.ofByte 4) (by rw [hme]; decide)).2 _ hr).1
  rw [hme] at hdist
  exact ⟨p, acts, routes, _, hrun, hroutes, hr, rfl, hdist⟩

end ControlPlane
end Control
end MeshBus
