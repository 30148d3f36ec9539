import MeshBus.Control.Dijkstra
import MeshBus.Control.Plane

/-!
# Control.Routing

Hop-by-hop forwarding over a converged mesh. Every node computes its routes alone, from its own
root and with its own tie-breaks; since all of them hold the same LSAs, each next hop lies on a
shortest walk, so the distance to the destination drops by the cost of every edge taken.

* `shortestPaths_total`: the route computation returns on every database.
* `routes_spec`: the routes of a node are its distances, and a next hop starts a shortest walk.
* `hop_by_hop`: following next hops reaches the destination, at the cost of the first route, and
  visits no node twice.
-/

namespace MeshBus
namespace Control
namespace ControlPlane

open SpfState (Edge)

/-- An adjacency that both ends advertise, with the cost its origin gives. -/
def Advertised (p : ControlPlane) (u v : NodeId) (c : ℕ) : Prop :=
  ∃ lsa cost, p.lsa u = some lsa ∧ ⟨v, cost⟩ ∈ lsa.adjacencies ∧ cost.val = c ∧
    ∃ lsa', p.lsa v = some lsa' ∧ ∃ back ∈ lsa'.adjacencies, back.peer = u

theorem graph_get (p : ControlPlane) (u : NodeId) :
    p.bidirectionalGraph[u]? = (p.lsa u).map fun lsa => lsa.adjacencies.filter fun edge =>
      (p.lsa edge.peer).any fun peerLsa => peerLsa.adjacencies.any fun back => back.peer == u := by
  rw [bidirectionalGraph, Std.ExtTreeMap.getElem?_filterMap']
  cases h : p.lsdb[u]? with
  | none => simp [lsa, h]
  | some e => cases ha : e.active <;> simp [lsa, h, ha]

theorem edge_iff {p : ControlPlane} {u v : NodeId} {c : ℕ} :
    Edge p.bidirectionalGraph u v c ↔ p.Advertised u v c := by
  simp only [Edge, graph_get, Option.map_eq_some_iff]
  constructor
  · rintro ⟨edges, cost, ⟨lsa, hlsa, rfl⟩, hmem, rfl⟩
    rw [List.mem_filter] at hmem
    obtain ⟨hmem, hback⟩ := hmem
    simp only [Option.any_eq_true, List.any_eq_true, beq_iff_eq] at hback
    obtain ⟨lsa', hlsa', back, hb, hpeer⟩ := hback
    exact ⟨lsa, cost, hlsa, hmem, rfl, lsa', hlsa', back, hb, hpeer⟩
  · rintro ⟨lsa, cost, hlsa, hmem, rfl, lsa', hlsa', back, hb, hpeer⟩
    refine ⟨_, cost, ⟨lsa, hlsa, rfl⟩, ?_, rfl⟩
    rw [List.mem_filter]
    refine ⟨hmem, ?_⟩
    simp only [Option.any_eq_true, List.any_eq_true, beq_iff_eq]
    exact ⟨lsa', hlsa', back, hb, hpeer⟩

theorem edge_eq (p : ControlPlane) : Edge p.bidirectionalGraph = p.Advertised := by
  funext u v c
  exact propext edge_iff

/-- The far end of an advertised adjacency has an active LSA, so it is a node of the graph. -/
theorem graph_closed (p : ControlPlane) :
    ∀ u v c, Edge p.bidirectionalGraph u v c → v ∈ p.bidirectionalGraph := by
  intro u v c h
  obtain ⟨lsa, cost, -, -, -, lsa', hlsa', -⟩ := edge_iff.mp h
  rw [OrdMap.mem_iff_get, graph_get, hlsa']
  exact ⟨_, rfl⟩

theorem graph_size_le (p : ControlPlane) : p.bidirectionalGraph.size ≤ p.lsdb.size :=
  Std.ExtTreeMap.size_filterMap_le_size

/-! ## The local link to a peer -/

theorem bestLinkTo_some {p : ControlPlane} {peer : NodeId} {link : LinkId}
    (h : p.bestLinkTo peer = some link) :
    ∃ adj, p.adjacencies[link]? = some adj ∧ adj.peer = peer := by
  simp only [bestLinkTo, Option.map_eq_some_iff] at h
  obtain ⟨⟨l, adj⟩, hmin, rfl⟩ := h
  have hmem := List.argmin_mem hmin
  rw [List.mem_filter, OrdMap.mem_toList, beq_iff_eq] at hmem
  exact ⟨adj, hmem.1, hmem.2⟩

theorem bestLinkTo_isSome {p : ControlPlane} {link : LinkId} {adj : LocalAdjacency}
    (h : p.adjacencies[link]? = some adj) : ∃ best, p.bestLinkTo adj.peer = some best := by
  cases hbest : p.bestLinkTo adj.peer with
  | some best => exact ⟨best, rfl⟩
  | none =>
    simp only [bestLinkTo, Option.map_eq_none_iff, List.argmin_eq_none] at hbest
    have hmem : (link, adj) ∈ p.adjacencies.toList.filter fun e => e.2.peer == adj.peer := by
      rw [List.mem_filter, OrdMap.mem_toList]
      exact ⟨h, beq_self_eq_true _⟩
    rw [hbest] at hmem
    cases hmem

/-! ## Routes -/

theorem get_collectM {κ ν μ : Type*} [LinearOrder κ] {f : κ → ν → Option (Option μ)}
    {m : OrdMap κ ν} {m' : OrdMap κ μ} (h : m.collectM f = some m') (k : κ) :
    m'[k]? = m[k]?.bind fun v => (f k v).join := by
  simp only [OrdMap.collectM] at h
  split at h
  · cases h
    exact Std.ExtTreeMap.getElem?_filterMap'
  · cases h

/-- The loop ends with closed labels, within its fuel. -/
theorem loop_ends (p : ControlPlane) : ∃ st,
    SpfState.loop p.me p.bidirectionalGraph (spfFuel p.bidirectionalGraph) (.start p.me) = some st ∧
    SpfState.Inv p.me p.bidirectionalGraph st ∧ st.pending = [] :=
  SpfState.loop_spec p.graph_closed (SpfState.inv_start _ _) (SpfState.potential_start _ _)

theorem shortestPaths_eq {p : ControlPlane} {st : SpfState}
    (h : SpfState.loop p.me p.bidirectionalGraph (spfFuel p.bidirectionalGraph) (.start p.me) =
      some st) : p.shortestPaths = st.distance.collectM (p.routeTo st) := by
  rw [shortestPaths, h]
  rfl

theorem shortestPaths_total (p : ControlPlane) : ∃ routes, p.shortestPaths = some routes := by
  obtain ⟨st, hloop, hinv, -⟩ := p.loop_ends
  have hall : (st.distance.toList.all fun e => (p.routeTo st e.1 e.2).isSome) = true := by
    rw [List.all_eq_true]
    rintro ⟨v, d⟩ hmem
    rw [OrdMap.mem_toList] at hmem
    obtain ⟨hops, hhops⟩ := hinv.labels.hops v d hmem
    simp only [routeTo]
    split
    · rfl
    · rename_i hv
      obtain ⟨peer, c, k, hpeer, -⟩ := hinv.labels.first v d hv hmem
      simp only [hpeer, bind, Option.bind_some]
      split
      · rfl
      · simp [hhops]
  rw [shortestPaths_eq hloop, OrdMap.collectM, if_pos hall]
  exact ⟨_, rfl⟩

/-- The routes of a node whose database has at most `maxLsdbEntries` entries: exactly the
reachable destinations whose first peer is a local peer, at their distance. -/
theorem routes_spec {p : ControlPlane} {routes : OrdMap NodeId Route}
    (h : p.shortestPaths = some routes) (hsize : p.lsdb.size ≤ maxLsdbEntries) (d : NodeId) :
    (∀ r, routes[d]? = some r → d ≠ p.me ∧ IsDist p.Advertised p.me d r.cost ∧
      ∃ peer c k, p.bestLinkTo peer = some r.nextHop ∧ p.Advertised p.me peer c ∧
        Walk p.Advertised peer d k ∧ r.cost = c + k) ∧
    (∀ k, d ≠ p.me → IsDist p.Advertised p.me d k →
      (∀ peer c, p.Advertised p.me peer c → ∃ link, p.bestLinkTo peer = some link) →
      ∃ r, routes[d]? = some r ∧ r.cost = k) := by
  obtain ⟨st, hloop, hinv, hdone⟩ := p.loop_ends
  have hgraph := p.graph_size_le.trans hsize
  have hdist : ∀ {k}, st.distance[d]? = some k ↔ IsDist p.Advertised p.me d k := by
    intro k
    rw [← edge_eq]
    exact hinv.isDist hdone p.graph_closed hgraph
  have hfirst : ∀ {k}, d ≠ p.me → st.distance[d]? = some k → ∃ peer c j,
      st.firstPeer[d]? = some peer ∧ p.Advertised p.me peer c ∧ Walk p.Advertised peer d j ∧
      k = c + j := by
    intro k hd hk
    have hk' := hdist.mp hk
    rw [← edge_eq] at hk' ⊢
    exact hinv.first p.graph_closed hgraph hd hk hk'
  rw [shortestPaths_eq hloop] at h
  have hget := get_collectM h d
  refine ⟨?_, ?_⟩
  · intro r hr
    rw [hget] at hr
    cases hk : st.distance[d]? with
    | none => simp [hk] at hr
    | some k =>
      simp only [hk, Option.bind_some, routeTo] at hr
      split at hr
      · simp at hr
      · rename_i hd
        obtain ⟨peer, c, j, hpeer, hadv, hwalk, hsum⟩ := hfirst hd hk
        obtain ⟨hops, hhops⟩ := hinv.labels.hops d k hk
        simp only [hpeer, bind, Option.bind_some] at hr
        split at hr
        · simp at hr
        · rename_i link hlink
          simp only [hhops, Option.bind_some, Option.join_some, Option.some.injEq] at hr
          subst hr
          exact ⟨hd, hdist.mp hk, peer, c, j, hlink, hadv, hwalk, hsum⟩
  · intro k hd hk hlinks
    have hlabel := hdist.mpr hk
    obtain ⟨peer, c, j, hpeer, hadv, -, -⟩ := hfirst hd hlabel
    obtain ⟨link, hlink⟩ := hlinks peer c hadv
    obtain ⟨hops, hhops⟩ := hinv.labels.hops d k hlabel
    refine ⟨⟨link, k, hops⟩, ?_, rfl⟩
    rw [hget, hlabel]
    simp [routeTo, hd, hpeer, hlink, hhops]

/-! ## A converged mesh -/

/-- The costs of the given links to `peer`. -/
def costsTo (links : List (LinkId × LocalAdjacency)) (peer : NodeId) : Set LinkCost :=
  {cost | ∃ e ∈ links, e.2.peer = peer ∧ e.2.cost = cost}

/-- `cost` is the least cost of the local links to `peer`. -/
def LeastCost (p : ControlPlane) (peer : NodeId) (cost : LinkCost) : Prop :=
  IsLeast (costsTo p.adjacencies.toList peer) cost

theorem costsTo_append (l : List (LinkId × LocalAdjacency)) (e : LinkId × LocalAdjacency)
    (peer : NodeId) :
    costsTo (l ++ [e]) peer =
      if e.2.peer = peer then insert e.2.cost (costsTo l peer) else costsTo l peer := by
  ext cost
  split
  · rename_i hp
    simp [costsTo, hp, or_and_right, exists_or, eq_comm, or_comm]
  · rename_i hp
    simp [costsTo, hp, or_and_right, exists_or]

theorem bestOf_append (l : List (LinkId × LocalAdjacency)) (e : LinkId × LocalAdjacency)
    (peer : NodeId) :
    (bestOf (l ++ [e]))[peer]? =
      if e.2.peer = peer then
        match (bestOf l)[peer]? with
        | none => some e.2.cost
        | some cost => some (min cost e.2.cost)
      else (bestOf l)[peer]? := by
  simp only [bestOf, List.foldl_append, List.foldl_cons, List.foldl_nil]
  rw [Std.ExtTreeMap.getElem?_alter]
  simp only [compare_eq_iff_eq]
  split
  · rename_i h
    subst h
    rfl
  · rfl

theorem bestOf_spec (l : List (LinkId × LocalAdjacency)) (peer : NodeId) :
    match (bestOf l)[peer]? with
    | none => costsTo l peer = ∅
    | some cost => IsLeast (costsTo l peer) cost := by
  induction l using List.reverseRecOn with
  | nil => simp [bestOf, costsTo]
  | append_singleton l e ih =>
    rw [bestOf_append, costsTo_append]
    by_cases hp : e.2.peer = peer
    · cases hb : (bestOf l)[peer]? with
      | none =>
        simp only [hb, if_pos hp] at ih ⊢
        rw [ih, insert_empty_eq]
        exact isLeast_singleton
      | some cost =>
        simp only [hb, if_pos hp] at ih ⊢
        rw [min_comm]
        exact ih.insert e.2.cost
    · simp only [if_neg hp]
      exact ih

/-- The LSA a node originates lists exactly the least cost to each local peer. -/
theorem localLsa_adjacencies {p : ControlPlane} {seq : UInt64} {peer : NodeId} {cost : LinkCost} :
    ⟨peer, cost⟩ ∈ (p.localLsa seq).adjacencies ↔ p.LeastCost peer cost := by
  have hmem : ⟨peer, cost⟩ ∈ (p.localLsa seq).adjacencies ↔
      (bestOf p.adjacencies.toList)[peer]? = some cost := by
    simp only [localLsa, bestByPeer, List.mem_map, Adjacency.mk.injEq]
    rw [← OrdMap.mem_toList]
    constructor
    · rintro ⟨⟨k, c⟩, h, rfl, rfl⟩
      exact h
    · exact fun h => ⟨_, h, rfl, rfl⟩
  have hbest := bestOf_spec p.adjacencies.toList peer
  rw [hmem, LeastCost]
  split at hbest
  · rename_i hnone
    rw [hnone, hbest]
    simp [IsLeast]
  · rename_i best hsome
    rw [hsome, Option.some.injEq]
    constructor
    · rintro rfl
      exact hbest
    · exact hbest.unique

/-- Nodes by id that hold the same active LSAs. A database never has more than `maxLsdbEntries`
entries (`ControlPlane.run_size_le`). -/
structure Converged (mesh : OrdMap NodeId ControlPlane) : Prop where
  me : ∀ (i : NodeId) p, mesh[i]? = some p → p.me = i
  same : ∀ (i j : NodeId) p q, mesh[i]? = some p → mesh[j]? = some q → ∀ o, p.lsa o = q.lsa o
  own : ∀ (i : NodeId) p lsa, mesh[i]? = some p → p.lsa i = some lsa →
    ∀ peer cost, ⟨peer, cost⟩ ∈ lsa.adjacencies ↔ p.LeastCost peer cost
  peers : ∀ (i : NodeId) p (link : LinkId) adj, mesh[i]? = some p →
    p.adjacencies[link]? = some adj → adj.peer ∈ mesh
  routes : ∀ (i : NodeId) p, mesh[i]? = some p → p.shortestPaths = some p.routes.routes
  size : ∀ (i : NodeId) p, mesh[i]? = some p → p.lsdb.size ≤ maxLsdbEntries

/-- Node `s` sends what is for `d` over its next hop, a link to `peer`, and advertises `c` for that
edge. -/
def Hop (mesh : OrdMap NodeId ControlPlane) (d s peer : NodeId) (c : ℕ) : Prop :=
  ∃ p route adj lsa cost, mesh[s]? = some p ∧ p.routes.get d = some route ∧
    p.adjacencies[route.nextHop]? = some adj ∧ adj.peer = peer ∧
    p.lsa s = some lsa ∧ ⟨peer, cost⟩ ∈ lsa.adjacencies ∧ cost.val = c

theorem advertised_congr {p q : ControlPlane} (h : ∀ o, p.lsa o = q.lsa o) :
    p.Advertised = q.Advertised := by
  funext u v c
  simp only [Advertised, h]

/-- A peer a node of the mesh advertises is at the end of a local link. -/
theorem Converged.local_link {mesh : OrdMap NodeId ControlPlane} (h : Converged mesh)
    {i : NodeId} {p : ControlPlane} (hi : mesh[i]? = some p) {peer : NodeId} {c : ℕ}
    (hadv : p.Advertised i peer c) :
    ∃ (link : LinkId) (cost : LinkCost), p.adjacencies[link]? = some ⟨peer, cost⟩ := by
  obtain ⟨lsa, cost, hlsa, hmem, -, -⟩ := hadv
  obtain ⟨⟨⟨link, adj⟩, hlink, rfl, rfl⟩, -⟩ := (h.own i p lsa hi hlsa peer cost).mp hmem
  exact ⟨link, adj.cost, OrdMap.mem_toList.mp hlink⟩

theorem Converged.hop {mesh : OrdMap NodeId ControlPlane} (h : Converged mesh) {i d : NodeId}
    {p : ControlPlane} (hi : mesh[i]? = some p) (hne : i ≠ d) {k : ℕ}
    (hdist : IsDist p.Advertised i d k) :
    ∃ peer c j, Hop mesh d i peer c ∧ p.Advertised i peer c ∧ peer ∈ mesh ∧
      Walk p.Advertised peer d j ∧ k = c + j := by
  have hme := h.me i p hi
  obtain ⟨hsound, hcomplete⟩ := routes_spec (h.routes i p hi) (h.size i p hi) d
  rw [hme] at hsound hcomplete
  obtain ⟨r, hr, rfl⟩ := hcomplete k (Ne.symm hne) hdist fun peer c hadv => by
    obtain ⟨link, cost, hlink⟩ := h.local_link hi hadv
    exact bestLinkTo_isSome hlink
  obtain ⟨-, -, peer, c, j, hlink, hadv, hwalk, hsum⟩ := hsound r hr
  obtain ⟨adj, hadj, hpeer⟩ := bestLinkTo_some hlink
  have hadv' := hadv
  obtain ⟨lsa, cost, hlsa, hmem, hcost, -⟩ := hadv'
  refine ⟨peer, c, j, ?_, hadv, ?_, hwalk, hsum⟩
  · exact ⟨p, r, adj, lsa, cost, hi, hr, hadj, hpeer, hlsa, hmem, hcost⟩
  · rw [← hpeer]
    exact h.peers i p _ adj hi hadj

/-- Following next hops from any node that has a route to `d` reaches `d`, visits no node twice,
and costs what the route says; every node visited before `d` has a route to `d`, and no walk over
advertised adjacencies is cheaper. -/
theorem hop_by_hop {mesh : OrdMap NodeId ControlPlane} (h : Converged mesh) {s d : NodeId}
    {p : ControlPlane} {route : Route} (hs : mesh[s]? = some p)
    (hroute : p.routes.get d = some route) :
    ∃ path, Follows (Hop mesh d) d s path route.cost ∧ path.Nodup ∧
      ∀ k, Walk p.Advertised s d k → route.cost ≤ k := by
  obtain ⟨-, hdist, -⟩ := (routes_spec (h.routes s p hs) (h.size s p hs) d).1 route hroute
  rw [h.me s p hs] at hdist
  have hpos : ∀ u v c, p.Advertised u v c → 0 < c := by
    rintro u v c ⟨lsa, cost, -, -, rfl, -⟩
    exact cost.pos
  obtain ⟨path, hpath, hnd, -⟩ := exists_follows (Hop mesh d) hpos (fun x => x ∈ mesh)
    (fun x k hx hne hk => by
      obtain ⟨q, hq⟩ := OrdMap.mem_iff_get.mp hx
      rw [advertised_congr (h.same s x p q hs hq)] at hk ⊢
      exact h.hop hq hne hk)
    route.cost s (OrdMap.mem_iff_get.mpr ⟨p, hs⟩) hdist
  exact ⟨path, hpath, hnd, hdist.le⟩

/-! A triangle whose direct link from node 1 to node 3 is dearer than the way over node 2. -/

/-- A node with two local links. -/
def triangleBase (i j k : UInt8) (costJ costK : LinkCost) : ControlPlane :=
  { newUnsecuredWithSeq (.ofByte i) 1 0 with
    adjacencies := ((∅ : OrdMap LinkId LocalAdjacency).insert 0 ⟨.ofByte j, costJ⟩).insert 1
      ⟨.ofByte k, costK⟩ }

def triangleBases : List ControlPlane :=
  [triangleBase 1 2 3 unitCost ⟨9, by decide, by decide⟩,
    triangleBase 2 1 3 unitCost ⟨2, by decide, by decide⟩,
    triangleBase 3 1 2 ⟨9, by decide, by decide⟩ ⟨2, by decide, by decide⟩]

def triangleLsdb : OrdMap NodeId LsdbEntry :=
  triangleBases.foldl (fun lsdb base => lsdb.insert base.me
    { version := ⟨1, 1⟩
      state := .active
        { message := unsecuredSign (base.localLsa 1), receivedAt := 0, expiresAt := 300000 } }) ∅

/-- The node with the common database and the routes it computes from it. -/
def triangleNode (base : ControlPlane) : ControlPlane :=
  let node := { base with lsdb := triangleLsdb }
  { node with routes := ⟨1, node.shortestPaths.getD ∅⟩ }

def triangle : OrdMap NodeId ControlPlane :=
  triangleBases.foldl (fun mesh base => mesh.insert base.me (triangleNode base)) ∅

theorem triangle_get {i : NodeId} {p : ControlPlane} (h : triangle[i]? = some p) :
    ∃ base ∈ triangleBases, base.me = i ∧ p = triangleNode base := by
  simp only [triangle, triangleBases, List.foldl_cons, List.foldl_nil, OrdMap.get_insert] at h
  split at h
  · rename_i heq
    cases h
    exact ⟨_, by simp [triangleBases], heq, rfl⟩
  · split at h
    · rename_i heq
      cases h
      exact ⟨_, by simp [triangleBases], heq, rfl⟩
    · split at h
      · rename_i heq
        cases h
        exact ⟨_, by simp [triangleBases], heq, rfl⟩
      · simp at h

theorem triangle_converged : Converged triangle := by
  have hlsa : ∀ base ∈ triangleBases, (triangleNode base).lsa base.me = some (base.localLsa 1) := by
    decide +kernel
  have hpeers : ∀ base ∈ triangleBases,
      base.adjacencies.toList.all fun e => triangle.contains e.2.peer := by
    decide +kernel
  have hsize : triangleLsdb.size ≤ maxLsdbEntries := by decide +kernel
  refine ⟨?_, ?_, ?_, ?_, ?_, ?_⟩
  · intro i p hi
    obtain ⟨base, -, rfl, rfl⟩ := triangle_get hi
    rfl
  · intro i j p q hi hj o
    obtain ⟨base, -, -, rfl⟩ := triangle_get hi
    obtain ⟨base', -, -, rfl⟩ := triangle_get hj
    rfl
  · intro i p lsa hi hown peer cost
    obtain ⟨base, hbase, rfl, rfl⟩ := triangle_get hi
    rw [hlsa base hbase] at hown
    cases hown
    exact localLsa_adjacencies
  · intro i p link adj hi hadj
    obtain ⟨base, hbase, rfl, rfl⟩ := triangle_get hi
    have hall := List.all_eq_true.mp (hpeers base hbase) (link, adj) (OrdMap.mem_toList.mpr hadj)
    exact Std.ExtTreeMap.mem_iff_contains.mpr hall
  · intro i p hi
    obtain ⟨base, -, -, rfl⟩ := triangle_get hi
    obtain ⟨routes, hroutes⟩ := shortestPaths_total { base with lsdb := triangleLsdb }
    have hsame : (triangleNode base).shortestPaths =
        ({ base with lsdb := triangleLsdb } : ControlPlane).shortestPaths := rfl
    rw [hsame, hroutes]
    simp [triangleNode, hroutes]
  · intro i p hi
    obtain ⟨base, -, -, rfl⟩ := triangle_get hi
    exact hsize

theorem hop_by_hop_triangle :
    ∃ p route, Converged triangle ∧ triangle[NodeId.ofByte 1]? = some p ∧
      p.routes.get (.ofByte 3) = some route ∧ route.cost = 3 ∧
      ∃ path, Follows (Hop triangle (.ofByte 3)) (.ofByte 3) (.ofByte 1) path route.cost ∧
        path.Nodup ∧ ∀ k, Walk p.Advertised (.ofByte 1) (.ofByte 3) k → route.cost ≤ k := by
  have hroute : ((triangle[NodeId.ofByte 1]?).bind fun p => p.routes.get (.ofByte 3)) =
      some ⟨0, 3, 2⟩ := by
    decide +kernel
  obtain ⟨p, hp, hr⟩ := Option.bind_eq_some_iff.mp hroute
  exact ⟨p, _, triangle_converged, hp, hr, rfl, hop_by_hop triangle_converged hp hr⟩

end ControlPlane
end Control
end MeshBus
