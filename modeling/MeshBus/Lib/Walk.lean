import Mathlib

/-!
# Lib.Walk

Walks and distances in a directed graph with natural weights, given as the relation
`E u v c`: there is an edge from `u` to `v` of weight `c`. Parallel edges are allowed.

* `CountedWalk E u v k n`: a walk of weight `k` with `n` edges.
* `IsDist E u v d`: `d` is the least weight of a walk from `u` to `v`.
* `IsDist.le_mul_card`: with weights in `1..W`, a distance is at most `W` times the number of
  nearer vertices.
* `Follows hop t s path k`: taking hops from `s` leads to `t` along `path`, at weight `k`. By
  `exists_follows`, hops that lie on shortest walks reach `t` and repeat no vertex.
-/

namespace MeshBus

variable {V : Type*} {E : V → V → ℕ → Prop}

/-- A walk and its weight. -/
inductive Walk (E : V → V → ℕ → Prop) : V → V → ℕ → Prop
  | nil (v : V) : Walk E v v 0
  | cons {u v w : V} {c k : ℕ} (edge : E u v c) (rest : Walk E v w k) : Walk E u w (c + k)

theorem Walk.snoc {u v w : V} {c k : ℕ} (h : Walk E u v k) (edge : E v w c) :
    Walk E u w (k + c) := by
  induction h with
  | nil v =>
    have hw := Walk.cons edge (.nil w)
    rwa [Nat.add_comm] at hw
  | cons edge' _ ih =>
    rw [Nat.add_assoc]
    exact .cons edge' (ih edge)

/-- The last edge of a walk. -/
theorem Walk.last {u w : V} {k : ℕ} (h : Walk E u w k) :
    (u = w ∧ k = 0) ∨ ∃ v c k', Walk E u v k' ∧ E v w c ∧ k = k' + c := by
  induction h with
  | nil v => exact .inl ⟨rfl, rfl⟩
  | @cons u v w c k edge _ ih =>
    refine .inr ?_
    rcases ih with ⟨rfl, rfl⟩ | ⟨x, c', k', hw, hedge, rfl⟩
    · exact ⟨u, c, 0, .nil u, edge, by omega⟩
    · exact ⟨x, c', c + k', .cons edge hw, hedge, by omega⟩

/-- Induction on the last edge: what holds at the start and is passed on by every edge. -/
theorem Walk.invariant {P : V → ℕ → Prop} {u : V} (start : P u 0)
    (step : ∀ v w c k, Walk E u v k → P v k → E v w c → P w (k + c)) {w : V} {k : ℕ}
    (h : Walk E u w k) : P w k := by
  suffices key : ∀ {v w : V} {j : ℕ}, Walk E v w j → ∀ k, Walk E u v k → P v k → P w (k + j) by
    have := key h 0 (.nil u) start
    rwa [Nat.zero_add] at this
  intro v w j hw
  induction hw with
  | nil v =>
    intro k _ hP
    exact hP
  | @cons v x w c j edge _ ih =>
    intro k hk hP
    have := ih (k + c) (hk.snoc edge) (step v x c k hk hP edge)
    rwa [Nat.add_assoc] at this

/-- A walk, its weight and the number of its edges. -/
inductive CountedWalk (E : V → V → ℕ → Prop) : V → V → ℕ → ℕ → Prop
  | nil (v : V) : CountedWalk E v v 0 0
  | cons {u v w : V} {c k n : ℕ} (edge : E u v c) (rest : CountedWalk E v w k n) :
      CountedWalk E u w (c + k) (n + 1)

theorem CountedWalk.snoc {u v w : V} {c k n : ℕ} (h : CountedWalk E u v k n) (edge : E v w c) :
    CountedWalk E u w (k + c) (n + 1) := by
  induction h with
  | nil v =>
    have hw := CountedWalk.cons edge (.nil w)
    rwa [Nat.add_comm] at hw
  | cons edge' _ ih =>
    rw [Nat.add_assoc]
    exact .cons edge' (ih edge)

theorem CountedWalk.walk {u v : V} {k n : ℕ} (h : CountedWalk E u v k n) : Walk E u v k := by
  induction h with
  | nil v => exact .nil v
  | cons edge _ ih => exact .cons edge ih

/-- The least weight of a walk. -/
structure IsDist (E : V → V → ℕ → Prop) (u v : V) (d : ℕ) : Prop where
  walk : Walk E u v d
  le : ∀ k, Walk E u v k → d ≤ k

theorem IsDist.unique {u v : V} {d d' : ℕ} (h : IsDist E u v d) (h' : IsDist E u v d') : d = d' :=
  Nat.le_antisymm (h.le d' h'.walk) (h'.le d h.walk)

theorem isDist_self (u : V) : IsDist E u u 0 := ⟨.nil u, fun _ _ => Nat.zero_le _⟩

theorem Walk.exists_isDist {u v : V} {k : ℕ} (h : Walk E u v k) : ∃ d, IsDist E u v d := by
  classical
  have hex : ∃ d, Walk E u v d := ⟨k, h⟩
  exact ⟨Nat.find hex, Nat.find_spec hex, fun j hj => Nat.find_min' hex hj⟩

/-- A shortest walk without its last edge is a shortest walk. -/
theorem IsDist.init {u v w : V} {c k : ℕ} (h : IsDist E u w (k + c)) (walk : Walk E u v k)
    (edge : E v w c) : IsDist E u v k := by
  refine ⟨walk, fun j hj => ?_⟩
  have := h.le (j + c) (hj.snoc edge)
  omega

/-- A shortest walk to `v` goes through a vertex one edge nearer. -/
theorem IsDist.pred {u v : V} {d : ℕ} (h : IsDist E u v d) (hne : u ≠ v) :
    ∃ x c d', IsDist E u x d' ∧ E x v c ∧ d = d' + c := by
  rcases h.walk.last with ⟨heq, -⟩ | ⟨x, c, d', hw, hedge, rfl⟩
  · exact absurd heq hne
  · exact ⟨x, c, d', h.init hw hedge, hedge, rfl⟩

/-- What is left of a shortest walk after its first edge is a shortest walk. -/
theorem IsDist.tail {u v w : V} {c k : ℕ} (h : IsDist E u w (c + k)) (edge : E u v c)
    (rest : Walk E v w k) : IsDist E v w k := by
  refine ⟨rest, fun j hj => ?_⟩
  have := h.le (c + j) (.cons edge hj)
  omega

/-- The distances along a shortest walk are distinct, so there are as many nearer vertices as the
walk has edges. -/
theorem IsDist.le_mul_card {W : ℕ} (hW : ∀ u v c, E u v c → 0 < c ∧ c ≤ W) {s : V} {S : Finset V}
    (hS : ∀ v k, Walk E s v k → v ∈ S) : ∀ d v, IsDist E s v d →
    ∃ T ⊆ S, d ≤ W * T.card ∧ ∀ x ∈ T, ∃ d', IsDist E s x d' ∧ d' < d := by
  classical
  intro d
  induction d using Nat.strong_induction_on with
  | _ d ih =>
    intro v hv
    by_cases hsv : s = v
    · subst hsv
      cases hv.unique (isDist_self s)
      exact ⟨∅, Finset.empty_subset S, Nat.zero_le _, by simp⟩
    · obtain ⟨x, c, d', hx, hedge, rfl⟩ := hv.pred hsv
      have hc := hW x v c hedge
      obtain ⟨T, hTS, hle, hT⟩ := ih d' (by omega) x hx
      have hxT : x ∉ T := by
        intro hmem
        obtain ⟨d'', hd'', hlt⟩ := hT x hmem
        rw [hd''.unique hx] at hlt
        exact Nat.lt_irrefl _ hlt
      refine ⟨insert x T, Finset.insert_subset (hS x d' hx.walk) hTS, ?_, ?_⟩
      · rw [Finset.card_insert_of_notMem hxT, Nat.mul_succ]
        omega
      · intro y hy
        rcases Finset.mem_insert.mp hy with rfl | hy
        · exact ⟨d', hx, by omega⟩
        · obtain ⟨d'', hd'', hlt⟩ := hT y hy
          exact ⟨d'', hd'', by omega⟩

theorem IsDist.lt_of_card {W n : ℕ} (hW : ∀ u v c, E u v c → 0 < c ∧ c ≤ W) {s : V}
    {S : Finset V} (hS : ∀ v k, Walk E s v k → v ∈ S) (hn : S.card ≤ n) {v : V} {d : ℕ}
    (h : IsDist E s v d) : d ≤ W * n := by
  obtain ⟨T, hTS, hle, -⟩ := IsDist.le_mul_card hW hS d v h
  exact hle.trans (Nat.mul_le_mul_left W ((Finset.card_le_card hTS).trans hn))

/-- The path from `s` to `t` made of hops; `hop s p c` is a step from `s` to `p` of weight `c`. -/
inductive Follows (hop : V → V → ℕ → Prop) (t : V) : V → List V → ℕ → Prop
  | done : Follows hop t t [t] 0
  | step {s p : V} {c k : ℕ} {path : List V} (ne : s ≠ t) (h : hop s p c)
      (rest : Follows hop t p path k) : Follows hop t s (s :: path) (c + k)

/-- If at every vertex but `t` some hop lies on a shortest walk, hops lead to `t`, at the cost of
the distance and through no vertex twice. -/
theorem exists_follows (hop : V → V → ℕ → Prop) {t : V} (hpos : ∀ u v c, E u v c → 0 < c)
    (good : V → Prop)
    (hhop : ∀ s d, good s → s ≠ t → IsDist E s t d →
      ∃ p c k, hop s p c ∧ E s p c ∧ good p ∧ Walk E p t k ∧ d = c + k) :
    ∀ d s, good s → IsDist E s t d → ∃ path, Follows hop t s path d ∧ path.Nodup ∧
      ∀ x ∈ path, ∃ d', IsDist E x t d' ∧ d' ≤ d := by
  intro d
  induction d using Nat.strong_induction_on with
  | _ d ih =>
    intro s hs hd
    by_cases hst : s = t
    · subst hst
      cases hd.unique (isDist_self s)
      refine ⟨[s], .done, by simp, ?_⟩
      intro x hx
      rw [List.mem_singleton] at hx
      exact ⟨0, hx ▸ isDist_self _, Nat.le_refl _⟩
    · obtain ⟨p, c, k, hh, hedge, hp, hwalk, rfl⟩ := hhop s d hs hst hd
      have hc := hpos s p c hedge
      obtain ⟨path, hpath, hnd, hle⟩ := ih k (by omega) p hp (hd.tail hedge hwalk)
      refine ⟨s :: path, .step hst hh hpath, List.nodup_cons.mpr ⟨?_, hnd⟩, ?_⟩
      · intro hmem
        obtain ⟨d', hd', hlt⟩ := hle s hmem
        have := hd'.unique hd
        omega
      · intro x hx
        rcases List.mem_cons.mp hx with rfl | hx
        · exact ⟨c + k, hd, Nat.le_refl _⟩
        · obtain ⟨d', hd', hlt⟩ := hle x hx
          exact ⟨d', hd', by omega⟩

end MeshBus
