import Mathlib

/-!
# Lib.Quiesce

Message passing that comes to rest. A step that handles one message may send any number of others,
as long as each of them ranks below the one it answers; a message may even be answered by messages
of any rank if that uses up some of a potential that never grows. There is no infinite run.
-/

namespace MeshBus

/-- What one step does to the potential and to the ranks of the messages in flight. -/
inductive Settles (potential potential' : ℕ) (ranks ranks' : Multiset ℕ) : Prop
  | falls (lt : potential' < potential)
  | replaces (same : potential' = potential) (rank : ℕ) (rest new : Multiset ℕ)
      (before : ranks = rest + {rank}) (after : ranks' = rest + new) (below : ∀ r ∈ new, r < rank)

theorem Settles.lex {potential potential' : ℕ} {ranks ranks' : Multiset ℕ}
    (h : Settles potential potential' ranks ranks') :
    Prod.Lex (· < ·) Multiset.IsDershowitzMannaLT (potential', ranks') (potential, ranks) := by
  cases h with
  | falls lt => exact .left _ _ lt
  | replaces same rank rest new before after below =>
    subst same
    refine .right _ ⟨rest, new, {rank}, by simp, after, before, ?_⟩
    intro r hr
    exact ⟨rank, Multiset.mem_singleton_self rank, below r hr⟩

/-- Steps that settle come to an end, from any state the invariant allows. -/
theorem quiesces {σ : Type*} {step : σ → σ → Prop} {P : σ → Prop} {potential : σ → ℕ}
    {ranks : σ → Multiset ℕ}
    (hstep : ∀ s s', P s → step s s' →
      P s' ∧ Settles (potential s) (potential s') (ranks s) (ranks s'))
    (s : ℕ → σ) (h0 : P (s 0)) : ¬ ∀ k, step (s k) (s (k + 1)) := by
  intro hrun
  have hP : ∀ k, P (s k) := by
    intro k
    induction k with
    | zero => exact h0
    | succ k ih => exact (hstep _ _ ih (hrun k)).1
  have hwf : WellFounded (Prod.Lex (· < · : ℕ → ℕ → Prop)
      (Multiset.IsDershowitzMannaLT : Multiset ℕ → Multiset ℕ → Prop)) :=
    WellFounded.prod_lex wellFounded_lt Multiset.wellFounded_isDershowitzMannaLT
  exact (wellFounded_iff_isEmpty_descending_chain.mp hwf).false
    ⟨fun k => (potential (s k), ranks (s k)), fun k => (hstep _ _ (hP k) (hrun k)).2.lex⟩

end MeshBus
