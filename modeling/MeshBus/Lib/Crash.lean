import Mathlib.Data.List.Basic

/-!
# Lib.Crash

Programs that can be cut short. A program is a list of operations on the state of a device. Each of
them can fail on its own; the outside can also let it fail, with or without its effect, or crash the
device at it, which may damage the state.

`Triple d C P ops Q`: from a state in `P` the program ends in `Q` if it completes and in `C` if it
is cut short, whatever happens outside. The rules take a program apart operation by operation; the
condition `C` is the same for all of them.
-/

namespace MeshBus

/-- What operations do, and what a crash does to the state. -/
structure Device (σ op ε δ : Type*) where
  apply : σ → op → Except ε σ
  crash : δ → σ → σ

/-- What can happen at an operation; `done` says whether it takes effect. -/
inductive Mishap (δ : Type*) where
  | fail (done : Bool)
  | crash (done : Bool) (damage : δ)

inductive Ending (op : Type*) where
  | completed
  | failed (operation : op)
  | crashed
deriving DecidableEq

namespace Device

variable {σ op ε δ : Type*}

/-- The state after an operation that may have taken effect. -/
def effect (d : Device σ op ε δ) (done : Bool) (s : σ) (operation : op) : σ :=
  match done, d.apply s operation with
  | true, .ok s' => s'
  | _, _ => s

/-- Runs the operations; `weather i` is what happens at operation number `i`. -/
def exec (d : Device σ op ε δ) (weather : Nat → Option (Mishap δ)) :
    Nat → σ → List op → σ × Ending op
  | _, s, [] => (s, .completed)
  | i, s, operation :: rest =>
    match weather i with
    | some (.fail done) => (d.effect done s operation, .failed operation)
    | some (.crash done damage) => (d.crash damage (d.effect done s operation), .crashed)
    | none =>
      match d.apply s operation with
      | .error _ => (s, .failed operation)
      | .ok s' => d.exec weather (i + 1) s' rest

/-- Operations that change nothing are passed over. -/
theorem exec_idle {d : Device σ op ε δ} {weather : Nat → Option (Mishap δ)} {s : σ}
    {ops : List op} (rest : List op) {i : Nat} (hcalm : ∀ j < i + ops.length, weather j = none)
    (h : ∀ operation ∈ ops, d.apply s operation = .ok s) :
    d.exec weather i s (ops ++ rest) = d.exec weather (i + ops.length) s rest := by
  induction ops generalizing i with
  | nil => rfl
  | cons operation ops ih =>
    rw [List.length_cons] at hcalm ⊢
    rw [List.cons_append, exec, hcalm i (by omega), h operation List.mem_cons_self,
      show i + (ops.length + 1) = i + 1 + ops.length by omega]
    exact ih (fun j hj => hcalm j (by omega)) fun x hx => h x (List.mem_cons_of_mem _ hx)

/-- How a program ends: in `Q`, or cut short in `C`. -/
inductive Lands (C Q : σ → Prop) : σ × Ending op → Prop
  | completed {s : σ} (h : Q s) : Lands C Q (s, .completed)
  | failed {s : σ} (h : C s) (operation : op) : Lands C Q (s, .failed operation)
  | crashed {s : σ} (h : C s) : Lands C Q (s, .crashed)

def Triple (d : Device σ op ε δ) (C P : σ → Prop) (ops : List op) (Q : σ → Prop) : Prop :=
  ∀ weather i s, P s → Lands C Q (d.exec weather i s ops)

namespace Triple

variable {d : Device σ op ε δ} {C P Q R : σ → Prop}

theorem nil : Triple d C P [] P := fun _ _ _ h => .completed h

/-- One operation. The states around it satisfy `C`, and a crash keeps `C`. -/
theorem single {operation : op} (hcrash : ∀ damage s, C s → C (d.crash damage s))
    (hbefore : ∀ s, P s → C s) (hafter : ∀ s, Q s → C s)
    (hstep : ∀ s s', P s → d.apply s operation = .ok s' → Q s') :
    Triple d C P [operation] Q := by
  intro weather i s hs
  have heffect : ∀ done, C (d.effect done s operation) := by
    intro done
    unfold effect
    split
    · rename_i s' happly
      exact hafter s' (hstep s s' hs happly)
    · exact hbefore s hs
  simp only [exec]
  split
  · exact .failed (heffect _) _
  · exact .crashed (hcrash _ _ (heffect _))
  · split
    · exact .failed (hbefore s hs) _
    · rename_i s' happly
      exact .completed (hstep s s' hs happly)

theorem append {a b : List op} (ha : Triple d C P a R) (hb : Triple d C R b Q) :
    Triple d C P (a ++ b) Q := by
  intro weather i s hs
  -- the part after `a` starts at the number `a` has left off at
  have hexec : ∀ (a : List op) (i : Nat) (s : σ),
      Lands C R (d.exec weather i s a) → Lands C Q (d.exec weather i s (a ++ b)) := by
    intro a
    induction a with
    | nil =>
      intro i s h
      cases h with
      | completed hR => exact hb weather i s hR
    | cons operation a ih =>
      intro i s h
      simp only [List.cons_append, exec] at h ⊢
      split at h
      · cases h with
        | failed hC => exact .failed hC _
      · cases h with
        | crashed hC => exact .crashed hC
      · split at h
        · cases h with
          | failed hC => exact .failed hC _
        · exact ih _ _ h
  exact hexec a i s (ha weather i s hs)

theorem cons {operation : op} {ops : List op} (h : Triple d C P [operation] R)
    (hrest : Triple d C R ops Q) : Triple d C P (operation :: ops) Q :=
  append h hrest

/-- A loop whose operations all keep `P`. -/
theorem loop {ops : List op} (h : ∀ operation ∈ ops, Triple d C P [operation] P) :
    Triple d C P ops P := by
  induction ops with
  | nil => exact nil
  | cons operation ops ih =>
    exact cons (h operation List.mem_cons_self) (ih fun x hx => h x (List.mem_cons_of_mem _ hx))

/-- A loop over items, where the assertion follows the items that are done. -/
theorem map {α : Type*} {f : α → op} {I : List α → σ → Prop}
    (h : ∀ done x, Triple d C (I done) [f x] (I (done ++ [x]))) (done xs : List α) :
    Triple d C (I done) (xs.map f) (I (done ++ xs)) := by
  induction xs generalizing done with
  | nil =>
    rw [List.append_nil]
    exact nil
  | cons x xs ih =>
    have hrest := ih (done ++ [x])
    rw [List.append_assoc, List.singleton_append] at hrest
    exact cons (h done x) hrest

end Triple
end Device
end MeshBus
