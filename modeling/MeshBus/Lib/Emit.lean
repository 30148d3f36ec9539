import Mathlib

/-!
# Lib.Emit

Computations that step a state, emit a list of outputs and may panic: `Option (σ × List β)`, with
`none` for a panic or a diverging loop.

* `Ends x Q`: total correctness, `x` does not panic and its result satisfies `Q`. The rule
  `Ends.bind` peels a computation apart without unfolding it.
* `emitAll step s xs`: the loop `for x in xs { out.extend(step(x)) }`, with its invariant rules
  `emitAll_inv` (partial), `emitAll_out` (for the outputs too) and `emitAll_ends` (total).
* `foldlM_inv`: the same rule for steps that emit nothing.
* `Along step P s xs`: a condition on every state of such a run, with `Along.inv` for what holds
  only under it; `AlongM` is the same for steps that emit nothing.
* `visits step s xs`: the states of such a run, each with the item handled there, with `visits_inv`
  for what relates a state to the visits before it.
-/

namespace MeshBus

/-- `x` returns, with a result satisfying `Q`. -/
def Ends {α : Type*} (x : Option α) (Q : α → Prop) : Prop := ∃ a, x = some a ∧ Q a

universe u

namespace Ends

variable {α β : Type u}

theorem pure {a : α} {Q : α → Prop} (h : Q a) : Ends (some a) Q := ⟨a, rfl, h⟩

theorem bind {x : Option α} {f : α → Option β} {P : α → Prop} {Q : β → Prop} (hx : Ends x P)
    (hf : ∀ a, P a → Ends (f a) Q) : Ends (x >>= f) Q := by
  obtain ⟨a, rfl, ha⟩ := hx
  exact hf a ha

end Ends

/-- The outputs of one step are appended to those of the steps before it. -/
def emitAll {σ α β : Type*} (step : σ → α → Option (σ × List β)) :
    σ → List α → Option (σ × List β)
  | s, [] => some (s, [])
  | s, x :: xs =>
    match step s x with
    | none => none
    | some (s1, out) =>
      match emitAll step s1 xs with
      | none => none
      | some (s2, rest) => some (s2, out ++ rest)

section EmitAll

variable {σ α β : Type*} {step : σ → α → Option (σ × List β)}

@[simp] theorem emitAll_nil (s : σ) : emitAll step s [] = some (s, []) := rfl

theorem emitAll_cons_some {s s1 s2 : σ} {x : α} {xs : List α} {out rest : List β}
    (h1 : step s x = some (s1, out)) (h2 : emitAll step s1 xs = some (s2, rest)) :
    emitAll step s (x :: xs) = some (s2, out ++ rest) := by
  simp [emitAll, h1, h2]

theorem emitAll_cons_inv {s s2 : σ} {x : α} {xs : List α} {all : List β}
    (h : emitAll step s (x :: xs) = some (s2, all)) :
    ∃ s1 out rest, step s x = some (s1, out) ∧ emitAll step s1 xs = some (s2, rest) ∧
      all = out ++ rest := by
  simp only [emitAll] at h
  split at h
  · cases h
  · rename_i s1 out hx
    split at h
    · cases h
    · rename_i s' rest hr
      cases h
      exact ⟨s1, out, rest, hx, hr, rfl⟩

theorem emitAll_append_some :
    ∀ {xs ys : List α} {s s1 s2 : σ} {out rest : List β}, emitAll step s xs = some (s1, out) →
      emitAll step s1 ys = some (s2, rest) →
        emitAll step s (xs ++ ys) = some (s2, out ++ rest) := by
  intro xs
  induction xs with
  | nil =>
    intro ys s s1 s2 out rest h1 h2
    cases h1
    exact h2
  | cons x xs ih =>
    intro ys s s1 s2 out rest h1 h2
    obtain ⟨s3, o1, o2, hx, hxs, rfl⟩ := emitAll_cons_inv h1
    rw [List.cons_append, List.append_assoc]
    exact emitAll_cons_some hx (ih hxs h2)

theorem emitAll_append_inv {xs ys : List α} : ∀ {s s2 : σ} {all : List β},
    emitAll step s (xs ++ ys) = some (s2, all) →
    ∃ s1 out rest, emitAll step s xs = some (s1, out) ∧ emitAll step s1 ys = some (s2, rest) ∧
      all = out ++ rest := by
  induction xs with
  | nil => intro s s2 all h; exact ⟨s, [], all, rfl, h, rfl⟩
  | cons x xs ih =>
    intro s s2 all h
    obtain ⟨s1, out, rest, hx, hr, rfl⟩ := emitAll_cons_inv h
    obtain ⟨s3, out', rest', hx', hr', rfl⟩ := ih hr
    exact ⟨s3, out ++ out', rest', emitAll_cons_some hx hx', hr', by simp⟩

theorem emitAll_congr {step' : σ → α → Option (σ × List β)} : ∀ {xs : List α} {s : σ},
    (∀ x ∈ xs, ∀ s, step s x = step' s x) → emitAll step s xs = emitAll step' s xs := by
  intro xs
  induction xs with
  | nil => intro s _; rfl
  | cons x xs ih =>
    intro s h
    have htail : ∀ s1, emitAll step s1 xs = emitAll step' s1 xs := fun s1 =>
      ih fun y hy => h y (List.mem_cons_of_mem _ hy)
    simp only [emitAll, h x List.mem_cons_self, htail]

theorem emitAll_map {γ : Type*} (g : γ → α) : ∀ {xs : List γ} {s : σ},
    emitAll step s (xs.map g) = emitAll (fun s x => step s (g x)) s xs := by
  intro xs
  induction xs with
  | nil => intro s; rfl
  | cons x xs ih => intro s; simp only [List.map_cons, emitAll, ih]

/-- What every step preserves, the loop preserves. -/
theorem emitAll_inv {P : σ → Prop}
    (hstep : ∀ s x s' out, P s → step s x = some (s', out) → P s') :
    ∀ {xs : List α} {s s' : σ} {out : List β}, P s → emitAll step s xs = some (s', out) → P s' := by
  intro xs
  induction xs with
  | nil =>
    intro s s' out hP h
    cases h
    exact hP
  | cons x xs ih =>
    intro s s' out hP h
    obtain ⟨s1, o1, rest, hx, hr, -⟩ := emitAll_cons_inv h
    exact ih (hstep s x s1 o1 hP hx) hr

/-- What every step preserves and emits, over items that satisfy `R`. -/
theorem emitAll_out {P : σ → Prop} {R : α → Prop} {Q : β → Prop}
    (hstep : ∀ s x s' out, P s → R x → step s x = some (s', out) → P s' ∧ ∀ b ∈ out, Q b) :
    ∀ {xs : List α} {s s' : σ} {out : List β}, (∀ x ∈ xs, R x) → P s →
      emitAll step s xs = some (s', out) → P s' ∧ ∀ b ∈ out, Q b := by
  intro xs
  induction xs with
  | nil =>
    intro s s' out _ hP h
    cases h
    exact ⟨hP, by simp⟩
  | cons x xs ih =>
    intro s s' out hR hP h
    obtain ⟨s1, o1, rest, hx, hr, rfl⟩ := emitAll_cons_inv h
    obtain ⟨hP1, hout⟩ := hstep s x s1 o1 hP (hR x List.mem_cons_self) hx
    obtain ⟨hP', hrest⟩ := ih (fun y hy => hR y (List.mem_cons_of_mem _ hy)) hP1 hr
    refine ⟨hP', ?_⟩
    intro b hb
    rcases List.mem_append.mp hb with hb | hb
    · exact hout b hb
    · exact hrest b hb

/-- Steps that simulate each other with the same output give loops that do. -/
theorem emitAll_sim {τ : Type*} {step' : τ → α → Option (τ × List β)} {R : σ → τ → Prop}
    (hstep : ∀ s t x s' out, R s t → step s x = some (s', out) →
      ∃ t', step' t x = some (t', out) ∧ R s' t') :
    ∀ {xs : List α} {s s' : σ} {t : τ} {out : List β}, R s t → emitAll step s xs = some (s', out) →
      ∃ t', emitAll step' t xs = some (t', out) ∧ R s' t' := by
  intro xs
  induction xs with
  | nil =>
    intro s s' t out hR h
    cases h
    exact ⟨t, rfl, hR⟩
  | cons x xs ih =>
    intro s s' t out hR h
    obtain ⟨s1, o1, rest, hx, hr, rfl⟩ := emitAll_cons_inv h
    obtain ⟨t1, hx', hR1⟩ := hstep s t x s1 o1 hR hx
    obtain ⟨t2, hr', hR2⟩ := ih hR1 hr
    exact ⟨t2, emitAll_cons_some hx' hr', hR2⟩

/-- The loop returns if every step does, from any state the invariant allows. -/
theorem emitAll_ends {P : σ → Prop} (hstep : ∀ s x, P s → Ends (step s x) fun r => P r.1) :
    ∀ (xs : List α) {s : σ}, P s → Ends (emitAll step s xs) fun r => P r.1 := by
  intro xs
  induction xs with
  | nil => exact fun h => .pure h
  | cons x xs ih =>
    intro s h
    obtain ⟨⟨s1, out⟩, hx, h1⟩ := hstep s x h
    obtain ⟨⟨s2, rest⟩, hr, h2⟩ := ih h1
    exact ⟨_, emitAll_cons_some hx hr, h2⟩

/-- `P` holds of every state of the run together with the item handled there. -/
def Along (step : σ → α → Option (σ × List β)) (P : σ → α → Prop) : σ → List α → Prop
  | _, [] => True
  | s, x :: xs => P s x ∧ ∀ s' out, step s x = some (s', out) → Along step P s' xs

instance Along.decidable {P : σ → α → Prop} [∀ s x, Decidable (P s x)] :
    ∀ (s : σ) (xs : List α), Decidable (Along step P s xs)
  | _, [] => .isTrue trivial
  | s, x :: xs =>
    match h : step s x with
    | none =>
      decidable_of_iff (P s x) ⟨fun hP => ⟨hP, fun _ _ hx => by rw [h] at hx; cases hx⟩, And.left⟩
    | some (s', out) =>
      have := Along.decidable (P := P) s' xs
      decidable_of_iff (P s x ∧ Along step P s' xs)
        ⟨fun hP => ⟨hP.1, fun _ _ hx => by rw [h] at hx; cases hx; exact hP.2⟩,
          fun hP => ⟨hP.1, hP.2 s' out h⟩⟩

theorem Along.append {P : σ → α → Prop} {xs ys : List α} : ∀ {s s' : σ} {out : List β},
    Along step P s (xs ++ ys) → emitAll step s xs = some (s', out) →
    Along step P s xs ∧ Along step P s' ys := by
  induction xs with
  | nil =>
    intro s s' out h hrun
    cases hrun
    exact ⟨trivial, h⟩
  | cons x xs ih =>
    intro s s' out h hrun
    obtain ⟨s1, o1, rest, hx, hr, -⟩ := emitAll_cons_inv hrun
    obtain ⟨hP, hrest⟩ := h
    refine ⟨⟨hP, fun s2 o2 hx' => ?_⟩, (ih (hrest s1 o1 hx) hr).2⟩
    rw [hx] at hx'
    cases hx'
    exact (ih (hrest s1 o1 hx) hr).1

theorem Along.append_intro {P : σ → α → Prop} {xs ys : List α} : ∀ {s : σ}, Along step P s xs →
    (∀ s' out, emitAll step s xs = some (s', out) → Along step P s' ys) →
    Along step P s (xs ++ ys) := by
  induction xs with
  | nil => exact fun _ h => h _ [] rfl
  | cons x xs ih =>
    intro s hxs hys
    refine ⟨hxs.1, fun s1 out h1 => ih (hxs.2 s1 out h1) fun s2 rest h2 => ?_⟩
    exact hys s2 (out ++ rest) (emitAll_cons_some h1 h2)

/-- A condition on the items alone holds along every run. -/
theorem Along.and_forall {P : σ → α → Prop} {R : α → Prop} : ∀ {xs : List α} {s : σ},
    Along step P s xs → (∀ x ∈ xs, R x) → Along step (fun s x => R x ∧ P s x) s xs := by
  intro xs
  induction xs with
  | nil => exact fun _ _ => trivial
  | cons x xs ih =>
    exact fun h hR => ⟨⟨hR x List.mem_cons_self, h.1⟩, fun s1 out hs1 =>
      ih (h.2 s1 out hs1) fun y hy => hR y (List.mem_cons_of_mem _ hy)⟩

/-- An invariant that a step keeps only where `P` holds. -/
theorem Along.inv {P : σ → α → Prop} {Q : σ → Prop}
    (hstep : ∀ s x s' out, Q s → P s x → step s x = some (s', out) → Q s') :
    ∀ {xs : List α} {s s' : σ} {out : List β}, Along step P s xs → Q s →
      emitAll step s xs = some (s', out) → Q s' := by
  intro xs
  induction xs with
  | nil =>
    intro s s' out _ hQ h
    cases h
    exact hQ
  | cons x xs ih =>
    intro s s' out halong hQ h
    obtain ⟨s1, o1, rest, hx, hr, -⟩ := emitAll_cons_inv h
    exact ih (halong.2 s1 o1 hx) (hstep s x s1 o1 hQ halong.1 hx) hr

/-- The loop returns if every step does where `P` holds, from any state the invariant allows. -/
theorem Along.ends {P : σ → α → Prop} {Q : σ → Prop}
    (hstep : ∀ s x, Q s → P s x → Ends (step s x) fun r => Q r.1) :
    ∀ {xs : List α} {s : σ}, Along step P s xs → Q s → Ends (emitAll step s xs) fun r => Q r.1 := by
  intro xs
  induction xs with
  | nil => exact fun _ hQ => .pure hQ
  | cons x xs ih =>
    intro s halong hQ
    obtain ⟨⟨s1, out⟩, hx, hQ1⟩ := hstep s x hQ halong.1
    obtain ⟨⟨s2, rest⟩, hr, hQ2⟩ := ih (halong.2 s1 out hx) hQ1
    exact ⟨_, emitAll_cons_some hx hr, hQ2⟩

/-- An invariant that a step keeps only where `P` holds, and what its steps emit. -/
theorem Along.out {P : σ → α → Prop} {Q : σ → Prop} {R : β → Prop}
    (hstep : ∀ s x s' out, Q s → P s x → step s x = some (s', out) → Q s' ∧ ∀ b ∈ out, R b) :
    ∀ {xs : List α} {s s' : σ} {out : List β}, Along step P s xs → Q s →
      emitAll step s xs = some (s', out) → Q s' ∧ ∀ b ∈ out, R b := by
  intro xs
  induction xs with
  | nil =>
    intro s s' out _ hQ h
    cases h
    exact ⟨hQ, by simp⟩
  | cons x xs ih =>
    intro s s' out halong hQ h
    obtain ⟨s1, o1, rest, hx, hr, rfl⟩ := emitAll_cons_inv h
    obtain ⟨hQ1, hout⟩ := hstep s x s1 o1 hQ halong.1 hx
    obtain ⟨hQ', hrest⟩ := ih (halong.2 s1 o1 hx) hQ1 hr
    exact ⟨hQ', List.forall_mem_append.mpr ⟨hout, hrest⟩⟩

/-- The states of a run, each with the item handled there. -/
def visits (step : σ → α → Option (σ × List β)) : σ → List α → List (σ × α)
  | _, [] => []
  | s, x :: xs =>
    (s, x) :: match step s x with
      | none => []
      | some (s', _) => visits step s' xs

theorem visits_head {s : σ} {xs : List α} {v : σ × α} (h : v ∈ (visits step s xs).head?) :
    v.1 = s := by
  cases xs with
  | nil => cases h
  | cons x xs =>
    cases h
    rfl

/-- A visit with one after it does not panic. -/
theorem visits_cons_inv {s : σ} {x : α} {xs : List α} {v : σ × α} {rest : List (σ × α)}
    (h : visits step s (x :: xs) = v :: rest) (hrest : rest ≠ []) :
    v = (s, x) ∧ ∃ s' out, step s x = some (s', out) ∧ visits step s' xs = rest := by
  rw [visits, List.cons.injEq] at h
  obtain ⟨rfl, h⟩ := h
  refine ⟨rfl, ?_⟩
  split at h
  · exact absurd h.symm hrest
  · rename_i s' out hs
    exact ⟨s', out, hs, h⟩

/-- What holds at the start and is carried from each visit to the next one, together with the visits
so far, holds at every visit. -/
theorem visits_inv {H : List (σ × α) → σ → Prop}
    (hstep : ∀ past s x s' out, H past s → step s x = some (s', out) → H (past ++ [(s, x)]) s')
    {s : σ} {xs : List α} {before after : List (σ × α)} {v : σ × α} (hs : H [] s)
    (h : visits step s xs = before ++ v :: after) : H before v.1 := by
  have from_past : ∀ (before past : List (σ × α)) (s : σ) (xs : List α), H past s →
      visits step s xs = before ++ v :: after → H (past ++ before) v.1 := by
    intro before
    induction before with
    | nil =>
      intro past s xs hs h
      cases xs with
      | nil => cases h
      | cons x xs =>
        rw [visits, List.nil_append, List.cons.injEq] at h
        rw [List.append_nil, ← h.1]
        exact hs
    | cons u before ih =>
      intro past s xs hs h
      cases xs with
      | nil => cases h
      | cons x xs =>
        obtain ⟨rfl, s', out, hx, hv⟩ := visits_cons_inv h (by simp)
        have hrest := ih _ _ _ (hstep past s x s' out hs hx) hv
        rwa [List.append_assoc] at hrest
  exact from_past before [] s xs hs h

/-- From any visit on, the visits are those of a run from its state. -/
theorem visits_from {before : List (σ × α)} : ∀ {s : σ} {xs : List α} {v : σ × α}
    {rest : List (σ × α)}, visits step s xs = before ++ v :: rest →
    ∃ xs', visits step v.1 (v.2 :: xs') = v :: rest := by
  induction before with
  | nil =>
    intro s xs v rest h
    cases xs with
    | nil => cases h
    | cons x xs =>
      have hv : (s, x) = v := (List.cons.inj h).1
      subst hv
      exact ⟨xs, h⟩
  | cons u before ih =>
    intro s xs v rest h
    cases xs with
    | nil => cases h
    | cons x xs =>
      obtain ⟨-, s', out, -, hv⟩ := visits_cons_inv h (by simp)
      exact ih hv

/-- The items visited are the first ones of the run. -/
theorem visits_items : ∀ {xs : List α} {s : σ}, (visits step s xs).map Prod.snd <+: xs := by
  intro xs
  induction xs with
  | nil => exact fun {_} => List.nil_prefix
  | cons x xs ih =>
    intro s
    rw [visits, List.map_cons]
    refine (List.prefix_cons_inj x).mpr ?_
    split
    · exact List.nil_prefix
    · exact ih

end EmitAll

section FoldM

variable {σ α : Type*} {step : σ → α → Option σ}

/-- What every step of a run preserves, the run preserves. -/
theorem foldlM_inv {P : σ → Prop} (hstep : ∀ s x s', P s → step s x = some s' → P s') :
    ∀ {xs : List α} {s s' : σ}, P s → xs.foldlM step s = some s' → P s' := by
  intro xs
  induction xs with
  | nil =>
    intro s s' hP h
    cases h
    exact hP
  | cons x xs ih =>
    intro s s' hP h
    simp only [List.foldlM_cons, bind, Option.bind_eq_some_iff] at h
    obtain ⟨s1, h1, h2⟩ := h
    exact ih (hstep s x s1 hP h1) h2

/-- `P` holds of every state of the run together with the item handled there. -/
def AlongM (step : σ → α → Option σ) (P : σ → α → Prop) : σ → List α → Prop
  | _, [] => True
  | s, x :: xs => P s x ∧ ∀ s', step s x = some s' → AlongM step P s' xs

instance AlongM.decidable {P : σ → α → Prop} [∀ s x, Decidable (P s x)] :
    ∀ (s : σ) (xs : List α), Decidable (AlongM step P s xs)
  | _, [] => .isTrue trivial
  | s, x :: xs =>
    match h : step s x with
    | none =>
      decidable_of_iff (P s x) ⟨fun hP => ⟨hP, fun _ hx => by rw [h] at hx; cases hx⟩, And.left⟩
    | some s' =>
      have := AlongM.decidable (P := P) s' xs
      decidable_of_iff (P s x ∧ AlongM step P s' xs)
        ⟨fun hP => ⟨hP.1, fun _ hx => by rw [h] at hx; cases hx; exact hP.2⟩,
          fun hP => ⟨hP.1, hP.2 s' h⟩⟩

theorem AlongM.and {P P' : σ → α → Prop} : ∀ {xs : List α} {s : σ}, AlongM step P s xs →
    AlongM step P' s xs → AlongM step (fun s x => P s x ∧ P' s x) s xs := by
  intro xs
  induction xs with
  | nil => exact fun _ _ => trivial
  | cons x xs ih => exact fun h h' => ⟨⟨h.1, h'.1⟩, fun s1 hs1 => ih (h.2 s1 hs1) (h'.2 s1 hs1)⟩

theorem alongM_of_forall {R : α → Prop} : ∀ {xs : List α} {s : σ}, (∀ x ∈ xs, R x) →
    AlongM step (fun _ x => R x) s xs := by
  intro xs
  induction xs with
  | nil => exact fun _ => trivial
  | cons x xs ih =>
    exact fun h => ⟨h x List.mem_cons_self,
      fun _ _ => ih fun y hy => h y (List.mem_cons_of_mem _ hy)⟩

/-- A condition on the items alone holds along every run. -/
theorem AlongM.and_forall {P : σ → α → Prop} {R : α → Prop} : ∀ {xs : List α} {s : σ},
    AlongM step P s xs → (∀ x ∈ xs, R x) → AlongM step (fun s x => R x ∧ P s x) s xs := by
  intro xs
  induction xs with
  | nil => exact fun _ _ => trivial
  | cons x xs ih =>
    exact fun h hR => ⟨⟨hR x List.mem_cons_self, h.1⟩, fun s1 hs1 =>
      ih (h.2 s1 hs1) fun y hy => hR y (List.mem_cons_of_mem _ hy)⟩

/-- An invariant that a step keeps only where `P` holds. -/
theorem AlongM.inv {P : σ → α → Prop} {Q : σ → Prop}
    (hstep : ∀ s x s', Q s → P s x → step s x = some s' → Q s') :
    ∀ {xs : List α} {s s' : σ}, AlongM step P s xs → Q s → xs.foldlM step s = some s' → Q s' := by
  intro xs
  induction xs with
  | nil =>
    intro s s' _ hQ h
    cases h
    exact hQ
  | cons x xs ih =>
    intro s s' halong hQ h
    simp only [List.foldlM_cons, bind, Option.bind_eq_some_iff] at h
    obtain ⟨s1, h1, h2⟩ := h
    exact ih (halong.2 s1 h1) (hstep s x s1 hQ halong.1 h1) h2

end FoldM

section MapM

variable {α β : Type u} {f : α → Option β}

/-- A `mapM` that returns is a `map` none of whose results is a panic. -/
theorem map_eq_of_mapM : ∀ {xs : List α} {ys : List β}, xs.mapM f = some ys →
    xs.map f = ys.map some := by
  intro xs
  induction xs with
  | nil => intro ys h; cases h; rfl
  | cons x xs ih =>
    intro ys h
    simp only [List.mapM_cons, bind, pure, Option.bind_eq_some_iff] at h
    obtain ⟨y, hy, zs, hzs, heq⟩ := h
    cases heq
    simp [hy, ih hzs]

theorem mem_of_mapM {xs : List α} {ys : List β} (h : xs.mapM f = some ys) {y : β} :
    y ∈ ys ↔ ∃ x ∈ xs, f x = some y := by
  rw [← List.mem_map, map_eq_of_mapM h]
  simp

theorem mapM_some {xs : List α} (h : ∀ x ∈ xs, ∃ y, f x = some y) : ∃ ys, xs.mapM f = some ys := by
  induction xs with
  | nil => exact ⟨[], rfl⟩
  | cons x xs ih =>
    obtain ⟨y, hy⟩ := h x List.mem_cons_self
    obtain ⟨ys, hys⟩ := ih fun z hz => h z (List.mem_cons_of_mem _ hz)
    exact ⟨y :: ys, by simp [List.mapM_cons, hy, hys]⟩

end MapM

end MeshBus
