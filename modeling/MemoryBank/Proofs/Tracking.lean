import MemoryBank.Proofs.Effect

/-!
# Two runs side by side

One action runs in a state, and another one in the image of that state. `Action.Tracks f R x y`
says: if both come to an end, their answers are related by `R`, and the second one leaves the image
of what the first one leaves. Nothing is said where one of them fails.

There is one rule for each way to build an action. `Tracks.bind` is the rule for sequences;
`Tracks.bind_eq`, `Tracks.bind_map`, `Tracks.get_bind` and `Tracks.except_bind` are the forms of it
that the steps of allocators need.
-/

namespace MemoryBank.Action

variable {σ τ α β γ δ : Type}

/-- If both actions come to an end, answers and states correspond. -/
def Tracks (f : σ → τ) (R : α → β → Prop) (x : Action σ α) (y : Action τ β) : Prop :=
  ∀ s a t b u, x.effect s = (.ok a, t) → y.effect (f s) = (.ok b, u) → R a b ∧ u = f t

namespace Tracks

variable {f : σ → τ} {R : α → β → Prop} {S : γ → δ → Prop}

theorem pure {a : α} {b : β} (h : R a b) : Tracks f R (Pure.pure a) (Pure.pure b) := by
  intro s a' t b' u hx hy
  cases hx
  cases hy
  exact ⟨h, rfl⟩

theorem bind {x : Action σ α} {y : Action τ β} {k : α → Action σ γ} {l : β → Action τ δ}
    (h : Tracks f R x y) (hk : ∀ a b, R a b → Tracks f S (k a) (l b)) :
    Tracks f S (x >>= k) (y >>= l) := by
  intro s c t d u hx hy
  rw [effect_bind] at hx hy
  cases hxs : x.effect s with
  | mk r t₁ =>
    cases hys : y.effect (f s) with
    | mk r' u₁ =>
      rw [hxs] at hx
      rw [hys] at hy
      cases r with
      | error e => cases hx
      | ok a =>
        cases r' with
        | error e => cases hy
        | ok b =>
          obtain ⟨hab, rfl⟩ := h s a t₁ b u₁ hxs hys
          exact hk a b hab t₁ c t d u hx hy

/-- The answer of the first step is mapped on the other side. -/
theorem bind_map {x : Action σ α} {y : Action τ β} {k : α → Action σ γ} {l : β → Action τ δ}
    {g : α → β} (h : Tracks f (fun a b => b = g a) x y) (hk : ∀ a, Tracks f S (k a) (l (g a))) :
    Tracks f S (x >>= k) (y >>= l) :=
  h.bind fun a _ e => e ▸ hk a

/-- The answers of the first steps are the same. -/
theorem bind_eq {x : Action σ α} {y : Action τ α} {k : α → Action σ γ} {l : α → Action τ δ}
    (h : Tracks f Eq x y) (hk : ∀ a, Tracks f S (k a) (l a)) : Tracks f S (x >>= k) (y >>= l) :=
  h.bind fun a _ e => e ▸ hk a

/-- The first step reads the state. -/
theorem get_bind {k : σ → Action σ γ} {l : τ → Action τ δ}
    (hk : ∀ s, Tracks f S (k s) (l (f s))) : Tracks f S (get >>= k) (get >>= l) := by
  refine bind_map (g := f) ?_ hk
  intro s a t b u hx hy
  cases hx
  cases hy
  exact ⟨rfl, rfl⟩

theorem ite {c : Prop} [Decidable c] {x x' : Action σ α} {y y' : Action τ β}
    (h : Tracks f R x y) (h' : Tracks f R x' y') :
    Tracks f R (if c then x else x') (if c then y else y') := by
  split
  · exact h
  · exact h'

theorem modify {g : σ → σ} {g' : τ → τ} (h : ∀ s, g' (f s) = f (g s)) :
    Tracks f Eq (modify g) (modify g') := by
  intro s a t b u hx hy
  cases hx
  cases hy
  exact ⟨rfl, h s⟩

theorem lift {x : Traced α} {y : Traced β}
    (h : ∀ a b, x.result = .ok a → y.result = .ok b → R a b) : Tracks f R (liftM x) (liftM y) := by
  intro s a t b u hx hy
  rw [effect_lift, Prod.mk.injEq] at hx hy
  obtain ⟨ha, rfl⟩ := hx
  obtain ⟨hb, rfl⟩ := hy
  exact ⟨h a b ha hb, rfl⟩

theorem lift_except {x : Except Failure α} {y : Except Failure β}
    (h : ∀ a b, x = .ok a → y = .ok b → R a b) : Tracks f R (liftM x) (liftM y) :=
  lift (x := ⟨[], x⟩) (y := ⟨[], y⟩) h

/-- A computation whose result is mapped on the other side. -/
theorem lift_map {x : Except Failure α} {y : Except Failure β} {g : α → β} (h : y = x.map g) :
    Tracks f (fun a b => b = g a) (liftM x) (liftM y) := by
  refine lift_except fun a b ha hb => ?_
  rw [h, ha] at hb
  exact (Except.ok.inj hb).symm

/-- The same computation on both sides. -/
theorem same (x : Traced α) : Tracks f Eq (liftM x) (liftM x) :=
  lift fun _ _ ha hb => Except.ok.inj (ha.symm.trans hb)

theorem same_except (x : Except Failure α) : Tracks f Eq (liftM x) (liftM x) :=
  lift_except fun _ _ ha hb => Except.ok.inj (ha.symm.trans hb)

/-- What the first steps compute does not matter. -/
theorem except_bind {x : Except Failure α} {y : Except Failure β} {k : α → Action σ γ}
    {l : β → Action τ δ} (hk : ∀ a b, Tracks f S (k a) (l b)) :
    Tracks f S ((liftM x : Action σ α) >>= k) ((liftM y : Action τ β) >>= l) :=
  bind (lift_except fun _ _ _ _ => trivial) fun a b (_ : True) => hk a b

theorem note (e e' : Event) : Tracks f Eq (note e) (note e') := lift fun _ _ _ _ => rfl

/-- A refusal comes to no end. -/
theorem refuse (m m' : Misuse) : Tracks f R (refuse m) (refuse m') := by
  intro s a t b u hx
  cases hx

end Tracks

end MemoryBank.Action
