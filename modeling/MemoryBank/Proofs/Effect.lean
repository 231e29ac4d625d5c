import MemoryBank.Action

/-!
# The effect of an action

What an action answers and the state that it leaves, without its log. `Action.effect_bind` computes
a sequence step by step.
-/

namespace MemoryBank.Action

variable {σ α β : Type}

/-- The answer of an action, or its failure, with the state that it leaves. -/
def effect (x : Action σ α) (s : σ) : Except Failure α × σ := ((x.run s).result, (x.run s).state)

@[simp] theorem effect_pure (a : α) (s : σ) : (pure a : Action σ α).effect s = (.ok a, s) := rfl

@[simp] theorem effect_get (s : σ) : (get : Action σ σ).effect s = (.ok s, s) := rfl

@[simp] theorem effect_modify (f : σ → σ) (s : σ) :
    (modify f : Action σ PUnit).effect s = (.ok (), f s) := rfl

@[simp] theorem effect_lift (x : Traced α) (s : σ) :
    (liftM x : Action σ α).effect s = (x.result, s) := rfl

@[simp] theorem effect_lift_except (r : Except Failure α) (s : σ) :
    (liftM r : Action σ α).effect s = (r, s) := rfl

@[simp] theorem effect_note (e : Event) (s : σ) : (note e : Action σ Unit).effect s = (.ok (), s) :=
  rfl

@[simp] theorem effect_refuse (m : Misuse) (s : σ) :
    (refuse m : Action σ α).effect s = (.error (.misuse m), s) := rfl

/-- The effect of a sequence, from that of its first step. -/
theorem effect_bind (x : Action σ α) (f : α → Action σ β) (s : σ) :
    (x >>= f).effect s = match x.effect s with
      | (.ok a, t) => (f a).effect t
      | (.error e, t) => (.error e, t) := by
  unfold effect
  cases h : (x.run s).result with
  | error e => simp only [run_bind_error h]
  | ok a => simp only [result_bind_ok h, state_bind_ok h]

theorem effect_bind_ok {x : Action σ α} {s t : σ} {a : α} (h : x.effect s = (.ok a, t))
    (f : α → Action σ β) : (x >>= f).effect s = (f a).effect t := by
  rw [effect_bind, h]

end MemoryBank.Action
