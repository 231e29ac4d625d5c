import MemoryBank.Traced

/-!
# Computations on a state

An `Action σ α` reads and changes a state of type `σ`, logs events, and then either answers or
fails. The state outlives a failure: `Outcome.state` is what the action had made of it by then.
That a refused operation changes nothing is therefore a fact about the operation, and not about
this type.

The lemmas `result_bind_ok`, `state_bind_ok` and `run_bind_error` compute a sequence from its
steps.
-/

namespace MemoryBank

/-- What an action leaves behind. -/
structure Outcome (σ α : Type) where
  events : List Event
  result : Except Failure α
  state : σ

/-- The same outcome, its state seen as part of something else. -/
def Outcome.mapState {σ τ α : Type} (f : σ → τ) (o : Outcome σ α) : Outcome τ α :=
  ⟨o.events, o.result, f o.state⟩

/-- A computation on a state that logs and may fail. -/
structure Action (σ α : Type) where
  run : σ → Outcome σ α

namespace Action

variable {σ α β : Type}

/-- Run `f` on the answer of `x`, in the state that `x` leaves. -/
def bind (x : Action σ α) (f : α → Action σ β) : Action σ β where
  run s :=
    match (x.run s).result with
    | .error e => ⟨(x.run s).events, .error e, (x.run s).state⟩
    | .ok a =>
      let second := (f a).run (x.run s).state
      ⟨(x.run s).events ++ second.events, second.result, second.state⟩

instance : Monad (Action σ) where
  pure a := ⟨fun s => ⟨[], .ok a, s⟩⟩
  bind := bind

instance : MonadStateOf σ (Action σ) where
  get := ⟨fun s => ⟨[], .ok s, s⟩⟩
  set t := ⟨fun _ => ⟨[], .ok (), t⟩⟩
  modifyGet f := ⟨fun s => ⟨[], .ok (f s).1, (f s).2⟩⟩

instance : MonadLift Traced (Action σ) where
  monadLift x := ⟨fun s => ⟨x.events, x.result, s⟩⟩

/-- Log one event. -/
def note (e : Event) : Action σ Unit := liftM (Traced.note e)

/-- Refuse to go on because of the caller's fault. -/
def refuse (m : Misuse) : Action σ α := liftM (Traced.refuse m : Traced α)

/-- The state that an action makes of `s`, if it does not fail. -/
def exec (x : Action σ Unit) (s : σ) : Traced σ :=
  ⟨(x.run s).events, (x.run s).result.map fun () => (x.run s).state⟩

/-! ## Runs -/

theorem run_pure (a : α) (s : σ) : (pure a : Action σ α).run s = ⟨[], .ok a, s⟩ := rfl

theorem run_get (s : σ) : (get : Action σ σ).run s = ⟨[], .ok s, s⟩ := rfl

theorem run_set (t s : σ) : (set t : Action σ PUnit).run s = ⟨[], .ok (), t⟩ := rfl

theorem run_lift (x : Traced α) (s : σ) :
    (liftM x : Action σ α).run s = ⟨x.events, x.result, s⟩ := rfl

theorem run_lift_except (r : Except Failure α) (s : σ) :
    (liftM r : Action σ α).run s = ⟨[], r, s⟩ := rfl

theorem run_note (e : Event) (s : σ) : (note e : Action σ Unit).run s = ⟨[e], .ok (), s⟩ := rfl

theorem run_refuse (m : Misuse) (s : σ) :
    (refuse m : Action σ α).run s = ⟨[.refused m], .error (.misuse m), s⟩ := rfl

theorem result_bind_ok {x : Action σ α} {s : σ} {a : α} (h : (x.run s).result = .ok a)
    (f : α → Action σ β) : ((x >>= f).run s).result = ((f a).run (x.run s).state).result := by
  change ((bind x f).run s).result = _
  simp [bind, h]

theorem state_bind_ok {x : Action σ α} {s : σ} {a : α} (h : (x.run s).result = .ok a)
    (f : α → Action σ β) : ((x >>= f).run s).state = ((f a).run (x.run s).state).state := by
  change ((bind x f).run s).state = _
  simp [bind, h]

theorem run_bind_error {x : Action σ α} {s : σ} {e : Failure} (h : (x.run s).result = .error e)
    (f : α → Action σ β) : (x >>= f).run s = ⟨(x.run s).events, .error e, (x.run s).state⟩ := by
  change (bind x f).run s = _
  simp [bind, h]

theorem ext {x y : Action σ α} (h : ∀ s, x.run s = y.run s) : x = y := by
  cases x; cases y
  congr
  exact funext h

theorem bind_assoc {γ : Type} (x : Action σ α) (f : α → Action σ β) (g : β → Action σ γ) :
    bind (bind x f) g = bind x fun a => bind (f a) g := by
  refine ext fun s => ?_
  cases h : (x.run s).result with
  | error e => simp [bind, h]
  | ok a => cases h' : ((f a).run (x.run s).state).result <;> simp [bind, h, h']

instance : LawfulMonad (Action σ) :=
  LawfulMonad.mk' (Action σ)
    (fun {α} x => ext fun s => by
      change (bind x fun a : α => ⟨fun s => ⟨[], .ok a, s⟩⟩).run s = x.run s
      simp only [bind]
      split <;> rename_i h <;> simp [← h])
    (fun _ _ => rfl)
    (fun x f g => bind_assoc x f g)

end Action

end MemoryBank
