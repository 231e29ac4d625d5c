import MemoryBank.Event

/-!
# Computations that keep a log

`Traced α` is a computation that logs events and then either answers or fails. The events
logged before a failure are kept.

The lemmas `result_bind_ok` and `result_bind_error`, with their companions for `events`, compute
a sequence from its steps.
-/

namespace MemoryBank

/-- A log together with an answer or a failure. -/
structure Traced (α : Type) where
  events : List Event
  result : Except Failure α

namespace Traced

/-- Run `f` on the answer of `x`, its log following that of `x`. -/
def bind {α β : Type} (x : Traced α) (f : α → Traced β) : Traced β :=
  match x.result with
  | .error e => ⟨x.events, .error e⟩
  | .ok a => ⟨x.events ++ (f a).events, (f a).result⟩

instance : Monad Traced where
  pure a := ⟨[], .ok a⟩
  bind := bind

instance : MonadLift (Except Failure) Traced where
  monadLift r := ⟨[], r⟩

/-- Log one event. -/
def note (e : Event) : Traced Unit := ⟨[e], .ok ()⟩

/-- Refuse to go on because of the caller's fault, which is logged. -/
def refuse {α : Type} (m : Misuse) : Traced α := ⟨[.refused m], .error (.misuse m)⟩

variable {α β : Type}

@[simp] theorem events_pure (a : α) : (pure a : Traced α).events = [] := rfl

@[simp] theorem result_pure (a : α) : (pure a : Traced α).result = .ok a := rfl

@[simp] theorem events_note (e : Event) : (note e).events = [e] := rfl

@[simp] theorem result_note (e : Event) : (note e).result = .ok () := rfl

@[simp] theorem events_refuse (m : Misuse) : (refuse m : Traced α).events = [.refused m] := rfl

@[simp] theorem result_refuse (m : Misuse) :
    (refuse m : Traced α).result = .error (.misuse m) := rfl

@[simp] theorem events_lift (r : Except Failure α) : (liftM r : Traced α).events = [] := rfl

@[simp] theorem result_lift (r : Except Failure α) : (liftM r : Traced α).result = r := rfl

/-- The answer of a sequence is that of its steps, whatever they log. -/
theorem result_bind (x : Traced α) (f : α → Traced β) :
    (x >>= f).result = x.result >>= fun a => (f a).result := by
  obtain ⟨events, result⟩ := x
  cases result <;> rfl

@[simp] theorem result_map (f : α → β) (x : Traced α) : (f <$> x).result = f <$> x.result := by
  obtain ⟨events, result⟩ := x
  cases result <;> rfl

@[simp] theorem events_map (f : α → β) (x : Traced α) : (f <$> x).events = x.events := by
  obtain ⟨events, result⟩ := x
  cases result
  · rfl
  · exact List.append_nil events

theorem result_bind_ok {x : Traced α} {a : α} (h : x.result = .ok a) (f : α → Traced β) :
    (x >>= f).result = (f a).result := by
  rw [result_bind, h]; rfl

theorem result_bind_error {x : Traced α} {e : Failure} (h : x.result = .error e)
    (f : α → Traced β) : (x >>= f).result = .error e := by
  rw [result_bind, h]; rfl

theorem events_bind_ok {x : Traced α} {a : α} (h : x.result = .ok a) (f : α → Traced β) :
    (x >>= f).events = x.events ++ (f a).events := by
  change (bind x f).events = _
  simp [bind, h]

theorem events_bind_error {x : Traced α} {e : Failure} (h : x.result = .error e)
    (f : α → Traced β) : (x >>= f).events = x.events := by
  change (bind x f).events = _
  simp [bind, h]

theorem ext {x y : Traced α} (he : x.events = y.events) (hr : x.result = y.result) : x = y := by
  cases x; cases y; simp_all

theorem bind_assoc {γ : Type} (x : Traced α) (f : α → Traced β) (g : β → Traced γ) :
    bind (bind x f) g = bind x fun a => bind (f a) g := by
  obtain ⟨events, result⟩ := x
  cases result with
  | error e => rfl
  | ok a =>
    simp only [bind]
    split <;> simp_all

instance : LawfulMonad Traced :=
  LawfulMonad.mk' Traced
    (fun ⟨_, result⟩ => by
      cases result
      · rfl
      · exact ext (List.append_nil _) rfl)
    (fun _ _ => ext (List.nil_append _) rfl)
    (fun x f g => bind_assoc x f g)

end Traced

end MemoryBank
