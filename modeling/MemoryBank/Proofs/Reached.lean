import MemoryBank.Proofs.History

/-!
# What runs lead to

`Allocator.Reached g log a`: a run for the geometry `g` leads to the allocator `a`, and `log` tells
what was asked and answered. The design does not matter, and requests that failed are followed by
others all the same.

* `Reached.view_eq`: the log tells what callers can tell.
* `Reached.step` and `Reached.after`: how a run goes on; `Reached.of_append`: how it went.
* `Reached.of_serve`: the runs are those that `serve` makes; `serve_append`: a run in two parts.
-/

namespace MemoryBank

open MemoryBank.Action

/-- What was asked and what was answered, the earliest first. -/
abbrev Log := List (Request × Except Failure Reply)

/-- The number of bytes that answers tell to be cut off. -/
def cutOff (log : Log) : ℕ := log.foldl (fun shrunk entry => shrunkAfter shrunk entry.1 entry.2) 0

section Logs

variable {g : Geometry} {log : Log} {r : Request} {reply : Except Failure Reply}

@[simp] theorem history_nil : history g [] = ∅ := rfl

@[simp] theorem history_concat :
    history g (log ++ [(r, reply)]) = liveAfter g (history g log) r reply := by
  rw [history, List.foldl_concat]
  rfl

@[simp] theorem cutOff_nil : cutOff [] = 0 := rfl

@[simp] theorem cutOff_concat :
    cutOff (log ++ [(r, reply)]) = shrunkAfter (cutOff log) r reply := by
  rw [cutOff, List.foldl_concat]
  rfl

end Logs

theorem serve_append {σ : Type} (perform : Request → Action σ Reply) (rs ts : List Request)
    (s : σ) : serve perform (rs ++ ts) s =
      ((serve perform rs s).1 ++ (serve perform ts (serve perform rs s).2).1,
        (serve perform ts (serve perform rs s).2).2) := by
  induction rs generalizing s with
  | nil => rfl
  | cons r rs ih => simp [serve, ih]

namespace Allocator

/-- A run leads to the allocator, and the log tells the run. -/
inductive Reached (g : Geometry) : Log → Allocator → Prop
  | built {d : Design} {a : Allocator} (h : (d.build g).result = .ok a) : Reached g [] a
  | served {log : Log} {a a' : Allocator} {r : Request} {reply : Except Failure Reply}
      (h : Reached g log a) (hr : r.InRange) (hs : (perform r).effect a = (reply, a')) :
      Reached g (log ++ [(r, reply)]) a'

namespace Reached

variable {g : Geometry} {log : Log} {a : Allocator}

theorem valid (h : Reached g log a) : g.validate = .ok () := by
  induction h with
  | built h => exact (Design.build_ok h).1
  | served _ _ _ ih => exact ih

/-- All is well with an allocator after a run, and the log tells what callers can tell of it. -/
theorem spec (h : Reached g log a) : a.Sound ∧ a.view = ⟨g, cutOff log, history g log⟩ := by
  induction h with
  | built h =>
    obtain ⟨hg, hs, hb⟩ := Design.build_ok h
    exact ⟨hs, by rw [view, hb, Bank.view_fresh (Geometry.validate_eq_ok_iff.1 hg)]; rfl⟩
  | @served log a a' r reply _ hr hs ih =>
    obtain ⟨hsound, hview⟩ := ih
    obtain ⟨a'', he, hsound', hview', -⟩ := perform_spec hsound hr
    obtain ⟨rfl, rfl⟩ := Prod.ext_iff.1 (he.symm.trans hs)
    refine ⟨hsound', ?_⟩
    rw [hview', hview, history_concat, cutOff_concat]
    rfl

theorem sound (h : Reached g log a) : a.Sound := h.spec.1

theorem view_eq (h : Reached g log a) : a.view = ⟨g, cutOff log, history g log⟩ := h.spec.2

theorem geometry (h : Reached g log a) : a.bank.geometry = g := congrArg View.geometry h.view_eq

theorem shrunk (h : Reached g log a) : a.bank.shrunk = cutOff log := congrArg View.shrunk h.view_eq

theorem live (h : Reached g log a) : a.view.live = history g log := congrArg View.live h.view_eq

/-- A run goes on with one more request. -/
theorem step (h : Reached g log a) {r : Request} (hr : r.InRange) :
    ∃ a', (perform r).effect a = (a.view.answer a.choose? r, a') ∧
      Reached g (log ++ [(r, a.view.answer a.choose? r)]) a' ∧
      (Refused (a.view.answer a.choose? r) → a' = a) := by
  obtain ⟨a', he, -, -, hk⟩ := perform_spec h.sound hr
  exact ⟨a', he, h.served hr he, hk⟩

/-- A run goes on with more requests. -/
theorem after (h : Reached g log a) {rs : List Request} (hr : ∀ r ∈ rs, r.InRange)
    {replies : List (Except Failure Reply)} {a' : Allocator}
    (hs : serve perform rs a = (replies, a')) :
    Reached g (log ++ rs.zip replies) a' := by
  induction rs generalizing log a replies with
  | nil =>
    obtain ⟨rfl, rfl⟩ := Prod.ext_iff.1 hs
    simpa [serve] using h
  | cons r rs ih =>
    obtain ⟨a₁, he, h₁, -⟩ := h.step (hr r List.mem_cons_self)
    rw [serve_cons he] at hs
    obtain ⟨rfl, rfl⟩ := Prod.ext_iff.1 hs
    have := ih h₁ (fun r h => hr r (List.mem_cons_of_mem _ h)) rfl
    rwa [List.append_assoc] at this

/-- Each entry of a log was served where those before it had led. -/
theorem of_append {before after : Log} {r : Request} {reply : Except Failure Reply}
    (h : Reached g (before ++ (r, reply) :: after) a) :
    ∃ a₀ a₁, Reached g before a₀ ∧ r.InRange ∧ (perform r).effect a₀ = (reply, a₁) := by
  generalize hlog : before ++ (r, reply) :: after = log at h
  -- a log grows at its end, so the entry is the last one or lies in the log before the last step
  induction h generalizing after with
  | built => simp at hlog
  | @served log a₀ a₁ r' reply' h hr hs ih =>
    cases after using List.reverseRecOn with
    | nil =>
      obtain ⟨rfl, he⟩ := List.append_inj' hlog rfl
      obtain ⟨rfl, rfl⟩ := Prod.ext_iff.1 (List.singleton_inj.1 he)
      exact ⟨a₀, a₁, h, hr, hs⟩
    | append_singleton after entry =>
      rw [← List.cons_append, ← List.append_assoc] at hlog
      exact ih (List.append_inj' hlog rfl).1

/-- What `serve` leads to is reached. -/
theorem of_serve {d : Design} {a₀ : Allocator} (hb : (d.build g).result = .ok a₀)
    (rs : List Request) (hr : ∀ r ∈ rs, r.InRange) {replies : List (Except Failure Reply)}
    (hs : serve perform rs a₀ = (replies, a)) : Reached g (rs.zip replies) a :=
  after (.built hb) hr hs

end Reached

end Allocator

end MemoryBank
