import MemoryBank.Proofs.Reached

/-!
# Refusals change nothing

A request that is refused, for lack of room or for a misuse, leaves the allocator as it was: the
account of the bank, all slots and links, the size classes with their order, and the index of the
allocated blocks. So refused requests may be left out of a run.

* `kept`: what is left of a log without its refusals.
* `Allocator.Reached.refusals_leave_no_trace`: both statements, for all runs.
-/

namespace MemoryBank

open MemoryBank.Action

instance (reply : Except Failure Reply) : Decidable (Refused reply) :=
  match reply with
  | .ok (.placed _) => .isFalse not_refused_placed
  | .ok .noRoom => .isTrue refused_noRoom
  | .ok .done => .isFalse not_refused_done
  | .error e => .isTrue (refused_error e)

/-- The entries of a log that are no refusals. -/
def kept (log : Log) : Log := log.filter fun entry => ¬Refused entry.2

section Kept

variable {log : Log} {r : Request} {reply : Except Failure Reply}

theorem kept_cons_of_refused (h : Refused reply) : kept ((r, reply) :: log) = kept log :=
  List.filter_cons_of_neg (by simpa using h)

theorem kept_cons_of_not_refused (h : ¬Refused reply) :
    kept ((r, reply) :: log) = (r, reply) :: kept log :=
  List.filter_cons_of_pos (by simpa using h)

end Kept

namespace Allocator

variable {g : Geometry} {log : Log} {a a' : Allocator}

/-- Without the requests that are refused, a run gives the other answers and leads to the same
state. -/
theorem Reached.serve_kept (h : Reached g log a) {rs : List Request} (hr : ∀ r ∈ rs, r.InRange)
    {replies : List (Except Failure Reply)} (hs : serve perform rs a = (replies, a')) :
    serve perform ((kept (rs.zip replies)).map (·.1)) a =
      ((kept (rs.zip replies)).map (·.2), a') := by
  induction rs generalizing log a replies with
  | nil =>
    obtain ⟨rfl, rfl⟩ := Prod.ext_iff.1 hs
    rfl
  | cons r rs ih =>
    obtain ⟨a₁, he, h₁, hkeep⟩ := h.step (hr r List.mem_cons_self)
    have hr₁ : ∀ r ∈ rs, r.InRange := fun r h => hr r (List.mem_cons_of_mem _ h)
    rw [serve_cons he] at hs
    obtain ⟨rfl, rfl⟩ := Prod.ext_iff.1 hs
    rw [List.zip_cons_cons]
    by_cases hrefused : Refused (a.view.answer a.choose? r)
    · -- the rest of the run starts where this request was refused
      rw [kept_cons_of_refused hrefused]
      obtain rfl := hkeep hrefused
      exact ih h₁ hr₁ rfl
    · rw [kept_cons_of_not_refused hrefused, List.map_cons, List.map_cons, serve_cons he,
        ih h₁ hr₁ rfl]

/-- **Requests that are refused change nothing.** A refused request leaves the state as it was in
every part. So a run without its refused requests gives the other answers, and leads to the same
state. -/
theorem Reached.refusals_leave_no_trace (h : Reached g log a) :
    (∀ r, r.InRange → Refused ((perform r).effect a).1 → ((perform r).effect a).2 = a) ∧
    ∀ rs, (∀ r ∈ rs, r.InRange) → ∀ replies a', serve perform rs a = (replies, a') →
      serve perform ((kept (rs.zip replies)).map (·.1)) a =
        ((kept (rs.zip replies)).map (·.2), a') := by
  refine ⟨fun r hr hrefused => ?_, fun rs hr replies a' hs => h.serve_kept hr hs⟩
  obtain ⟨a', he, -, hkeep⟩ := h.step hr
  rw [he] at hrefused ⊢
  exact hkeep hrefused

/-- A run of an allocator with size classes, and the same run without the five requests in it that
are refused, each for a reason of its own. The limit, for one, is looked at only after a block has
been chosen from the classes. -/
theorem refusals_leave_no_trace_of_five : ∃ a a',
    ((Design.indexed 16 3).build ⟨64, 4096, 16, 16⟩).result = .ok a ∧
    Reached ⟨64, 4096, 16, 16⟩ [] a ∧
    serve perform [.shrink 16 .bottomUp, .allocateAt 4096 16,
      .allocate 20 { limit := some 4112 }, .allocate 20 {}, .deallocate 4096,
      .shrink 16 .topDown, .shrink 16 .bottomUp, .allocate 16 { direction := .topDown }] a =
      ([.ok .done, .ok .noRoom, .error (.misuse (.addressLimitExceeded 4112 4112)),
        .ok (.placed 4112), .error (.misuse (.invalidDeallocation 4096)),
        .error (.misuse .topDownShrinkUnsupported),
        .error (.misuse (.shrinkCutsIntoAllocation 16 4112)), .ok (.placed 4144)], a') ∧
    serve perform [.shrink 16 .bottomUp, .allocate 20 {},
      .allocate 16 { direction := .topDown }] a =
      ([.ok .done, .ok (.placed 4112), .ok (.placed 4144)], a') := by
  have hbuild := Design.build_indexed (g := ⟨64, 4096, 16, 16⟩) (by decide)
    ⟨16, 3, by decide, by decide, by decide⟩
  have h := Reached.built hbuild
  have hreplies : (serve perform [.shrink 16 .bottomUp, .allocateAt 4096 16,
      .allocate 20 { limit := some 4112 }, .allocate 20 {}, .deallocate 4096, .shrink 16 .topDown,
      .shrink 16 .bottomUp, .allocate 16 { direction := .topDown }]
      (.indexed ((Ledger.fresh ⟨64, 4096, 16, 16⟩).grouped
        ⟨16, 3, by decide, by decide, by decide⟩))).1 =
      [.ok .done, .ok .noRoom, .error (.misuse (.addressLimitExceeded 4112 4112)),
        .ok (.placed 4112), .error (.misuse (.invalidDeallocation 4096)),
        .error (.misuse .topDownShrinkUnsupported),
        .error (.misuse (.shrinkCutsIntoAllocation 16 4112)), .ok (.placed 4144)] := by
    decide +kernel
  have hrun := Prod.fst_eq_iff.1 hreplies
  have hkept := h.refusals_leave_no_trace.2 _ (by simp [Request.InRange, Address.limit]) _ _ hrun
  exact ⟨_, _, hbuild, h, hrun, hkept⟩

end Allocator

end MemoryBank
