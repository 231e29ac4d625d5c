import MemoryBank.Proofs.Questions
import MemoryBank.Proofs.Reached

/-!
# No internal failure

The bookkeeping of an allocator checks itself, and all sums and differences, as it goes. No run of
any allocator meets such a check that does not hold.

* `Request.Ends`: the ways in which a request may end. A failure is a misuse that the caller is told
  of.
* `Allocator.Answers`: all questions are answered, and what is counted without a check is in range.
* `Allocator.runs_without_breach`: every request of every run ends so, and all questions after it
  are answered.
-/

namespace MemoryBank

open MemoryBank.Action

/-! ## How requests end -/

/-- The ways in which a request ends. -/
inductive Request.Ends : Request → Except Failure Reply → Prop
  | placed {size : ℕ} {p : Placement} {address : ℕ} :
      Ends (.allocate size p) (.ok (.placed address))
  | noRoom {size : ℕ} {p : Placement} : Ends (.allocate size p) (.ok .noRoom)
  /-- The address in the block that is taken is not below the caller's limit. -/
  | aboveLimit {size : ℕ} {p : Placement} {limit address : ℕ} (hp : p.limit = some limit)
      (hl : limit ≤ address) :
      Ends (.allocate size p) (.error (.misuse (.addressLimitExceeded limit address)))
  | placedAt {address size : ℕ} : Ends (.allocateAt address size) (.ok (.placed address))
  | occupied {address size : ℕ} : Ends (.allocateAt address size) (.ok .noRoom)
  | freed {address : ℕ} : Ends (.deallocate address) (.ok .done)
  | notAllocated {address : ℕ} :
      Ends (.deallocate address) (.error (.misuse (.invalidDeallocation address)))
  | cleared : Ends .clear (.ok .done)
  | cut {amount : ℕ} {d : Direction} : Ends (.shrink amount d) (.ok .done)
  | cutsAllocation {amount address : ℕ} : Ends (.shrink amount .bottomUp)
      (.error (.misuse (.shrinkCutsIntoAllocation amount address)))
  | cutsTooMuch {amount usable : ℕ} (h : usable < amount) : Ends (.shrink amount .bottomUp)
      (.error (.misuse (.shrinkExceedsCapacity amount usable)))
  | cutsTop {amount : ℕ} (h : 0 < amount) :
      Ends (.shrink amount .topDown) (.error (.misuse .topDownShrinkUnsupported))
  | restored : Ends .restore (.ok .done)

/-- No request ends in a failure of the allocator's own. -/
theorem Request.Ends.not_internal {r : Request} {e : Failure} (h : r.Ends (.error e)) :
    e.isInternal = false := by
  cases h <;> rfl

namespace View

variable {v : View} {pick : ℕ → Option Block} {r : Request} {n size address : ℕ} {k : Block}
  {p : Placement}

theorem answerIn_ends : (Request.allocate size p).Ends (v.answerIn k n p) := by
  unfold answerIn
  dsimp only
  split
  case h_1 => exact .placed
  case h_2 limit hp =>
    split
    · exact .placed
    · exact .aboveLimit hp (by omega)

theorem answerAt_ends : (Request.allocateAt address size).Ends (.ok (v.answerAt address n)) := by
  unfold answerAt
  split
  · exact .placedAt
  · exact .occupied

theorem answerCut_ends {amount : ℕ} (ha : 0 < amount) (d : Direction) :
    (Request.shrink amount d).Ends (v.answerCut amount d) := by
  cases d with
  | topDown => exact .cutsTop ha
  | bottomUp =>
    rw [answerCut]
    split
    case isTrue =>
      split
      · exact .cutsAllocation
      · exact .cut
    case isFalse h => exact .cutsTooMuch (Nat.lt_of_not_le h)

/-- **The contract knows no other ends.** -/
theorem answer_ends (h : v.geometry.Sound) (hm : v.geometry.minimum < Address.limit)
    (hr : r.InRange) : r.Ends (v.answer pick r) := by
  cases r with
  | allocate size p =>
    obtain ⟨o, ho⟩ := grant_ok h hm hr.1
    cases o with
    | none =>
      rw [answer_allocate_of_none ho]
      exact .noRoom
    | some n =>
      rw [answer_allocate_of_some ho]
      cases pick n with
      | none => exact .noRoom
      | some k => exact answerIn_ends
  | allocateAt address size =>
    obtain ⟨o, ho⟩ := grant_ok h hm hr.2
    cases o with
    | none =>
      rw [answer_allocateAt_of_none ho]
      exact .occupied
    | some n =>
      rw [answer_allocateAt_of_some ho]
      exact answerAt_ends
  | deallocate address =>
    rw [answer]
    split
    · exact .freed
    · exact .notAllocated
  | clear => exact .cleared
  | shrink amount d =>
    rw [answer]
    split
    case isTrue => exact .cut
    case isFalse ha => exact answerCut_ends (Nat.pos_of_ne_zero ha) d
  | restore => exact .restored

end View

/-! ## All questions are answered -/

/-- What an indexed allocator counts or shifts by without a check. -/
structure Indexed.Counts (a : Indexed) : Prop where
  /-- No more addresses are recorded than there are blocks. -/
  recorded : a.live.length ≤ a.bank.table.blocks.length
  /-- An address that is forgotten was counted. -/
  forgotten : ∀ address i live, a.live.remove? address = some (i, live) →
    a.live.length = live.length + 1
  /-- The bounds of a class are found by a shift, which is shorter than an address. -/
  shifts : a.free.buckets.length < 64

/-- All questions about an allocator are answered. -/
structure Allocator.Answers (a : Allocator) : Prop where
  usage : ∃ u, a.bank.usage = .ok u
  available : ∀ request < Address.limit,
    ∃ ranges, (a.bank.availableAddresses request).result = .ok ranges
  lowest : ∃ address?, a.bank.lowestOccupied = .ok address?
  /-- The audit ends, and it finds nothing wrong. -/
  audit : a.audit = .ok {}
  /-- A walk through the blocks meets no handle that names nothing. -/
  linked : a.bank.table.Holds a.bank.table.blocks
  /-- The blocks can be counted, and one more for what is cut off: each has a byte of the bank. -/
  blocks : a.bank.table.blocks.length + a.bank.shrunk ≤ a.bank.geometry.size ∧
    a.bank.geometry.size < Address.limit
  counts : ∀ i, a = .indexed i → i.Counts

theorem Ledger.Sound.counts {c : Ledger} (h : c.Sound) (classes : SizeClasses) :
    (c.grouped classes).Counts := by
  refine ⟨?_, fun address i live hl => ?_, ?_⟩
  · rw [Ledger.live_grouped, h.live.length, liveEntries, List.length_map]
    exact List.length_filter_le _ _
  · by_cases ha : ∃ e ∈ liveEntries c.bank.table.blocks, e.1 = address
    · obtain ⟨e, he, rfl⟩ := ha
      obtain ⟨live', hl', hr⟩ := h.live.remove? he
      obtain ⟨-, rfl⟩ := Prod.ext_iff.1 (Option.some.inj (hl.symm.trans hl'))
      have := List.length_pos_of_mem he
      rw [Ledger.live_grouped, h.live.length, hr.length, List.length_erase_of_mem he]
      omega
    · rw [Ledger.live_grouped, h.live.remove?_eq_none fun e he hk => ha ⟨e, he, hk⟩] at hl
      cases hl
  · rw [(c.grouped classes).free.length_buckets]
    exact classes.count_lt

namespace Allocator

theorem Sound.answers {a : Allocator} (h : a.Sound)
    (hm : a.bank.geometry.minimum < Address.limit) : a.Answers := by
  have hb := h.bank
  obtain ⟨u, hu, -⟩ := hb.usage_ok
  refine ⟨⟨u, hu⟩, fun request hr => hb.availableAddresses_ok hm hr, ⟨_, hb.lowestOccupied_eq⟩,
    h.audit_eq, hb.table, ⟨?_, ?_⟩, ?_⟩
  · have := hb.tiles.add_length_le
    have := hb.account
    omega
  · have := hb.geometry.stop
    omega
  · rintro i rfl
    obtain ⟨c, classes, hc, rfl⟩ := h
    exact hc.counts classes

/-- Every request of a run ends as it may. -/
theorem Reached.serve_ends {g : Geometry} {log : Log} {a : Allocator} (h : Reached g log a)
    (hm : g.minimum < Address.limit) {rs : List Request} (hr : ∀ r ∈ rs, r.InRange) :
    List.Forall₂ Request.Ends rs (serve perform rs a).1 := by
  induction rs generalizing log a with
  | nil => exact .nil
  | cons r rs ih =>
    have hr₁ := hr r List.mem_cons_self
    obtain ⟨a', he, h', -⟩ := h.step hr₁
    have hm' : a.bank.geometry.minimum < Address.limit := by rwa [h.geometry]
    rw [serve_cons he]
    exact .cons (View.answer_ends h.sound.bank.geometry hm' hr₁)
      (ih h' fun r h => hr r (List.mem_cons_of_mem _ h))

/-- **No internal failure is reachable.** An allocator of any legal design is built for any sound
geometry; each request of any run ends in an answer or in a misuse of the caller's; and afterwards
all questions are answered. -/
theorem runs_without_breach {d : Design} (hd : d.Legal) {g : Geometry} (hg : g.validate = .ok ())
    (hm : g.minimum < Address.limit) {rs : List Request} (hr : ∀ r ∈ rs, r.InRange) :
    ∃ a replies a', (d.build g).result = .ok a ∧ serve perform rs a = (replies, a') ∧
      List.Forall₂ Request.Ends rs replies ∧ a'.Answers := by
  obtain ⟨a, hb, -, -⟩ := Design.build_spec hd hg
  have ha : Reached g [] a := .built hb
  have h' := ha.after hr rfl
  exact ⟨a, _, _, hb, rfl, ha.serve_ends hm hr, h'.sound.answers (by rwa [h'.geometry])⟩

/-- A bank that ends at the highest address, all of which is cut off and given back. -/
theorem runs_without_breach_at_top : ∃ a replies a',
    ((Design.indexed 1 63).build ⟨2 ^ 64 - 2, 1, 0, 1⟩).result = .ok a ∧
      serve perform [.allocate 1 { direction := .topDown }, .shrink (2 ^ 64 - 1) .bottomUp,
        .deallocate (2 ^ 64 - 2), .shrink (2 ^ 64 - 2) .bottomUp, .allocate 0 {}, .restore] a =
        (replies, a') ∧
      List.Forall₂ Request.Ends [.allocate 1 { direction := .topDown },
        .shrink (2 ^ 64 - 1) .bottomUp, .deallocate (2 ^ 64 - 2), .shrink (2 ^ 64 - 2) .bottomUp,
        .allocate 0 {}, .restore] replies ∧ a'.Answers :=
  runs_without_breach (d := .indexed 1 63) ⟨by decide, by decide, by decide⟩ (by decide)
    (by decide) (by simp [Request.InRange, Address.limit])

end Allocator

end MemoryBank
