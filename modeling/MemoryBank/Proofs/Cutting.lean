import MemoryBank.Proofs.FreeBytes
import MemoryBank.Proofs.Questions
import MemoryBank.Proofs.Reached
import Mathlib.Order.Bounds.Basic

/-!
# Cutting bytes off the low end

When a cut is made, what it leads to, and which allocation an answer names that refuses it.

* `Bank.Holds.lowest_isLeast`: callers are told the lowest address of a block in use.
* `Bank.Holds.obstacle`: no block but that one is ever found in the way of a cut.
* `Allocator.Reached.shrinks_unless_blocked`: a cut is made just as `Allocator.Shrinks` tells,
  wherever a run has led.
-/

namespace MemoryBank

namespace Bank.Holds

variable {b : Bank} {bs : List Block} {amount x : ℕ}

/-- The lowest allocated address is that of the first block in use. -/
theorem lowest_eq_head (h : b.Holds bs) :
    b.view.lowest? = b.inUse.head?.map (·.address + b.geometry.offset) := by
  rw [h.lowest_eq, h.inUse_eq, List.head?_filter]

theorem lowest_isLeast (h : b.Holds bs) (hx : b.view.lowest? = some x) :
    IsLeast {y | ∃ k ∈ b.inUse, k.address + b.geometry.offset = y} x := by
  rw [h.lowest_eq_head] at hx
  obtain ⟨k, hk, rfl⟩ := Option.map_eq_some_iff.1 hx
  obtain ⟨ks, hks⟩ := List.head?_eq_some_iff.1 hk
  have hpair : b.inUse.Pairwise fun k c => k.address + k.size ≤ c.address := by
    rw [h.inUse_eq]
    exact h.tiles.pairwise.sublist List.filter_sublist
  rw [hks] at hpair ⊢
  refine ⟨⟨k, List.mem_cons_self, rfl⟩, ?_⟩
  rintro y ⟨c, hc, rfl⟩
  rcases List.mem_cons.1 hc with rfl | hc
  · exact le_rfl
  · have := (List.pairwise_cons.1 hpair).1 c hc
    omega

/-- **What is in the way of a cut is the lowest block in use**, and neither the end of the blocks
nor the start of a bank without blocks: these could only be in the way of a cut that exceeds what
is left. -/
theorem obstacle (h : b.Holds bs) (ha : 0 < amount) (hle : amount ≤ b.usable)
    (hc : b.table.frontCut amount = .ok (.blocked x)) : ∃ k ∈ b.inUse, k.address = x ∧
      b.view.lowest? = some (x + b.geometry.offset) := by
  have hcut := h.table.frontCut amount fun k hk => by
    have := h.in_range hk
    omega
  have hland : landing amount bs = .blocked x := Except.ok.inj (hcut.symm.trans hc)
  rcases h.landing_cases ha hle with ⟨k, ys, -, -, -, hk⟩ | ⟨k, hk, -, hblocked⟩
  · rw [hk] at hland
    cases hland
  · obtain rfl := FrontCut.blocked.inj (hblocked.symm.trans hland)
    refine ⟨k, ?_, rfl, by rw [h.lowest_eq, hk]; rfl⟩
    rw [h.inUse_eq]
    exact List.mem_filter.2 ⟨List.mem_of_find?_eq_some hk, List.find?_some hk⟩

end Bank.Holds

namespace Allocator

variable {a : Allocator} {amount : ℕ}

/-- A cut of `amount` bytes is made unless it is asked for at the high end, exceeds what is left, or
reaches the lowest allocation. Where it is not made, nothing changes. -/
structure Shrinks (a : Allocator) (amount : ℕ) (lowest : Option ℕ) : Prop where
  topDown : (perform (.shrink amount .topDown)).effect a =
    (.error (.misuse .topDownShrinkUnsupported), a)
  exceeds : a.bank.usable < amount → (perform (.shrink amount .bottomUp)).effect a =
    (.error (.misuse (.shrinkExceedsCapacity amount a.bank.usable)), a)
  blocked : amount ≤ a.bank.usable → ∀ x ∈ lowest,
    x < a.bank.geometry.offset + a.bank.shrunk + amount →
      (perform (.shrink amount .bottomUp)).effect a =
        (.error (.misuse (.shrinkCutsIntoAllocation amount x)), a)
  done : amount ≤ a.bank.usable →
    (∀ x ∈ lowest, a.bank.geometry.offset + a.bank.shrunk + amount ≤ x) → ∃ a',
      (perform (.shrink amount .bottomUp)).effect a = (.ok .done, a') ∧
        a.bank.GivesUp amount a'.bank
  /-- The search for the cut's place names no other obstacle than the lowest allocation. -/
  obstacle : amount ≤ a.bank.usable → ∀ x, a.bank.table.frontCut amount = .ok (.blocked x) →
    (∃ k ∈ a.bank.inUse, k.address = x) ∧ lowest = some (x + a.bank.geometry.offset)

/-- A cut of no bytes changes nothing. -/
theorem shrink_zero (a : Allocator) (d : Direction) :
    (perform (.shrink 0 d)).effect a = (.ok .done, a) := by
  cases a with
  | linear a => exact effect_linear rfl
  | indexed a => exact effect_indexed rfl

theorem Sound.shrinks (h : a.Sound) (hr : ∀ d, (Request.shrink amount d).InRange)
    (ha : 0 < amount) : a.Shrinks amount a.view.lowest? := by
  have hb := h.bank
  have husable : a.view.usable = a.bank.usable := hb.usable_eq
  have hstart : a.view.start = a.bank.geometry.offset + a.bank.shrunk := rfl
  have hanswer : ∀ d, a.view.answer a.choose? (.shrink amount d) = a.view.answerCut amount d :=
    fun d => if_neg ha.ne'
  constructor
  · exact h.refuses (hr _) (hanswer .topDown) (refused_error _)
  · intro hlt
    refine h.refuses (hr _) ?_ (refused_error _)
    rw [hanswer, View.answerCut, husable, if_neg (by omega)]
  · intro hle x hx hlt
    refine h.refuses (hr _) ?_ (refused_error _)
    rw [hanswer, View.answerCut, husable, if_pos hle, Option.mem_def.1 hx, hstart,
      Option.filter_some_pos (by simpa using hlt)]
  · intro hle hfar
    have hdone : a.view.answer a.choose? (.shrink amount .bottomUp) = .ok .done := by
      have hnone : a.view.lowest?.filter (· < a.view.start + amount) = none := by
        rw [Option.filter_eq_none_iff]
        intro x hx
        have := hfar x hx
        simp only [decide_eq_true_eq]
        omega
      rw [hanswer, View.answerCut, husable, if_pos hle, hnone]
    obtain ⟨a', he, -⟩ := perform_spec h (hr .bottomUp)
    rw [hdone] at he
    exact ⟨a', he, (perform_step h (hr .bottomUp) he).1.givesUp ha⟩
  · intro hle x hc
    obtain ⟨k, hk, hka, hx⟩ := hb.obstacle ha hle hc
    exact ⟨⟨k, hk, hka⟩, hx⟩

/-- **A cut is made or refused just as callers can tell beforehand**, wherever a run has led. They
are told the lowest allocated address, if there is one, and that is what a refusal names. -/
theorem Reached.shrinks_unless_blocked {g : Geometry} {log : Log} (h : Reached g log a)
    (hr : amount < Address.limit) :
    (∀ d, (perform (.shrink 0 d)).effect a = (.ok .done, a)) ∧
      ∃ lowest, a.bank.lowestOccupied = .ok lowest ∧ (lowest = none ↔ a.bank.inUse = []) ∧
        (∀ x ∈ lowest, IsLeast {y | ∃ k ∈ a.bank.inUse, k.address + g.offset = y} x) ∧
        (0 < amount → a.Shrinks amount lowest) := by
  have hb := h.sound.bank
  refine ⟨a.shrink_zero, a.view.lowest?, hb.lowestOccupied_eq, ?_, fun x hx => ?_,
    h.sound.shrinks fun _ => hr⟩
  · change a.bank.view.lowest? = none ↔ _
    rw [hb.lowest_eq_head, Option.map_eq_none_iff, List.head?_eq_none_iff]
  · rw [← h.geometry]
    exact hb.lowest_isLeast hx

/-- A second cut may use up the lowest block. -/
theorem shrinks_up_to_allocation : ∃ log a, Reached ⟨64, 4096, 16, 16⟩ log a ∧
    a.bank.shrunk = 16 ∧ a.bank.lowestOccupied = .ok (some 4144) ∧
    IsLeast {y | ∃ k ∈ a.bank.inUse, k.address + 4096 = y} 4144 ∧ a.Shrinks 32 (some 4144) := by
  have h := Reached.of_serve (Design.build_linear (g := ⟨64, 4096, 16, 16⟩) (by decide) .first)
    [.shrink 16 .bottomUp, .allocateAt 4144 16] (by simp [Request.InRange, Address.limit]) rfl
  have hlimit : 32 < Address.limit := by decide
  obtain ⟨-, lowest, hlowest, -, hleast, hshrinks⟩ := h.shrinks_unless_blocked hlimit
  obtain rfl : lowest = some 4144 := Except.ok.inj (hlowest.symm.trans rfl)
  exact ⟨_, _, h, rfl, hlowest, hleast 4144 rfl, hshrinks (by decide)⟩

end Allocator

end MemoryBank
