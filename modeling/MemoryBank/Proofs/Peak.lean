import MemoryBank.Proofs.Reached
import MemoryBank.Proofs.TableRuns
import Mathlib.Order.Bounds.Basic

/-!
# Slots are used again

However long an allocator runs, its block table has no more slots than the allocations of one moment
needed: `Allocator.Reached.slots_bounded`.

* `peak`: the most allocations at one time since the last clear, told by the answers.
  `isGreatest_peak` says so.
* `Bank.Holds.length_le`: free blocks do not touch, so the allocations bound the blocks.
* `Bank.Step.slots_le`: a request adds slots only for blocks that there are at one time.
-/

namespace MemoryBank

open MemoryBank.Action

/-! ## The most allocations at one time -/

/-- An answer that tells that everything was cleared. -/
def Clears (entry : Request × Except Failure Reply) : Prop := entry = (.clear, .ok .done)

/-- The run had come as far as `before` at a moment that no clear has followed. -/
def Since (before log : Log) : Prop := ∃ rest, log = before ++ rest ∧ ∀ entry ∈ rest, ¬Clears entry

/-- The most allocations so far, when an answer leaves `n` of them. -/
def peakAfter (most n : ℕ) : Request → Except Failure Reply → ℕ
  | .clear, .ok .done => n
  | _, _ => max most n

/-- The most allocations that there were at one time since the last clear. -/
def peak (g : Geometry) (log : Log) : ℕ :=
  (log.foldl (fun s entry =>
    let live := liveAfter g s.1 entry.1 entry.2
    (live, peakAfter s.2 live.card entry.1 entry.2)) ((∅ : Finset (ℕ × ℕ)), 0)).2

section Peak

variable {g : Geometry} {log before : Log} {r : Request} {reply : Except Failure Reply}
  {entry : Request × Except Failure Reply}

@[simp] theorem peak_nil : peak g [] = 0 := rfl

theorem peak_concat : peak g (log ++ [(r, reply)]) =
    peakAfter (peak g log) (history g (log ++ [(r, reply)])).card r reply := by
  -- the fold keeps the allocations beside the count
  have hlive : ∀ log : Log, (log.foldl (fun s entry =>
      let live := liveAfter g s.1 entry.1 entry.2
      (live, peakAfter s.2 live.card entry.1 entry.2)) ((∅ : Finset (ℕ × ℕ)), 0)).1 =
        history g log := fun log => by
    induction log using List.reverseRecOn with
    | nil => rfl
    | append_singleton log entry ih =>
      obtain ⟨r, reply⟩ := entry
      rw [List.foldl_concat, history_concat, ih]
  rw [peak, List.foldl_concat, history_concat, hlive]
  rfl

theorem peakAfter_of_clears {most n : ℕ} (h : Clears (r, reply)) :
    peakAfter most n r reply = n := by
  obtain ⟨rfl, rfl⟩ := Prod.mk.inj h
  rfl

theorem peakAfter_of_not_clears {most n : ℕ} (h : ¬Clears (r, reply)) :
    peakAfter most n r reply = max most n := by
  unfold peakAfter
  split
  · exact absurd rfl h
  · rfl

theorem since_nil : Since before [] ↔ before = [] := by
  constructor
  · rintro ⟨rest, h, -⟩
    exact (List.append_eq_nil_iff.1 h.symm).1
  · rintro rfl
    exact ⟨[], rfl, by simp⟩

theorem since_concat :
    Since before (log ++ [entry]) ↔ before = log ++ [entry] ∨ ¬Clears entry ∧ Since before log := by
  constructor
  · rintro ⟨rest, h, hrest⟩
    cases rest using List.reverseRecOn with
    | nil => exact .inl (by simpa using h.symm)
    | append_singleton rest last =>
      rw [← List.append_assoc] at h
      obtain ⟨rfl, he⟩ := List.append_inj' h rfl
      obtain rfl := List.singleton_inj.1 he
      exact .inr ⟨hrest _ (by simp), rest, rfl, fun e he => hrest e (by simp [he])⟩
  · rintro (rfl | ⟨hentry, rest, rfl, hrest⟩)
    · exact ⟨[], by simp, by simp⟩
    · refine ⟨rest ++ [entry], by simp, fun e he => ?_⟩
      rcases List.mem_append.1 he with he | he
      · exact hrest e he
      · exact List.mem_singleton.1 he ▸ hentry

/-- **The peak is the greatest number of allocations** at a moment since the last clear. -/
theorem isGreatest_peak (g : Geometry) (log : Log) :
    IsGreatest {n | ∃ before, Since before log ∧ (history g before).card = n} (peak g log) := by
  induction log using List.reverseRecOn with
  | nil =>
    refine ⟨⟨[], since_nil.2 rfl, rfl⟩, ?_⟩
    rintro n ⟨before, hb, rfl⟩
    rw [since_nil.1 hb]
    exact le_rfl
  | append_singleton log entry ih =>
    obtain ⟨⟨most, hmost, hcard⟩, hbound⟩ := ih
    rw [peak_concat]
    by_cases hc : Clears entry
    · rw [peakAfter_of_clears hc]
      refine ⟨⟨_, since_concat.2 (.inl rfl), rfl⟩, ?_⟩
      rintro n ⟨before, hb, rfl⟩
      obtain rfl | ⟨hn, -⟩ := since_concat.1 hb
      · exact le_rfl
      · exact absurd hc hn
    · rw [peakAfter_of_not_clears hc]
      constructor
      · rcases le_total (history g (log ++ [entry])).card (peak g log) with hle | hle
        · exact ⟨most, since_concat.2 (.inr ⟨hc, hmost⟩), hcard.trans (max_eq_left hle).symm⟩
        · exact ⟨_, since_concat.2 (.inl rfl), (max_eq_right hle).symm⟩
      · rintro n ⟨before, hb, rfl⟩
        obtain rfl | ⟨-, hb⟩ := since_concat.1 hb
        · exact le_max_right _ _
        · exact (hbound ⟨before, hb, rfl⟩).trans (le_max_left _ _)

/-- There were never more allocations than the peak, and so there are not now. -/
theorem card_history_le_peak (g : Geometry) (log : Log) : (history g log).card ≤ peak g log :=
  (isGreatest_peak g log).2 ⟨log, ⟨[], by simp, by simp⟩, rfl⟩

end Peak

/-! ## Blocks and slots -/

namespace Bank

variable {b b' : Bank} {bs : List Block}

/-- Of the blocks at most every other one is free. -/
theorem Holds.length_le (h : b.Holds bs) : bs.length ≤ 2 * b.view.live.card + 1 := by
  rw [h.live_eq, card_allocations h.tiles]
  exact h.separated.length_le.1

theorem Holds.stacked (h : b.Holds bs) : b.table.Stacked bs where
  holds := h.table
  stack := ⟨h.tiles.pairwise, fun k hk => by
    have := h.in_range hk
    omega⟩

theorem table_of_holdBack {amount : ℕ} (h : b.holdBack amount = .ok b') : b'.table = b.table := by
  obtain ⟨usable, -, h⟩ := bind_eq_ok_iff.1 h
  obtain ⟨shrunk, -, h⟩ := bind_eq_ok_iff.1 h
  cases h
  rfl

/-- New slots are for blocks that there are at one time. -/
theorem Sound.slots_le_of_becomes {t t' : Table} (h : b.Sound) (ht : t.Becomes t')
    (hb : b.table = t') : b.table.slots.size ≤ max t.slots.size (2 * b.view.live.card + 1) := by
  subst hb
  obtain ⟨bs, hs, hsize⟩ := ht
  have hlen := h.length_le
  rw [hs.holds.blocks_eq] at hlen
  omega

/-- **A request adds slots only for blocks that there are at one time.** While bytes are given back
there is one block more than before it. -/
theorem Step.slots_le {r : Request} {reply : Except Failure Reply} (h : b.Sound)
    (hs : b.Step r reply b') (hr : ¬Clears (r, reply)) :
    b'.table.slots.size ≤ max b.table.slots.size (2 * b'.view.live.card + 2) := by
  obtain ⟨hb', hv⟩ := hs.follows h
  cases hs with
  | refused | uncut | whole => exact le_max_left _ _
  | cleared => exact absurd rfl hr
  | placed h hf hg hn hc =>
    have := hb'.slots_le_of_becomes (h.stacked.carve (by simp) hc) rfl
    omega
  | placedAt h hf hg hn ha hc =>
    have := hb'.slots_le_of_becomes (h.stacked.carve (by simp) hc) rfl
    omega
  | freed h hl ha hc =>
    have := hb'.slots_le_of_becomes (h.stacked.coalesce (by simp) hc) rfl
    omega
  | cut hpos h hf ha hc hh =>
    have := hb'.slots_le_of_becomes (h.stacked.truncateFront (by simp) hc) (table_of_holdBack hh)
    omega
  | restored hpos hp hg hc =>
    have hlive : view _ = b.view.after .restore (.ok .done) := hv
    obtain ⟨t, b₁, hp', hg', hb₁, ht₁, -⟩ := Holds.pushed h hpos
    obtain ⟨rfl, rfl⟩ := ok_pair_unique hp' hp
    obtain rfl := Except.ok.inj (hg'.symm.trans hg)
    -- the table with the block that is pushed in front, before that is freed
    obtain ⟨bs, hs, hsize⟩ := h.stacked.pushFront (by
      have := h.geometry.stop
      have := h.account
      omega) hp
    have hlen : bs.length = b.table.blocks.length + 1 := by
      rw [← hs.holds.blocks_eq, ← ht₁, hb₁.table.blocks_eq, List.length_cons]
    have hbefore := h.length_le
    have hafter := hb'.slots_le_of_becomes (hb₁.stacked.coalesce (by simp) hc) rfl
    rw [ht₁, hsize, hlen] at hafter
    have hcard := congrArg (fun v => v.live.card) hlive
    dsimp only [View.after, liveAfter] at hcard
    omega

/-- A fresh bank has a slot for its one block. -/
theorem slots_fresh_le (g : Geometry) : (fresh g).table.slots.size ≤ 1 := by
  change (Table.single 0 g.size).slots.size ≤ 1
  unfold Table.single
  split <;> simp

theorem Step.eq_fresh (hs : b.Step .clear (.ok .done) b') : b' = .fresh b.geometry := by
  cases hs with
  | refused hr => exact absurd hr not_refused_done
  | cleared => rfl

end Bank

/-! ## Runs -/

namespace Allocator

variable {g : Geometry} {log : Log} {a : Allocator}

/-- **A run** adds no more slots than the allocations of one moment need. -/
theorem Reached.slots_le (h : Reached g log a) : a.bank.table.slots.size ≤ 2 * peak g log + 2 := by
  induction h with
  | built h =>
    obtain ⟨-, -, hb⟩ := Design.build_ok h
    have := Bank.slots_fresh_le g
    rw [hb]
    omega
  | @served log a a' r reply h hr hs ih =>
    have h' := h.served hr hs
    obtain ⟨hstep, -⟩ := perform_step h.sound hr hs
    have hle := card_history_le_peak g (log ++ [(r, reply)])
    by_cases hc : Clears (r, reply)
    · obtain ⟨rfl, rfl⟩ := Prod.mk.inj hc
      have hbank := hstep.eq_fresh
      have := Bank.slots_fresh_le a.bank.geometry
      rw [hbank]
      omega
    · have hslots := hstep.slots_le h.sound.bank hc
      have hlive : a'.bank.view.live = history g (log ++ [(r, reply)]) := h'.live
      rw [hlive] at hslots
      rw [peak_concat, peakAfter_of_not_clears hc] at hle ⊢
      omega

/-- **Slots are not lost, however long an allocator runs.** At any point there are as many blocks in
use as answers tell, no more blocks than twice the peak and one, and no more slots than twice the
peak and two. The peak is the greatest number of allocations at a time since the last clear. -/
theorem Reached.slots_bounded (h : Reached g log a) :
    (history g log).card = (a.bank.table.blocks.filter (·.allocated)).length ∧
      IsGreatest {n | ∃ before, Since before log ∧ (history g before).card = n} (peak g log) ∧
      a.bank.table.length = .ok a.bank.table.blocks.length ∧
      a.bank.table.blocks.length ≤ 2 * peak g log + 1 ∧
      a.bank.table.slots.size ≤ 2 * peak g log + 2 := by
  have hb := h.sound.bank
  have hlive : a.bank.view.live = history g log := h.live
  have hcard : (history g log).card = (a.bank.table.blocks.filter (·.allocated)).length := by
    rw [← hlive, hb.live_eq, card_allocations hb.tiles, liveRanges, List.length_map]
  have hlen := hb.length_le
  rw [hlive] at hlen
  have hle := card_history_le_peak g log
  exact ⟨hcard, isGreatest_peak g log, hb.table.length_eq, by omega, h.slots_le⟩

/-- Giving back what was cut off below a free block takes all the slots that are allowed for. -/
theorem slots_bounded_of_restore : ∃ log a, Reached ⟨64, 4096, 16, 16⟩ log a ∧
    peak ⟨64, 4096, 16, 16⟩ log = 1 ∧
    ((history ⟨64, 4096, 16, 16⟩ log).card =
        (a.bank.table.blocks.filter (·.allocated)).length ∧
      IsGreatest {n | ∃ before, Since before log ∧ (history ⟨64, 4096, 16, 16⟩ before).card = n}
        (peak ⟨64, 4096, 16, 16⟩ log) ∧
      a.bank.table.length = .ok a.bank.table.blocks.length ∧
      a.bank.table.blocks.length ≤ 2 * peak ⟨64, 4096, 16, 16⟩ log + 1 ∧
      a.bank.table.slots.size ≤ 2 * peak ⟨64, 4096, 16, 16⟩ log + 2) ∧
    a.bank.table.slots.size = 4 := by
  have h := Reached.of_serve (Design.build_linear (g := ⟨64, 4096, 16, 16⟩) (by decide) .first)
    [.shrink 16 .bottomUp, .allocateAt 4128 16, .restore] (by simp [Request.InRange, Address.limit])
    rfl
  exact ⟨_, _, h, by decide, h.slots_bounded, by decide⟩

end Allocator

end MemoryBank
