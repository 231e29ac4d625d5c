import MemoryBank.Proofs.Runs

/-!
# Live allocations are never lost

The answers that an allocator gave tell which memory is in use: `history`. For every design,
`Allocator.remembers_history` says that the blocks in use are just those after any run, that they do
not overlap, and that a block can be freed exactly if the answers say that it is there.
-/

namespace MemoryBank

open MemoryBank.Action

/-- The allocations that answers tell of: granted, and neither freed nor cleared since. -/
def history (g : Geometry) (log : List (Request × Except Failure Reply)) : Finset (ℕ × ℕ) :=
  log.foldl (fun live entry => liveAfter g live entry.1 entry.2) ∅

/-- Two ranges share no byte. -/
def DisjointRanges (r s : ℕ × ℕ) : Prop := r.1 + r.2 ≤ s.1 ∨ s.1 + s.2 ≤ r.1

section Allocations

variable {b : Bank} {bs : List Block} {r s : ℕ × ℕ}

/-- An allocation lies in what is not cut off. -/
theorem Bank.Holds.live_bounds (h : b.Holds bs) (hr : r ∈ b.view.live) :
    0 < r.2 ∧ b.geometry.offset + b.shrunk ≤ r.1 ∧
      r.1 + r.2 ≤ b.geometry.offset + b.geometry.size := by
  rw [h.live_eq] at hr
  obtain ⟨k, hk, -, hka, hks⟩ := mem_allocations.1 hr
  have := h.bounds hk
  omega

/-- Allocations do not overlap. -/
theorem Bank.Holds.live_apart (h : b.Holds bs) (hr : r ∈ b.view.live) (hs : s ∈ b.view.live)
    (hne : r ≠ s) : DisjointRanges r s := by
  rw [h.live_eq] at hr hs
  obtain ⟨k, hk, -, hka, hks⟩ := mem_allocations.1 hr
  obtain ⟨l, hl, -, hla, hls⟩ := mem_allocations.1 hs
  have hkl : k ≠ l := fun e => hne (Prod.ext (by rw [← hka, ← hla, e]) (by rw [← hks, ← hls, e]))
  have := h.tiles.disjoint hk hl hkl
  unfold DisjointRanges
  omega

end Allocations

namespace Allocator

/-- What a run makes of the allocations can be told from its answers. -/
theorem serve_live {a : Allocator} (h : a.Sound) {rs : List Request} (hr : ∀ r ∈ rs, r.InRange) :
    ∃ replies a', serve perform rs a = (replies, a') ∧ a'.Sound ∧
      a'.view.geometry = a.view.geometry ∧ a'.view.live = (rs.zip replies).foldl
        (fun live entry => liveAfter a.view.geometry live entry.1 entry.2) a.view.live := by
  induction rs generalizing a with
  | nil => exact ⟨[], a, rfl, h, rfl, rfl⟩
  | cons r rs ih =>
    obtain ⟨a₁, he, hs, hv, -⟩ := perform_spec h (hr r List.mem_cons_self)
    obtain ⟨replies, a₂, hrun, hs₂, hg, hl⟩ := ih hs fun r h => hr r (List.mem_cons_of_mem _ h)
    have hg₁ : a₁.view.geometry = a.view.geometry := by
      rw [hv]
      rfl
    have hl₁ := congrArg View.live hv
    refine ⟨a.view.answer a.choose? r :: replies, a₂, ?_, hs₂, hg.trans hg₁, ?_⟩
    · rw [serve_cons he, hrun]
    · rw [hl, hg₁, hl₁]
      rfl

/-- An allocator knows which memory is in use. -/
structure Remembers (a : Allocator) (live : Finset (ℕ × ℕ)) : Prop where
  /-- The blocks in use are the live allocations, -/
  blocks : allocations a.bank.geometry.offset a.bank.table.blocks = live
  /-- one block for each. -/
  once : (liveRanges a.bank.table.blocks).Nodup
  apart : ∀ r ∈ live, ∀ s ∈ live, r ≠ s → DisjointRanges r s
  /-- They lie in what is not cut off. -/
  bounds : ∀ r ∈ live, 0 < r.2 ∧ a.bank.geometry.offset + a.bank.shrunk ≤ r.1 ∧
    r.1 + r.2 ≤ a.bank.geometry.offset + a.bank.geometry.size
  /-- An address is freed if an allocation starts there, and is refused otherwise. -/
  frees : ∀ address < Address.limit, ((perform (.deallocate address)).effect a).1 =
    if ∃ r ∈ live, r.1 = address then .ok .done
    else .error (.misuse (.invalidDeallocation address))

theorem Sound.remembers {a : Allocator} (h : a.Sound) : a.Remembers a.view.live := by
  refine ⟨rfl, .of_map _ h.bank.tiles.nodup_liveRanges, fun r hr s hs => h.bank.live_apart hr hs,
    fun r hr => h.bank.live_bounds hr, fun address hlt => ?_⟩
  obtain ⟨a', he, -⟩ := perform_spec h (r := .deallocate address) hlt
  rw [he]
  rfl

/-- **Live allocations are never overlapped, moved, resized or lost.** After any run of an allocator
of any design, the memory in use is what the answers tell of. -/
theorem remembers_history {d : Design} (hd : d.Legal) {g : Geometry} (hg : g.validate = .ok ())
    {rs : List Request} (hr : ∀ r ∈ rs, r.InRange) :
    ∃ a replies a', (d.build g).result = .ok a ∧ serve perform rs a = (replies, a') ∧
      a'.bank.geometry = g ∧ a'.Remembers (history g (rs.zip replies)) := by
  obtain ⟨a, hbuild, hs, hv⟩ := Design.build_spec hd hg
  obtain ⟨replies, a', hrun, hs', hgeo, hlive⟩ := serve_live hs hr
  have hhist : a'.view.live = history g (rs.zip replies) := by
    rw [hlive, hv]
    rfl
  exact ⟨a, replies, a', hbuild, hrun, hgeo.trans (congrArg View.geometry hv),
    hhist ▸ hs'.remembers⟩

/-- A run with a free that is refused and a cut. -/
theorem remembers_history_of_cut : ∃ a replies a',
    ((Design.indexed 16 3).build ⟨64, 4096, 16, 16⟩).result = .ok a ∧
      serve perform [.allocate 20 {}, .allocateAt 4144 16, .deallocate 4096, .deallocate 4096,
        .shrink 16 .bottomUp] a = (replies, a') ∧
      a'.bank.geometry = ⟨64, 4096, 16, 16⟩ ∧ a'.Remembers (history ⟨64, 4096, 16, 16⟩
        (List.zip [.allocate 20 {}, .allocateAt 4144 16, .deallocate 4096, .deallocate 4096,
          .shrink 16 .bottomUp] replies)) :=
  remembers_history (d := .indexed 16 3) ⟨by decide, by decide, by decide⟩ (by decide)
    (by simp [Request.InRange, Address.limit])

end Allocator

end MemoryBank
