import MemoryBank.Proofs.Placing

/-!
# The layout is canonical

Where the blocks lie is determined by the live allocations and by what is cut off. Neither the order
of the requests nor the design of the allocator leaves a trace.

* `Allocator.layout`: where the blocks lie, and which of them are in use.
* `Reached.layout_eq`: two runs that end alike end with the same layout.
* `Reached.free_all`: live allocations can be freed in any order.
* `Reached.canonical`: all of `Canonical` is true of an allocator that a run leads to.
-/

namespace MemoryBank

open MemoryBank.Action

/-- No answer tells of bytes that were cut off. -/
def NeverCut (log : Log) : Prop := ∀ amount d, (.shrink amount d, .ok .done) ∈ log → amount = 0

theorem NeverCut.cutOff_eq {log : Log} (h : NeverCut log) : cutOff log = 0 := by
  induction log using List.reverseRecOn with
  | nil => rfl
  | append_singleton log entry ih =>
    obtain ⟨r, reply⟩ := entry
    rw [cutOff_concat, ih fun amount d hm => h amount d (List.mem_append_left _ hm)]
    unfold shrunkAfter
    split
    · rfl
    · rw [h _ _ (List.mem_append_right _ List.mem_cons_self)]
    · rfl
    · rfl

namespace Allocator

/-- Where the blocks lie, and which of them are in use. -/
def layout (a : Allocator) : List (ℕ × ℕ × Bool) := MemoryBank.layout a.bank.table.blocks

/-- The layout of a fresh bank: one free block, unless the bank is empty. -/
def freshLayout (g : Geometry) : List (ℕ × ℕ × Bool) :=
  if g.size = 0 then [] else [(0, g.size, false)]

/-- What a run leads to shows nothing of how it got there. -/
structure Canonical (g : Geometry) (log : Log) (a : Allocator) : Prop where
  /-- A run that ends with the same allocations and as much cut off ends with the same layout. -/
  unique : ∀ log' a', Reached g log' a' → history g log' = history g log →
    a'.bank.shrunk = a.bank.shrunk → a'.layout = a.layout
  /-- Live allocations can be freed in any order, with the same layout at the end. -/
  unordered : ∀ xs ys : List ℕ, xs.Perm ys → xs.Nodup →
    (∀ x ∈ xs, ∃ r ∈ history g log, r.1 = x) → ∃ a₁ a₂,
      serve perform (xs.map .deallocate) a = (List.replicate xs.length (.ok .done), a₁) ∧
      serve perform (ys.map .deallocate) a = (List.replicate ys.length (.ok .done), a₂) ∧
      a₁.layout = a₂.layout
  /-- Memory that is placed and freed leaves the layout as it was. -/
  undone : ∀ r, r.InRange → ∀ address a₁, (perform r).effect a = (.ok (.placed address), a₁) →
    ∃ a₂, (perform (.deallocate address)).effect a₁ = (.ok .done, a₂) ∧ a₂.layout = a.layout
  /-- Once everything is freed and what was cut off is given back, the bank is as fresh. -/
  emptied : ∀ xs : List ℕ, xs.Nodup → (∀ x, x ∈ xs ↔ ∃ r ∈ history g log, r.1 = x) → ∃ a',
    serve perform (xs.map .deallocate ++ [.restore]) a =
      (List.replicate (xs.length + 1) (.ok .done), a') ∧ a'.layout = freshLayout g
  /-- Giving back what was cut off leads to the layout of runs that never cut. -/
  restored : ∃ a₁, (perform .restore).effect a = (.ok .done, a₁) ∧ ∀ log' a', Reached g log' a' →
    NeverCut log' → history g log' = history g log → a₁.layout = a'.layout

namespace Reached

variable {g : Geometry} {log log' : Log} {a a' : Allocator}

/-- **Two runs that end alike end with the same layout**, whatever the designs. -/
theorem layout_eq (h : Reached g log a) (h' : Reached g log' a')
    (hl : history g log = history g log') (hs : cutOff log = cutOff log') :
    a.layout = a'.layout := by
  refine h.sound.bank.layout_eq h'.sound.bank ?_
  change a.view = a'.view
  rw [h.view_eq, h'.view_eq, hl, hs]

theorem layout_eq_fresh (h : Reached g log a) (hl : history g log = ∅) (hs : cutOff log = 0) :
    a.layout = freshLayout g := by
  have hg := Geometry.validate_eq_ok_iff.1 h.valid
  have hview : a.bank.view = (Bank.fresh g).view := by
    change a.view = _
    rw [h.view_eq, hl, hs, Bank.view_fresh hg]
  rw [layout, h.sound.bank.layout_eq (Bank.holds_fresh hg) hview, freshLayout, leftover]
  split <;> rfl

/-- A live allocation can be freed. -/
theorem free (h : Reached g log a) {x : ℕ} (hx : ∃ r ∈ history g log, r.1 = x) :
    ∃ a', (perform (.deallocate x)).effect a = (.ok .done, a') ∧
      Reached g (log ++ [(.deallocate x, .ok .done)]) a' := by
  have hlt : x < Address.limit := by
    obtain ⟨r, hr, rfl⟩ := hx
    rw [← h.live] at hr
    have := h.sound.bank.live_bounds hr
    have := h.sound.bank.geometry.stop
    omega
  obtain ⟨a', he, h', -⟩ := h.step (r := .deallocate x) hlt
  have ha : a.view.answer a.choose? (.deallocate x) = .ok .done := by
    rw [View.answer, h.live, if_pos hx]
  rw [ha] at he h'
  exact ⟨a', he, h'⟩

/-- Live allocations can be freed one after the other, and then are gone. -/
theorem free_all (h : Reached g log a) {xs : List ℕ} (hn : xs.Nodup)
    (hx : ∀ x ∈ xs, ∃ r ∈ history g log, r.1 = x) : ∃ log' a',
      serve perform (xs.map .deallocate) a = (List.replicate xs.length (.ok .done), a') ∧
      Reached g log' a' ∧ history g log' = (history g log).filter (·.1 ∉ xs) ∧
      cutOff log' = cutOff log := by
  induction xs generalizing log a with
  | nil => exact ⟨log, a, rfl, h, by simp, rfl⟩
  | cons x xs ih =>
    obtain ⟨hnot, hn⟩ := List.nodup_cons.1 hn
    obtain ⟨a₁, he, h₁⟩ := h.free (hx x List.mem_cons_self)
    have hlive : history g (log ++ [(.deallocate x, .ok .done)]) =
        (history g log).filter (·.1 ≠ x) := history_concat
    have hx₁ : ∀ y ∈ xs, ∃ r ∈ history g (log ++ [(.deallocate x, .ok .done)]), r.1 = y := by
      intro y hy
      obtain ⟨r, hr, rfl⟩ := hx y (List.mem_cons_of_mem _ hy)
      rw [hlive]
      exact ⟨r, Finset.mem_filter.2 ⟨hr, fun e => hnot (e ▸ hy)⟩, rfl⟩
    obtain ⟨log', a', hs, h', hl, hc⟩ := ih h₁ hn hx₁
    refine ⟨log', a', ?_, h', ?_, by rw [hc, cutOff_concat]; rfl⟩
    · rw [List.map_cons, serve_cons he, hs]
      rfl
    · rw [hl, hlive, Finset.filter_filter]
      simp only [List.mem_cons, not_or]

/-- Memory that is placed and freed leaves the layout as it was. -/
theorem place_free (h : Reached g log a) {r : Request} (hr : r.InRange) {address : ℕ}
    (hs : (perform r).effect a = (.ok (.placed address), a')) :
    ∃ a₂, (perform (.deallocate address)).effect a' = (.ok .done, a₂) ∧ a₂.layout = a.layout := by
  have h₁ : Reached g (log ++ [(r, .ok (.placed address))]) a' := h.served hr hs
  obtain ⟨k, -, -, n, hp⟩ := h.places hr hs
  have hafter := hp.after
  have hlive : history g (log ++ [(r, .ok (.placed address))]) =
      insert (address, n) (history g log) := history_concat.trans (congrArg View.live hafter)
  have hcut : cutOff (log ++ [(r, .ok (.placed address))]) = cutOff log :=
    cutOff_concat.trans (congrArg View.shrunk hafter)
  obtain ⟨a₂, he₂, h₂⟩ := h₁.free (x := address) ⟨(address, n), by simp [hlive], rfl⟩
  -- no allocation was there before
  have hnew : ∀ s ∈ history g log, s.1 ≠ address := fun s hm e => by
    have hapart := hp.vacant.2.2 s hm
    rw [← h.live] at hm
    have hpos := (h.sound.bank.live_bounds hm).1
    have := hp.pos
    omega
  refine ⟨a₂, he₂, h₂.layout_eq h ?_ ?_⟩
  · rw [history_concat, liveAfter, hlive, Finset.filter_insert, if_neg (by simp),
      Finset.filter_true_of_mem hnew]
  · rw [cutOff_concat, hcut]
    rfl

/-- What was cut off can be given back. -/
theorem give_back (h : Reached g log a) : ∃ a', (perform .restore).effect a = (.ok .done, a') ∧
    Reached g (log ++ [(.restore, .ok .done)]) a' := by
  obtain ⟨a', he, h', -⟩ := h.step (r := .restore) trivial
  exact ⟨a', he, h'⟩

/-- **The layout is canonical.** Whatever a run leads to, its layout depends on the live allocations
and on what is cut off, and on nothing else. -/
theorem canonical (h : Reached g log a) : Canonical g log a where
  unique log' a' h' hl hs := h'.layout_eq h hl (by rw [← h'.shrunk, ← h.shrunk, hs])
  unordered xs ys hp hn hx := by
    obtain ⟨log₁, a₁, hs₁, h₁, hl₁, hc₁⟩ := h.free_all hn hx
    obtain ⟨log₂, a₂, hs₂, h₂, hl₂, hc₂⟩ :=
      h.free_all (hp.nodup_iff.1 hn) fun x hm => hx x (hp.mem_iff.2 hm)
    refine ⟨a₁, a₂, hs₁, hs₂, h₁.layout_eq h₂ ?_ (hc₁.trans hc₂.symm)⟩
    simp only [hl₁, hl₂, hp.mem_iff]
  undone r hr address a₁ hs := h.place_free hr hs
  emptied xs hn hx := by
    obtain ⟨log₁, a₁, hs₁, h₁, hl₁, -⟩ := h.free_all hn fun x hm => (hx x).1 hm
    obtain ⟨a₂, he₂, h₂⟩ := h₁.give_back
    have hempty : (history g log).filter (·.1 ∉ xs) = ∅ :=
      Finset.filter_false_of_mem fun r hr => not_not.2 ((hx r.1).2 ⟨r, hr, rfl⟩)
    refine ⟨a₂, ?_, h₂.layout_eq_fresh ?_ ?_⟩
    · rw [serve_append, hs₁, serve_cons he₂, List.replicate_succ']
      rfl
    · rw [history_concat, hl₁, hempty]
      rfl
    · rw [cutOff_concat]
      rfl
  restored := by
    obtain ⟨a₁, he, h₁⟩ := h.give_back
    refine ⟨a₁, he, fun log' a' h' hnever hl => h₁.layout_eq h' ?_ ?_⟩
    · rw [hl, history_concat]
      rfl
    · rw [cutOff_concat, hnever.cutOff_eq]
      rfl

/-- A walk that cut and gave back has the layout of an indexed allocator that did not. -/
theorem canonical_of_two_designs : ∃ a a',
    Reached ⟨64, 4096, 16, 16⟩ [(.shrink 16 .bottomUp, .ok .done),
      (.allocate 20 {}, .ok (.placed 4112)), (.restore, .ok .done)] a ∧
    Reached ⟨64, 4096, 16, 16⟩ [(.allocateAt 4112 32, .ok (.placed 4112))] a' ∧
    a'.layout = a.layout := by
  have hwalk : (Design.build ⟨64, 4096, 16, 16⟩ (.linear .first)).result =
      .ok (.linear ⟨.fresh ⟨64, 4096, 16, 16⟩, .first⟩) := rfl
  have h := of_serve hwalk [.shrink 16 .bottomUp, .allocate 20 {}, .restore]
    (by simp [Request.InRange, Address.limit]) rfl
  obtain ⟨a₀, hindexed, -, -⟩ := Design.build_spec (d := .indexed 16 3)
    (g := ⟨64, 4096, 16, 16⟩) ⟨by decide, by decide, by decide⟩ (by decide)
  have h₀ : Reached ⟨64, 4096, 16, 16⟩ [] a₀ := .built hindexed
  obtain ⟨a', -, h', -⟩ := h₀.step (r := .allocateAt 4112 32)
    (by simp [Request.InRange, Address.limit])
  have hreply : a₀.view.answer a₀.choose? (.allocateAt 4112 32) = .ok (.placed 4112) := by
    rw [h₀.view_eq]
    rfl
  rw [hreply] at h'
  exact ⟨_, a', h, h', h.canonical.unique _ a' h' (by decide) (h'.shrunk.trans (by decide))⟩

end Reached

end Allocator

end MemoryBank
