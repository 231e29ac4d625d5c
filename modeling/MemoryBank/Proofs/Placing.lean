import MemoryBank.Proofs.Reached

/-!
# Where memory is placed

`View.Places v r k address n`: the request `r` gets the `n` bytes from `address` on, which are a
part of the block `k`.

* `View.granted_of_answer`: an address is the answer to a request for memory only.
* `Allocator.Sound.places`: whenever an allocator of any design places memory, it does so in one of
  its free blocks. `Allocator.Reached.places` says the same of what runs lead to.
-/

namespace MemoryBank

open MemoryBank.Action

/-- A request gets `n` bytes from `address` on, which lie in the block `k`. -/
structure View.Places (v : View) (r : Request) (k : Block) (address n : ℕ) : Prop where
  granted : ∃ request, v.geometry.grant request = .ok (some n)
  pos : 0 < n
  vacant : v.Vacant address n
  start_le : k.address + v.geometry.offset ≤ address
  le_stop : address + n ≤ k.address + k.size + v.geometry.offset
  /-- The address is at an end of the block, or of the caller's choice and aligned. -/
  place : (∃ size p, r = .allocate size p ∧
      address = k.address + k.inset n p.direction + v.geometry.offset) ∨
    ∃ size, r = .allocateAt address size ∧ (address - v.geometry.offset) % v.geometry.alignment = 0
  after : v.after r (.ok (.placed address)) = { v with live := insert (address, n) v.live }

namespace View

variable {v : View} {pick : ℕ → Option Block} {r : Request} {k : Block} {n address : ℕ}
  {p : Placement}

/-- What is placed in a block lies at an end of it. -/
theorem address_of_answerIn (h : v.answerIn k n p = .ok (.placed address)) :
    address = k.address + k.inset n p.direction + v.geometry.offset := by
  unfold answerIn at h
  dsimp only at h
  split at h
  · cases h
    rfl
  · split at h <;> cases h
    rfl

/-- What is placed at an address was vacant there. -/
theorem vacant_of_answerAt {a : ℕ} (h : v.answerAt a n = .placed address) :
    a = address ∧ v.geometry.offset ≤ address ∧
      (address - v.geometry.offset) % v.geometry.alignment = 0 ∧ v.Vacant address n := by
  unfold answerAt at h
  split at h
  case isTrue hv =>
    cases h
    exact ⟨rfl, hv⟩
  case isFalse => cases h

/-- Only requests for memory are answered with an address. -/
theorem granted_of_answer (h : v.answer pick r = .ok (.placed address)) :
    ∃ size n, v.grant size = .ok (some n) ∧
      ((∃ p k, r = .allocate size p ∧ pick n = some k ∧
          v.answerIn k n p = .ok (.placed address)) ∨
        ∃ a, r = .allocateAt a size ∧ v.answerAt a n = .placed address) := by
  cases r with
  | allocate size p =>
    obtain ⟨o, hg, h⟩ := bind_eq_ok_iff.1 h
    cases o with
    | none => cases h
    | some n =>
      dsimp only at h
      cases hk : pick n with
      | none =>
        rw [hk] at h
        cases h
      | some k =>
        rw [hk] at h
        exact ⟨size, n, hg, .inl ⟨p, k, rfl, hk, h⟩⟩
  | allocateAt a size =>
    obtain ⟨o, hg, h⟩ := bind_eq_ok_iff.1 h
    cases o with
    | none => cases h
    | some n => exact ⟨size, n, hg, .inr ⟨a, rfl, Except.ok.inj h⟩⟩
  | deallocate a =>
    simp only [answer] at h
    split at h <;> cases h
  | clear => cases h
  | shrink amount d =>
    simp only [answer, answerCut] at h
    split at h
    · cases h
    · split at h
      · cases h
      · split at h
        · split at h <;> cases h
        · cases h
  | restore => cases h

end View

namespace Allocator

variable {a : Allocator} {n address : ℕ} {r : Request} {k : Block}

/-- The block that is taken is free and large enough. -/
theorem Sound.choose?_mem (h : a.Sound) (hk : a.choose? n = some k) :
    k ∈ a.bank.table.blocks ∧ k.allocated = false ∧ n ≤ k.size := by
  cases a with
  | linear a => exact Linear.choose?_mem hk
  | indexed a =>
    obtain ⟨c, classes, hc, rfl⟩ := h
    have hpick : (Allocator.indexed (c.grouped classes)).choose? = c.choose? :=
      Ledger.Holds.choose?_grouped hc classes
    rw [hpick] at hk
    rcases hc.choose?_least n with ⟨k', hm, hk', -⟩ | ⟨hno, -⟩
    · obtain rfl := Option.some.inj (hk.symm.trans hk')
      exact Bank.mem_candidates.1 hm
    · rw [hno] at hk
      cases hk

/-- **Memory is placed in a free block.** -/
theorem Sound.places (h : a.Sound) (ha : a.view.answer a.choose? r = .ok (.placed address)) :
    ∃ k ∈ a.bank.table.blocks, k.allocated = false ∧ ∃ n, a.view.Places r k address n := by
  obtain ⟨size, n, hg, hplace⟩ := View.granted_of_answer ha
  have hn := (h.bank.grant_bounds hg).1
  have hgrant := (View.grant_some hg).1
  rcases hplace with ⟨p, k, rfl, hk, hin⟩ | ⟨b, rfl, hat⟩
  · obtain ⟨hm, hf, hle⟩ := h.choose?_mem hk
    have haddress := View.address_of_answerIn hin
    have hi := Block.inset_add_le hle p.direction
    have hv : a.view.Vacant address n := by
      rw [haddress]
      exact (h.bank.vacant_iff hn).2 ⟨k, hm, hf, by omega, by omega⟩
    refine ⟨k, hm, hf, n, ⟨size, hgrant⟩, hn, hv, by omega, by omega,
      .inl ⟨size, p, rfl, haddress⟩, ?_⟩
    rw [View.after, liveAfter, View.liveWith_of_grant hg]
    rfl
  · obtain ⟨rfl, ho, hal, hv⟩ := View.vacant_of_answerAt hat
    obtain ⟨m, rfl⟩ := Nat.exists_eq_add_of_le' ho
    obtain ⟨k, hm, hf, hkm, hmk⟩ := (h.bank.vacant_iff hn).1 hv
    refine ⟨k, hm, hf, n, ⟨size, hgrant⟩, hn, hv, by omega, by omega, .inr ⟨size, rfl, hal⟩, ?_⟩
    rw [View.after, liveAfter, View.liveWith_of_grant hg]
    rfl

theorem Reached.places {g : Geometry} {log : Log} {a' : Allocator} (h : Reached g log a)
    (hr : r.InRange) (hs : (perform r).effect a = (.ok (.placed address), a')) :
    ∃ k ∈ a.bank.table.blocks, k.allocated = false ∧
      ∃ n, View.Places ⟨g, cutOff log, history g log⟩ r k address n := by
  obtain ⟨a'', he, -, -⟩ := h.step hr
  rw [← h.view_eq]
  exact h.sound.places (congrArg Prod.fst (he.symm.trans hs))

end Allocator

end MemoryBank
