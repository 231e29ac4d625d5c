import MemoryBank.Proofs.Choosing

/-!
# Memory at an address of the caller's choice

When a request for memory at a given address is served, and what callers can tell of it beforehand.

* `Allocator.Unclaimed`: the bytes at an address can be used, and no live allocation has any of
  them.
* `Bank.Holds.vacant_iff_within`: such bytes lie in one of the free ranges. They are not spread over
  two, since no two free blocks touch.
* `Allocator.Reached.reserves_where_unclaimed`: the request is served exactly there, if the address
  is aligned. It then takes these bytes and nothing else.
-/

namespace MemoryBank

open MemoryBank.Action

/-! ## Free bytes in one range -/

namespace Bank

variable {b b' : Bank} {bs : List Block} {address size n : ℕ}

/-- **Vacant bytes lie in one of the free ranges** that are large enough for them. -/
theorem Holds.vacant_iff_within (h : b.Holds bs) (hn : 0 < n) :
    b.view.Vacant address n ↔
      ∃ r ∈ (b.candidates n).map (Block.range b.geometry.offset), r.1 ≤ address ∧
        address + n ≤ r.2 := by
  have hstart : b.view.start = b.geometry.offset + b.shrunk := rfl
  simp only [List.mem_map, exists_exists_and_eq_and, mem_candidates, Block.range, h.table.blocks_eq]
  constructor
  · intro hv
    have hs := hv.1
    obtain ⟨i, rfl⟩ := Nat.exists_eq_add_of_le' (show b.geometry.offset ≤ address by omega)
    obtain ⟨k, hk, hf, hki, hik⟩ := (h.vacant_iff hn).1 hv
    exact ⟨k, ⟨hk, hf, by omega⟩, by omega, by omega⟩
  · rintro ⟨k, ⟨hk, hf, -⟩, hlow, hhigh⟩
    obtain ⟨i, rfl⟩ := Nat.exists_eq_add_of_le' (show b.geometry.offset ≤ address by omega)
    exact (h.vacant_iff hn).2 ⟨k, hk, hf, by omega, by omega⟩

/-- **Memory at an address** is placed in bytes that were free. -/
theorem Step.takes_at (hs : b.Step (.allocateAt address size) (.ok (.placed address)) b')
    (hg : b.view.grant size = .ok (some n)) : b.Takes address n b' := by
  cases hs with
  | refused hr => exact absurd hr not_refused_placed
  | placedAt h hf hg' hn ha hc =>
    obtain rfl := Option.some.inj (Except.ok.inj (hg'.symm.trans hg))
    exact ha ▸ h.takes hf (h.grant_bounds hg).1 hn hc

end Bank

/-! ## Requests -/

namespace Allocator

variable {a : Allocator} {address size n : ℕ}

/-- The `n` bytes from `address` on can be used, and none of them belongs to a live allocation. -/
structure Unclaimed (a : Allocator) (live : Finset (ℕ × ℕ)) (address n : ℕ) : Prop where
  above : a.bank.geometry.offset + a.bank.shrunk ≤ address
  below : address + n ≤ a.bank.geometry.offset + a.bank.shrunk + a.bank.usable
  apart : ∀ r ∈ live, DisjointRanges r (address, n)

/-- The address is a multiple of the alignment, counted from the start of the bank. -/
def AlignedAt (g : Geometry) (address : ℕ) : Prop :=
  g.offset ≤ address ∧ g.alignment ∣ address - g.offset

/-- What becomes of a request for `size` bytes at an address. It is granted `o`, and the free ranges
that could hold it are `ranges`. -/
structure ReservesAt (a : Allocator) (live : Finset (ℕ × ℕ)) (address size : ℕ) (o : Option ℕ)
    (ranges : List (ℕ × ℕ)) : Prop where
  placed_iff : ((perform (.allocateAt address size)).effect a).1 = .ok (.placed address) ↔
    ∃ n ∈ o, AlignedAt a.bank.geometry address ∧ a.Unclaimed live address n
  /-- The bytes are unclaimed exactly if they lie in one of the free ranges. -/
  within : ∀ n ∈ o, a.Unclaimed live address n ↔
    ∃ r ∈ ranges, r.1 ≤ address ∧ address + n ≤ r.2
  /-- A request that is served takes the bytes that are granted. -/
  takes : ∀ a', (perform (.allocateAt address size)).effect a = (.ok (.placed address), a') →
    ∃ n ∈ o, a.bank.Takes address n a'.bank
  /-- Otherwise there is no room, and nothing changes. -/
  otherwise : ((perform (.allocateAt address size)).effect a).1 ≠ .ok (.placed address) →
    (perform (.allocateAt address size)).effect a = (.ok .noRoom, a)

theorem Sound.unclaimed_iff (h : a.Sound) :
    a.Unclaimed a.view.live address n ↔ a.view.Vacant address n := by
  have hacc := h.bank.account
  have hstart : a.view.start = a.bank.geometry.offset + a.bank.shrunk := rfl
  have hstop : a.view.stop = a.bank.geometry.offset + a.bank.geometry.size := rfl
  constructor
  · rintro ⟨hlow, hhigh, hapart⟩
    exact ⟨by omega, by omega, hapart⟩
  · rintro ⟨hlow, hhigh, hapart⟩
    exact ⟨by omega, by omega, hapart⟩

/-- Where the answer is that there is no room, nothing was admitted at the address. -/
theorem Sound.reservesAt_noRoom (h : a.Sound) (hr : (Request.allocateAt address size).InRange)
    (ha : a.view.answer a.choose? (.allocateAt address size) = .ok .noRoom) {o : Option ℕ}
    {ranges : List (ℕ × ℕ)}
    (hno : ∀ n ∈ o, ¬(AlignedAt a.bank.geometry address ∧ a.Unclaimed a.view.live address n))
    (hwithin : ∀ n ∈ o, a.Unclaimed a.view.live address n ↔
      ∃ r ∈ ranges, r.1 ≤ address ∧ address + n ≤ r.2) :
    a.ReservesAt a.view.live address size o ranges := by
  have he := h.refuses hr ha refused_noRoom
  refine ⟨?_, hwithin, fun a' he' => ?_, fun _ => he⟩
  · rw [he]
    exact iff_of_false nofun fun ⟨n, hn, hn'⟩ => hno n hn hn'
  · rw [he] at he'
    cases he'

theorem Sound.reservesAt (h : a.Sound) (hr : (Request.allocateAt address size).InRange)
    (hg : a.view.grant size = .ok (some n)) :
    a.ReservesAt a.view.live address size (some n)
      ((a.bank.candidates n).map (Block.range a.bank.geometry.offset)) := by
  have hwithin : ∀ m ∈ some n, a.Unclaimed a.view.live address m ↔
      ∃ r ∈ (a.bank.candidates n).map (Block.range a.bank.geometry.offset),
        r.1 ≤ address ∧ address + m ≤ r.2 := by
    rintro m ⟨⟩
    exact h.unclaimed_iff.trans (h.bank.vacant_iff_within (h.bank.grant_bounds hg).1)
  have hans : a.view.answer a.choose? (.allocateAt address size) =
      .ok (a.view.answerAt address n) := View.answer_allocateAt_of_some hg
  by_cases hv : AlignedAt a.bank.geometry address ∧ a.Unclaimed a.view.live address n
  · have hplaced : a.view.answerAt address n = .placed address :=
      if_pos ⟨hv.1.1, Nat.mod_eq_zero_of_dvd hv.1.2, h.unclaimed_iff.1 hv.2⟩
    obtain ⟨a', he, -⟩ := perform_spec h hr
    rw [hans, hplaced] at he
    refine ⟨iff_of_true (by rw [he]) ⟨n, rfl, hv⟩, hwithin, fun a'' he' => ⟨n, rfl, ?_⟩,
      fun hne => absurd (by rw [he]) hne⟩
    exact (perform_step h hr he').1.takes_at hg
  · have hnone : a.view.answerAt address n = .noRoom :=
      if_neg fun hc => hv ⟨⟨hc.1, Nat.dvd_of_mod_eq_zero hc.2.1⟩, h.unclaimed_iff.2 hc.2.2⟩
    rw [hnone] at hans
    refine h.reservesAt_noRoom hr hans ?_ hwithin
    rintro m ⟨⟩
    exact hv

/-- **Memory at an address of the caller's choice is placed exactly where it is unclaimed**,
wherever a run has led. The request must be granted something, the address be aligned, and the bytes
that are granted be in use by no live allocation and in the range that can be used. -/
theorem Reached.reserves_where_unclaimed {g : Geometry} {log : Log} (h : Reached g log a)
    (hm : g.minimum < Address.limit) (ha : address < Address.limit) (hs : size < Address.limit) :
    ∃ o ranges, g.grant size = .ok o ∧
      (a.bank.availableAddresses size).result = .ok ranges ∧
      a.ReservesAt (history g log) address size o ranges := by
  have hb := h.sound.bank
  have hr : (Request.allocateAt address size).InRange := ⟨ha, hs⟩
  obtain ⟨o, ho⟩ := (Geometry.validate_eq_ok_iff.1 h.valid).grant_ok hm hs
  have hview : a.view.grant size = .ok (o.filter (· ≤ a.bank.usable)) :=
    hb.grant_filter (h.geometry.symm ▸ ho)
  rw [← h.live]
  cases hfit : o.filter (· ≤ a.bank.usable) with
  | some n =>
    obtain ⟨rfl, -⟩ := Option.filter_eq_some_iff.1 hfit
    rw [hfit] at hview
    exact ⟨some n, _, ho, hb.availableAddresses_of_some hview, h.sound.reservesAt hr hview⟩
  | none =>
    rw [hfit] at hview
    -- what is granted exceeds what can be used
    have hno : ∀ n ∈ o, ¬a.Unclaimed a.view.live address n := fun n hn hu => by
      have := Option.filter_eq_none_iff.1 hfit n hn
      have := hu.above
      have := hu.below
      simp only [decide_eq_true_eq] at *
      omega
    exact ⟨o, [], ho, hb.availableAddresses_of_none hview,
      h.sound.reservesAt_noRoom hr (View.answer_allocateAt_of_none hview)
        (fun n hn hn' => hno n hn hn'.2) fun n hn => iff_of_false (hno n hn) (by simp)⟩

/-- After a cut, the bytes between what is cut off and an allocation are unclaimed. -/
theorem reserves_beside_allocation : ∃ log a, Reached ⟨64, 4096, 16, 16⟩ log a ∧
    ∃ o ranges, (⟨64, 4096, 16, 16⟩ : Geometry).grant 20 = .ok o ∧
      (a.bank.availableAddresses 20).result = .ok ranges ∧
      a.ReservesAt (history ⟨64, 4096, 16, 16⟩ log) 4112 20 o ranges ∧
      ((perform (.allocateAt 4112 20)).effect a).1 = .ok (.placed 4112) := by
  have h := Reached.of_serve (Design.build_linear (g := ⟨64, 4096, 16, 16⟩) (by decide) .first)
    [.shrink 16 .bottomUp, .allocateAt 4144 16] (by simp [Request.InRange, Address.limit]) rfl
  have haddress : 4112 < Address.limit := by decide
  have hsize : 20 < Address.limit := by decide
  obtain ⟨o, ranges, ho, hranges, hres⟩ :=
    h.reserves_where_unclaimed (by decide) haddress hsize
  exact ⟨_, _, h, o, ranges, ho, hranges, hres, rfl⟩

end Allocator

end MemoryBank
