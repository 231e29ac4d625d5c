import MemoryBank.Proofs.Contract
import Mathlib.Order.Bounds.Defs

/-!
# Rounding

What requests are rounded to.

* `roundUp_eq`: an address can be rounded up, and the result is the next multiple, if that is an
  address; `roundUp_dvd`: whatever results is a multiple.
* `Geometry.Sound.grant_ok` and `Geometry.grant_dvd`: the same of the bytes that are granted.
* `Geometry.rounds_exactly`: every alignment rounds to the least multiple, every request is granted
  the least positive one, and only where that is no address is there no answer.
-/

namespace MemoryBank

/-- The least of `s`, where that is an address. -/
def LeastAddress (s : Set ℕ) (o : Option ℕ) : Prop :=
  ∃ m, IsLeast s m ∧ o = if m < Address.limit then some m else none

namespace LeastAddress

variable {s t : Set ℕ} {o p : Option ℕ} {m : ℕ}

theorem some_iff : LeastAddress s (some m) ↔ IsLeast s m ∧ m < Address.limit := by
  constructor
  · rintro ⟨k, hk, ho⟩
    split at ho
    case isTrue hlt => cases ho; exact ⟨hk, hlt⟩
    case isFalse => cases ho
  · rintro ⟨hm, hlt⟩
    exact ⟨m, hm, (if_pos hlt).symm⟩

/-- A set within another has no smaller least address, and may have none. -/
theorem anti (hs : LeastAddress s o) (ht : LeastAddress t p) (hts : t ⊆ s) :
    ∀ m ∈ p, ∃ k ∈ o, k ≤ m := by
  rintro m rfl
  obtain ⟨hm, hlt⟩ := some_iff.1 ht
  obtain ⟨k, hk, rfl⟩ := hs
  have hkm : k ≤ m := hk.2 (hts hm.1)
  exact ⟨k, if_pos (hkm.trans_lt hlt), hkm⟩

theorem unique (h : LeastAddress s o) (h' : LeastAddress s p) : o = p := by
  obtain ⟨m, hm, rfl⟩ := h
  obtain ⟨k, hk, rfl⟩ := h'
  rw [hm.unique hk]

end LeastAddress

section RoundUp

variable {value increment m : ℕ}

/-- Rounding up is a division and a multiplication, where the product is an address. -/
theorem roundUp_eq (hi : 0 < increment) (hv : value < Address.limit) :
    roundUp value increment =
      .ok (Address.mul? ((value + increment - 1) / increment) increment) := by
  unfold roundUp
  rcases Nat.eq_zero_or_pos value with rfl | hpos
  · have hzero : (0 + increment - 1) / increment = 0 := Nat.div_eq_of_lt (by omega)
    rw [hzero, Address.mul?, Nat.zero_mul]
    rfl
  · have hcount : (value - 1) / increment + 1 = (value + increment - 1) / increment := by
      rw [← Nat.add_div_right _ hi]
      congr 1
      omega
    have hle : (value - 1) / increment ≤ value - 1 := Nat.div_le_self _ _
    rw [if_neg hpos.ne', if_neg hi.ne', Address.add_of_lt (by omega), hcount]
    rfl

/-- The quotient, rounded up, is the least number of increments that reaches the value. -/
theorem ceil_le_iff (hi : 0 < increment) {k : ℕ} :
    (value + increment - 1) / increment ≤ k ↔ value ≤ k * increment := by
  rw [Nat.div_le_iff_le_mul_add_pred hi, Nat.mul_comm k]
  omega

/-- **Rounding up is exact**: the least multiple that is not below the value, if that is an
address. -/
theorem roundUp_least (hi : 0 < increment) (hv : value < Address.limit) :
    ∃ o, roundUp value increment = .ok o ∧
      LeastAddress {m | increment ∣ m ∧ value ≤ m} o := by
  refine ⟨_, roundUp_eq hi hv, (value + increment - 1) / increment * increment, ⟨⟨?_, ?_⟩, ?_⟩, rfl⟩
  · exact Nat.dvd_mul_left _ _
  · exact (ceil_le_iff hi).1 le_rfl
  · rintro _ ⟨⟨k, rfl⟩, hm⟩
    rw [Nat.mul_comm increment] at hm ⊢
    exact Nat.mul_le_mul_right _ ((ceil_le_iff hi).2 hm)

theorem roundUp_dvd (h : roundUp value increment = .ok (some m)) : increment ∣ m := by
  unfold roundUp at h
  split at h
  case isTrue =>
    cases h
    exact Nat.dvd_zero increment
  case isFalse =>
    split at h
    case isTrue => cases h
    case isFalse =>
      obtain ⟨count, -, hm⟩ := bind_eq_ok_iff.1 h
      obtain ⟨rfl, -⟩ := Address.mul?_eq_some_iff.1 (Except.ok.inj hm)
      exact Nat.dvd_mul_left increment count

end RoundUp

namespace Geometry

variable {g : Geometry} {request n : ℕ}

/-- A request is granted something, unless no bank could hold it. -/
theorem Sound.grant_ok (h : g.Sound) (hm : g.minimum < Address.limit)
    (hr : request < Address.limit) : ∃ o, g.grant request = .ok o := by
  unfold grant align
  rw [roundUp_eq h.alignment_pos (max_lt hr hm)]
  exact ⟨_, rfl⟩

/-- What is granted is a multiple of the alignment. -/
theorem grant_dvd (hn : g.grant request = .ok (some n)) : g.alignment ∣ n := by
  obtain ⟨size, hs, hn⟩ := bind_eq_ok_iff.1 hn
  obtain ⟨m, rfl, rfl⟩ := Option.map_eq_some_iff.1 (Except.ok.inj hn)
  split
  · exact Nat.dvd_refl g.alignment
  · exact roundUp_dvd hs

/-- Nothing is granted for nothing: the least multiple gives way to the least positive one. -/
theorem least_positive {a v : ℕ} {o : Option ℕ} (ha : 0 < a) (hal : a < Address.limit)
    (h : LeastAddress {m | a ∣ m ∧ v ≤ m} o) :
    LeastAddress {m | 0 < m ∧ a ∣ m ∧ v ≤ m} (o.map fun m => if m = 0 then a else m) := by
  obtain ⟨m, ⟨⟨hdvd, hm⟩, hleast⟩, rfl⟩ := h
  rcases Nat.eq_zero_or_pos m with rfl | hpos
  · refine ⟨a, ⟨⟨ha, Nat.dvd_refl a, by omega⟩, fun k hk => Nat.le_of_dvd hk.1 hk.2.1⟩, ?_⟩
    rw [if_pos hal, if_pos (by decide)]
    rfl
  · refine ⟨m, ⟨⟨hpos, hdvd, hm⟩, fun k hk => hleast hk.2⟩, ?_⟩
    split
    · exact congrArg some (if_neg hpos.ne')
    · rfl

/-- What is granted is the least positive multiple that meets the request and the minimum. -/
theorem grant_least (ha : 0 < g.alignment) (hal : g.alignment < Address.limit)
    (hm : g.minimum < Address.limit) (hr : request < Address.limit) :
    ∃ o, g.grant request = .ok o ∧
      LeastAddress {m | 0 < m ∧ g.alignment ∣ m ∧ max request g.minimum ≤ m} o := by
  obtain ⟨o, ho, hleast⟩ := roundUp_least ha (max_lt hr hm)
  refine ⟨_, ?_, least_positive ha hal hleast⟩
  rw [grant, align, ho]
  rfl

/-- What a geometry rounds to. Whatever is rounded, no step on the way leaves the addresses. -/
structure Rounds (g : Geometry) : Prop where
  align : ∀ value < Address.limit, ∃ o, g.align value = .ok o ∧
    LeastAddress {m | g.alignment ∣ m ∧ value ≤ m} o
  align_zero : g.align 0 = .ok (some 0)
  /-- Of two values that are rounded the smaller has a result wherever the larger has one. -/
  align_mono : ∀ value value', value ≤ value' → value' < Address.limit →
    ∃ o o', g.align value = .ok o ∧ g.align value' = .ok o' ∧ ∀ m' ∈ o', ∃ m ∈ o, m ≤ m'
  align_idem : ∀ value < Address.limit, ∀ m, g.align value = .ok (some m) →
    g.align m = .ok (some m)
  grant : ∀ request < Address.limit, ∃ o, g.grant request = .ok o ∧
    LeastAddress {n | 0 < n ∧ g.alignment ∣ n ∧ max request g.minimum ≤ n} o
  grant_mono : ∀ request request', request ≤ request' → request' < Address.limit →
    ∃ o o', g.grant request = .ok o ∧ g.grant request' = .ok o' ∧ ∀ n' ∈ o', ∃ n ∈ o, n ≤ n'
  /-- A granted size is granted exactly. -/
  grant_idem : ∀ request < Address.limit, ∀ n, g.grant request = .ok (some n) →
    g.grant n = .ok (some n)

/-- **Rounding is exact up to the last address**, whatever the alignment and the minimum. -/
theorem rounds_exactly (ha : 0 < g.alignment) (hal : g.alignment < Address.limit)
    (hm : g.minimum < Address.limit) : g.Rounds where
  align _ := roundUp_least ha
  align_zero := rfl
  align_mono value value' hle hlt := by
    obtain ⟨o, ho, hleast⟩ := roundUp_least ha (hle.trans_lt hlt)
    obtain ⟨o', ho', hleast'⟩ := roundUp_least ha hlt
    exact ⟨o, o', ho, ho', hleast.anti hleast' fun m hm => ⟨hm.1, hle.trans hm.2⟩⟩
  align_idem value hv m h := by
    obtain ⟨o, ho, hleast⟩ := roundUp_least ha hv
    obtain rfl : o = some m := Except.ok.inj (ho.symm.trans h)
    obtain ⟨⟨⟨hdvd, -⟩, -⟩, hlt⟩ := LeastAddress.some_iff.1 hleast
    obtain ⟨p, hp, hleast'⟩ := roundUp_least ha hlt
    have hself : IsLeast {k | g.alignment ∣ k ∧ m ≤ k} m := ⟨⟨hdvd, le_rfl⟩, fun _ hk => hk.2⟩
    rw [hleast'.unique (LeastAddress.some_iff.2 ⟨hself, hlt⟩)] at hp
    exact hp
  grant _ := grant_least ha hal hm
  grant_mono request request' hle hlt := by
    obtain ⟨o, ho, hleast⟩ := grant_least ha hal hm (hle.trans_lt hlt)
    obtain ⟨o', ho', hleast'⟩ := grant_least ha hal hm hlt
    have hmax := max_le_max_right g.minimum hle
    exact ⟨o, o', ho, ho', hleast.anti hleast' fun n hn => ⟨hn.1, hn.2.1, hmax.trans hn.2.2⟩⟩
  grant_idem request hr n h := by
    obtain ⟨o, ho, hleast⟩ := grant_least ha hal hm hr
    obtain rfl : o = some n := Except.ok.inj (ho.symm.trans h)
    obtain ⟨⟨⟨hpos, hdvd, hmin⟩, -⟩, hlt⟩ := LeastAddress.some_iff.1 hleast
    obtain ⟨p, hp, hleast'⟩ := grant_least ha hal hm hlt
    have hself : IsLeast {k | 0 < k ∧ g.alignment ∣ k ∧ max n g.minimum ≤ k} n :=
      ⟨⟨hpos, hdvd, max_le le_rfl (le_max_right _ _ |>.trans hmin)⟩,
        fun _ hk => (le_max_left _ _).trans hk.2.2⟩
    rw [hleast'.unique (LeastAddress.some_iff.2 ⟨hself, hlt⟩)] at hp
    exact hp

/-- An alignment that is no power of two. -/
theorem rounds_exactly_of_seven : (⟨0, 0, 20, 7⟩ : Geometry).Rounds :=
  rounds_exactly (by decide) (by decide) (by decide)

end Geometry

end MemoryBank
