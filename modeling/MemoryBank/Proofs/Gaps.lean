import MemoryBank.Proofs.Choosing
import Mathlib.Data.List.Sort
import Mathlib.Order.Interval.Set.LinearOrder

/-!
# The gaps between the allocations

Callers know which bytes can be used and which of them are allocated. What is left falls into gaps,
ranges of bytes that lie in no larger one (`IsGap`). Blocks are not mentioned.

* `GapsOf.unique`: the gaps of some bytes in ascending order are one list.
* `Tiles.gapsOf`: if the blocks tile a range and no two free ones touch, the free blocks are the
  gaps of the free bytes.
* `Bank.Holds.gapsOf`: so the free blocks of a bank are the gaps of what its allocations leave.
-/

namespace MemoryBank

/-! ## Gaps -/

/-- A range of some bytes that lies in no larger range of them. -/
structure IsGap (F : Set ℕ) (r : ℕ × ℕ) : Prop where
  nonempty : r.1 < r.2
  inside : Set.Ico r.1 r.2 ⊆ F
  maximal : ∀ s : ℕ × ℕ, Set.Ico r.1 r.2 ⊆ Set.Ico s.1 s.2 → Set.Ico s.1 s.2 ⊆ F → s = r

/-- The list has all gaps, the lowest first. -/
structure GapsOf (F : Set ℕ) (gaps : List (ℕ × ℕ)) : Prop where
  mem_iff : ∀ r, r ∈ gaps ↔ IsGap F r
  ascending : gaps.Pairwise (·.1 < ·.1)

section Gaps

variable {F : Set ℕ} {r s : ℕ × ℕ} {x : ℕ}

/-- A range is a gap if the bytes next to it are missing. -/
theorem IsGap.of_bounded (hne : r.1 < r.2) (hin : Set.Ico r.1 r.2 ⊆ F)
    (hlow : ∀ x ∈ F, x + 1 ≠ r.1) (hhigh : r.2 ∉ F) : IsGap F r := by
  refine ⟨hne, hin, fun s hrs hs => ?_⟩
  obtain ⟨hlow_le, hhigh_le⟩ := (Set.Ico_subset_Ico_iff hne).1 hrs
  refine Prod.ext (le_antisymm hlow_le ?_) (le_antisymm ?_ hhigh_le)
  · by_contra hlt
    exact hlow (r.1 - 1) (hs ⟨by omega, by omega⟩) (by omega)
  · by_contra hlt
    exact hhigh (hs ⟨by omega, by omega⟩)

/-- Two gaps have no byte in common. -/
theorem IsGap.eq_of_mem (hr : IsGap F r) (hs : IsGap F s) (hxr : x ∈ Set.Ico r.1 r.2)
    (hxs : x ∈ Set.Ico s.1 s.2) : r = s := by
  rw [Set.mem_Ico] at hxr hxs
  -- the two together are one range
  have hunion : Set.Ico (min r.1 s.1) (max r.2 s.2) ⊆ F := fun y hy => by
    rw [Set.mem_Ico] at hy
    rcases Nat.lt_or_ge y x with hlt | hge
    · rcases min_le_iff.1 hy.1 with h | h
      · exact hr.inside ⟨h, by omega⟩
      · exact hs.inside ⟨h, by omega⟩
    · rcases lt_max_iff.1 hy.2 with h | h
      · exact hr.inside ⟨by omega, h⟩
      · exact hs.inside ⟨by omega, h⟩
  have hur := hr.maximal (min r.1 s.1, max r.2 s.2)
    (Set.Ico_subset_Ico (min_le_left _ _) (le_max_left _ _)) hunion
  have hus := hs.maximal (min r.1 s.1, max r.2 s.2)
    (Set.Ico_subset_Ico (min_le_right _ _) (le_max_right _ _)) hunion
  exact hur.symm.trans hus

/-- **The gaps in ascending order are one list.** -/
theorem GapsOf.unique {gaps gaps' : List (ℕ × ℕ)} (h : GapsOf F gaps) (h' : GapsOf F gaps') :
    gaps = gaps' := by
  have hnodup : ∀ {l : List (ℕ × ℕ)}, l.Pairwise (·.1 < ·.1) → l.Nodup := fun hl =>
    hl.imp fun hlt he => by simp [he] at hlt
  have hperm : gaps.Perm gaps' :=
    (List.perm_ext_iff_of_nodup (hnodup h.ascending) (hnodup h'.ascending)).2 fun r => by
      rw [h.mem_iff, h'.mem_iff]
  exact hperm.eq_of_pairwise (fun _ _ _ _ hlt hgt => absurd hlt hgt.asymm) h.ascending h'.ascending

end Gaps

/-! ## The gaps of a tiling -/

/-- The bytes of each free block, for the callers of a bank that starts at `offset`. -/
def freeSpans (offset : ℕ) (bs : List Block) : List (ℕ × ℕ) :=
  (bs.filter fun k => !k.allocated).map (Block.range offset)

section Spans

variable {offset start stop : ℕ} {k : Block} {bs : List Block}

theorem mem_freeSpans {r : ℕ × ℕ} :
    r ∈ freeSpans offset bs ↔ ∃ k ∈ bs, k.allocated = false ∧ k.range offset = r := by
  simp [freeSpans, and_assoc]

/-- The free blocks of certain sizes are the free spans of these lengths. -/
theorem filter_freeSpans (p : ℕ → Bool) : (freeSpans offset bs).filter (fun r => p (r.2 - r.1)) =
    (bs.filter fun k => !k.allocated && p k.size).map (Block.range offset) := by
  rw [freeSpans, List.filter_map, List.filter_filter]
  congr 2
  funext k
  rw [Function.comp_apply, Block.size_range, Bool.and_comm]

/-- A free block is a gap of the free bytes: next to it there is a block in use or the end of the
range. -/
theorem Tiles.isGap_range (h : Tiles start bs stop) (hs : Separated bs) (offset : ℕ) (hk : k ∈ bs)
    (hf : k.allocated = false) :
    IsGap (bytesAt offset (bs.filter fun k => !k.allocated)) (k.range offset) := by
  have hpos := (h.bounds hk).2.1
  have hmem : ∀ {x}, x ∈ bytesAt offset (bs.filter fun k => !k.allocated) ↔
      x ∈ Set.Ico (offset + start) (offset + stop) ∧
        x ∉ bytesAt offset (bs.filter (·.allocated)) := by
    rw [h.bytesAt_free]
    exact Iff.rfl
  have hused : ∀ c ∈ bs, c.allocated = true → ∀ x, c.address + offset ≤ x →
      x < c.address + c.size + offset → x ∉ bytesAt offset (bs.filter fun k => !k.allocated) :=
    fun c hc hl x hlow hhigh hx => (hmem.1 hx).2 ⟨c, List.mem_filter.2 ⟨hc, hl⟩, hlow, hhigh⟩
  refine .of_bounded (by dsimp only [Block.range]; omega)
    (fun x hx => ⟨k, by simp [hk, hf], hx⟩) (fun x hx he => ?_) fun hx => ?_
  · change x + 1 = k.address + offset at he
    rcases h.before_free hs hk hf with hstart | ⟨c, hc, hl, hstop⟩
    · have := (hmem.1 hx).1.1
      omega
    · have := (h.bounds hc).2.1
      exact hused c hc hl x (by omega) (by omega) hx
  · change k.address + k.size + offset ∈ _ at hx
    rcases h.after_free hs hk hf with hstop | ⟨c, hc, hl, hstart⟩
    · have := (hmem.1 hx).1.2
      omega
    · have := (h.bounds hc).2.1
      exact hused c hc hl _ (by omega) (by omega) hx

theorem Tiles.pairwise_freeSpans (h : Tiles start bs stop) (offset : ℕ) :
    (freeSpans offset bs).Pairwise (·.1 < ·.1) := by
  rw [freeSpans, List.pairwise_map]
  refine List.Pairwise.imp_of_mem (fun {k c} hk _ hkc => ?_)
    (h.pairwise.sublist List.filter_sublist)
  have := h.bounds (List.mem_of_mem_filter hk)
  dsimp only [Block.range]
  omega

/-- **The free blocks are the gaps** of the free bytes. -/
theorem Tiles.gapsOf (h : Tiles start bs stop) (hs : Separated bs) (offset : ℕ) :
    GapsOf (bytesAt offset (bs.filter fun k => !k.allocated)) (freeSpans offset bs) := by
  refine ⟨fun r => ?_, h.pairwise_freeSpans offset⟩
  rw [mem_freeSpans]
  constructor
  · rintro ⟨k, hk, hf, rfl⟩
    exact h.isGap_range hs offset hk hf
  · intro hr
    have hfirst : r.1 ∈ Set.Ico r.1 r.2 := ⟨le_rfl, hr.nonempty⟩
    obtain ⟨k, hk, hkr⟩ := hr.inside hfirst
    obtain ⟨hk, hf⟩ := List.mem_filter.1 hk
    rw [Bool.not_eq_true'] at hf
    exact ⟨k, hk, hf, (h.isGap_range hs offset hk hf).eq_of_mem hr hkr hfirst⟩

end Spans

/-! ## The gaps of a bank -/

/-- The bytes that can be used at present and belong to no live allocation. -/
def View.vacantBytes (v : View) : Set ℕ :=
  {x | v.start ≤ x ∧ x < v.stop ∧ ∀ r ∈ v.live, x ∉ Set.Ico r.1 (r.1 + r.2)}

namespace Bank.Holds

variable {b : Bank} {bs : List Block}

/-- What callers can tell to be vacant are the bytes of the free blocks. -/
theorem vacantBytes_eq (h : b.Holds bs) : b.view.vacantBytes = b.freeBytes := by
  rw [h.freeBytes_eq]
  ext x
  have hlive : (∃ r ∈ b.view.live, x ∈ Set.Ico r.1 (r.1 + r.2)) ↔ x ∈ b.usedBytes := by
    simp only [h.live_eq, mem_allocations, usedBytes, h.inUse_eq, bytesAt, Set.mem_ofPred_eq,
      List.mem_filter, Set.mem_Ico]
    constructor
    · rintro ⟨r, ⟨k, hk, hl, haddress, hsize⟩, hlow, hhigh⟩
      exact ⟨k, ⟨hk, hl⟩, by omega, by omega⟩
    · rintro ⟨k, ⟨hk, hl⟩, hlow, hhigh⟩
      exact ⟨(k.address + b.geometry.offset, k.size), ⟨k, hk, hl, rfl, rfl⟩, hlow, by omega⟩
  rw [Set.mem_sdiff, ← hlive]
  simp only [View.vacantBytes, Set.mem_ofPred_eq, Set.mem_Ico, not_exists, not_and, and_assoc]

/-- **The free blocks are the gaps that the allocations leave.** -/
theorem gapsOf (h : b.Holds bs) : GapsOf b.view.vacantBytes (freeSpans b.geometry.offset bs) := by
  rw [h.vacantBytes_eq, freeBytes, h.table.blocks_eq]
  exact h.tiles.gapsOf h.separated _

end Bank.Holds

end MemoryBank
