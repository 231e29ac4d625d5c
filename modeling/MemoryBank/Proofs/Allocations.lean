import MemoryBank.Proofs.TableSteps
import Mathlib.Algebra.BigOperators.Group.Finset.Basic
import Mathlib.Data.Finset.Sort

/-!
# Allocations of a tiling

What callers can tell of a list of blocks is the set of allocated ranges, `allocations`. This module
says what cutting, freeing and merging blocks makes of it, and that what results is a tiling again.

* `allocations_carved` and `allocations_without`: an allocation more, an allocation less.
* `liveRanges_eq_of_allocations`: two tilings of one range with the same set have the same live
  ranges.
* `tiles_carved`, `tiles_shortened`, `Merged.tiles` and their like for `Separated`: the blocks after
  a step tile what those before it did, and no two neighbours are free.
-/

namespace MemoryBank

/-! ## The allocations of a list of blocks -/

/-- The allocated ranges in a bank that starts at `offset`. -/
def allocations (offset : ℕ) (bs : List Block) : Finset (ℕ × ℕ) :=
  ((liveRanges bs).map fun r => (r.1 + offset, r.2)).toFinset

section Allocations

variable {offset start stop : ℕ} {bs cs xs ys : List Block} {k : Block}

theorem mem_allocations {r : ℕ × ℕ} :
    r ∈ allocations offset bs ↔
      ∃ k ∈ bs, k.allocated = true ∧ k.address + offset = r.1 ∧ k.size = r.2 := by
  simp only [allocations, List.mem_toFinset, List.mem_map, mem_liveRanges, Prod.ext_iff]
  constructor
  · rintro ⟨r', ⟨k, hk, hl, ha, hs⟩, ha', hs'⟩
    exact ⟨k, hk, hl, ha ▸ ha', hs ▸ hs'⟩
  · rintro ⟨k, hk, hl, ha, hs⟩
    exact ⟨(k.address, k.size), ⟨k, hk, hl, rfl, rfl⟩, ha, hs⟩

theorem allocations_append :
    allocations offset (xs ++ ys) = allocations offset xs ∪ allocations offset ys := by
  simp [allocations, liveRanges_append]

theorem allocations_cons_live (h : k.allocated = true) :
    allocations offset (k :: ys) = insert (k.address + offset, k.size) (allocations offset ys) := by
  simp [allocations, liveRanges_cons_live h]

theorem allocations_of_free (h : ∀ a ∈ xs, a.allocated = false) : allocations offset xs = ∅ := by
  rw [Finset.eq_empty_iff_forall_notMem]
  intro r hr
  obtain ⟨k, hk, hl, -⟩ := mem_allocations.1 hr
  simp [h k hk] at hl

theorem allocations_cons_free (h : k.allocated = false) :
    allocations offset (k :: ys) = allocations offset ys := by
  simp [allocations, liveRanges_cons_free h]

/-- Allocating a part of a free block. -/
theorem allocations_carved {i j : Handle} {inset n : ℕ} (h : k.allocated = false) :
    allocations offset (xs ++ carved k inset n i j ++ ys) =
      insert (k.address + inset + offset, n) (allocations offset (xs ++ k :: ys)) := by
  have hfree : ∀ i a n, ∀ b ∈ leftover i a n, b.allocated = false := fun i a n b hb => by
    rw [(mem_leftover.1 hb).2]
  rw [allocations_append, allocations_append, allocations_append, allocations_cons_free h, carved,
    allocations_append, allocations_of_free (hfree _ _ _), allocations_cons_live rfl,
    allocations_of_free (hfree _ _ _)]
  ext r
  simp only [Finset.mem_union, Finset.mem_insert, Finset.notMem_empty]
  tauto

/-- Cutting off a part of a free block. -/
theorem allocations_shortened (h : k.allocated = false) (amount : ℕ) :
    allocations offset (shortened k amount ++ ys) = allocations offset (k :: ys) := by
  rw [allocations_cons_free h]
  unfold shortened
  split
  · rfl
  · exact allocations_cons_free h

/-- Forgetting a block in use. -/
theorem allocations_without (h : Tiles start (xs ++ k :: ys) stop) :
    allocations offset (xs ++ ys) =
      (allocations offset (xs ++ k :: ys)).filter (·.1 ≠ k.address + offset) := by
  ext r
  rw [Finset.mem_filter, mem_allocations, mem_allocations]
  constructor
  · rintro ⟨a, ha, hl, har, hs⟩
    have ha' : a ∈ xs ++ k :: ys := by
      simp only [List.mem_append, List.mem_cons] at ha ⊢
      tauto
    refine ⟨⟨a, ha', hl, har, hs⟩, fun e => ?_⟩
    obtain rfl : a = k := h.eq_of_address ha' (by simp) (by omega)
    have hn := h.nodup_address
    rw [List.map_append, List.map_cons, List.nodup_middle, ← List.map_append, List.nodup_cons] at hn
    exact hn.1 (List.mem_map_of_mem ha)
  · rintro ⟨⟨a, ha, hl, har, hs⟩, hne⟩
    refine ⟨a, ?_, hl, har, hs⟩
    simp only [List.mem_append, List.mem_cons] at ha ⊢
    rcases ha with ha | rfl | ha
    · exact .inl ha
    · exact absurd har.symm hne
    · exact .inr ha

theorem shift_injective (offset : ℕ) :
    Function.Injective fun r : ℕ × ℕ => (r.1 + offset, r.2) := fun r s e => by
  simp only [Prod.mk.injEq, Nat.add_right_cancel_iff] at e
  exact Prod.ext e.1 e.2

theorem Tiles.nodup_shifted (h : Tiles start bs stop) (offset : ℕ) :
    ((liveRanges bs).map fun r => (r.1 + offset, r.2)).Nodup :=
  (List.Nodup.of_map _ h.nodup_liveRanges).map (shift_injective offset)

/-- There are as many allocations as blocks in use, -/
theorem card_allocations (h : Tiles start bs stop) :
    (allocations offset bs).card = (liveRanges bs).length := by
  rw [allocations, List.toFinset_card_of_nodup (h.nodup_shifted offset), List.length_map]

/-- and they have as many bytes. -/
theorem sum_allocations (h : Tiles start bs stop) :
    ∑ r ∈ allocations offset bs, r.2 = bytes (bs.filter (·.allocated)) := by
  have hbytes : ∀ ks : List Block, bytes ks = (ks.map (·.size)).sum := fun ks => by
    induction ks with
    | nil => rfl
    | cons k ks ih => rw [bytes, ih, List.map_cons, List.sum_cons]
  rw [allocations, List.sum_toFinset _ (h.nodup_shifted offset), hbytes, liveRanges, List.map_map,
    List.map_map]
  rfl

/-- The live ranges of a tiling are known by the set of them. -/
theorem liveRanges_eq_of_allocations (hb : Tiles start bs stop) (hc : Tiles start cs stop)
    (h : allocations offset bs = allocations offset cs) : liveRanges bs = liveRanges cs := by
  have hmem : ∀ r, r ∈ liveRanges bs ↔ r ∈ liveRanges cs := fun r => by
    have := Finset.ext_iff.1 h (r.1 + offset, r.2)
    simpa only [allocations, List.mem_toFinset, List.mem_map_of_injective (shift_injective offset)
      (a := r)] using this
  refine ((List.perm_ext_iff_of_nodup ?_ ?_).2 hmem).eq_of_pairwise (fun a b _ _ hab hba => ?_)
    hb.pairwise_liveRanges hc.pairwise_liveRanges
  · exact .of_map _ hb.nodup_liveRanges
  · exact .of_map _ hc.nodup_liveRanges
  · omega

end Allocations

/-! ## Tilings and separation after a step -/

section Steps

variable {start stop inset n : ℕ} {i j : Handle} {k m : Block} {xs ys us vs ls rs : List Block}

theorem tiles_leftover (i : Handle) (address n : ℕ) :
    Tiles address (leftover i address n) (address + n) := by
  unfold leftover
  split
  case isTrue h =>
    rw [h]
    rfl
  case isFalse h => exact ⟨rfl, Nat.pos_of_ne_zero h, rfl⟩

theorem tiles_carved (hn : 0 < n) (h : inset + n ≤ k.size) :
    Tiles k.address (carved k inset n i j) (k.address + k.size) := by
  rw [carved, Tiles.middle_iff]
  refine ⟨tiles_leftover i _ _, hn, ?_⟩
  have := tiles_leftover j (k.address + inset + n) (k.size - inset - n)
  rwa [show k.address + inset + n + (k.size - inset - n) = k.address + k.size by omega] at this

theorem separated_append_leftover (h : Separated xs) (hl : ∀ a ∈ xs.getLast?, a.allocated = true)
    (i : Handle) (address n : ℕ) : Separated (xs ++ leftover i address n) := by
  unfold leftover
  split
  · simpa using h
  · exact separated_free h separated_nil hl (by simp)

theorem separated_leftover_append (h : Separated ys) (hr : ∀ a ∈ ys.head?, a.allocated = true)
    (i : Handle) (address n : ℕ) : Separated (leftover i address n ++ ys) := by
  unfold leftover
  split
  · simpa using h
  · exact separated_free separated_nil h (by simp) hr

/-- A block of its own between what is left over keeps free blocks apart. -/
theorem separated_carved (h : Separated (xs ++ k :: ys)) (hf : k.allocated = false) :
    Separated (xs ++ carved k inset n i j ++ ys) := by
  obtain ⟨hl, hr⟩ := h.beside_free hf
  have := separated_live (b := ⟨k.index, k.address + inset, n, true⟩)
    (separated_append_leftover h.left hl i k.address inset)
    (separated_leftover_append h.right.tail hr j (k.address + inset + n) (k.size - inset - n)) rfl
  simpa only [carved, List.append_assoc, List.cons_append] using this

/-- What is left of the first block goes on up to the next. -/
theorem tiles_shortened {amount : ℕ} (h : Tiles start (k :: ys) stop) (ha : amount ≤ k.size) :
    Tiles (start + amount) (shortened k amount ++ ys) stop := by
  obtain ⟨hk, hpos, hy⟩ := h
  unfold shortened
  split
  case isTrue e =>
    rw [e]
    exact hy
  case isFalse e =>
    refine ⟨congrArg (· + amount) hk, Nat.sub_pos_of_lt (by omega), ?_⟩
    dsimp only
    rwa [show start + amount + (k.size - amount) = start + k.size by omega]

theorem separated_shortened (h : Separated (k :: ys)) (hf : k.allocated = false) (amount : ℕ) :
    Separated (shortened k amount ++ ys) := by
  have hs : Separated ([] ++ k :: ys) := h
  unfold shortened
  split
  · exact h.tail
  · exact separated_free separated_nil hs.right.tail (by simp) (hs.beside_free hf).2

/-- Merged blocks tile what they tiled before. -/
theorem Merged.tiles (h : Merged xs ys us vs ls rs k m) (ht : Tiles start (xs ++ k :: ys) stop) :
    Tiles start (us ++ m :: vs) stop := by
  rw [h.below, h.above, List.append_assoc, ← List.cons_append, ← List.append_assoc ls,
    Tiles.append_iff] at ht
  obtain ⟨mid, hu, ht⟩ := ht
  obtain ⟨mid', hk, hv⟩ := Tiles.append_iff.1 ht
  have hc := h.covers
  obtain ⟨a, as, e⟩ := List.exists_cons_of_ne_nil (show ls ++ k :: rs ≠ [] by simp)
  rw [e] at hk hc
  obtain rfl : m.address = mid := hc.1.symm.trans hk.1
  have hlast := (List.getLast?_eq_some_getLast (List.cons_ne_nil a as))
  obtain rfl : m.address + m.size = mid' := (hc.last_stop _ hlast).symm.trans (hk.last_stop _ hlast)
  have := hc.bounds (b := a) List.mem_cons_self
  exact Tiles.middle_iff.2 ⟨hu, by omega, hv⟩

/-- A merged block has no free neighbour. -/
theorem Merged.separated (h : Merged xs ys us vs ls rs k m) (hs : Separated (xs ++ k :: ys)) :
    Separated (us ++ m :: vs) := by
  have hx : Separated (us ++ ls) := h.below ▸ hs.left
  have hy : Separated (rs ++ vs) := h.above ▸ hs.right.tail
  refine separated_free hx.left hy.right ?_ ?_
  · cases ls with
    | nil => exact h.stays_below rfl
    | cons a as => exact (hx.beside_free (h.absorbed a (by simp))).1
  · cases rs using List.reverseRecOn with
    | nil => exact h.stays_above rfl
    | append_singleton as a =>
      rw [List.append_assoc] at hy
      exact (hy.beside_free (h.absorbed a (by simp))).2

end Steps

end MemoryBank
