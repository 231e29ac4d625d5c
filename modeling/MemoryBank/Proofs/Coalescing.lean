import MemoryBank.Proofs.FreeBytes
import MemoryBank.Proofs.TableRuns

/-!
# Freeing one block of a table

What freeing a block does to a table whose blocks cover a range with no two free neighbours
(`Table.Covers`), told block by block and byte by byte.

* `Covers.frees`: just the bytes of that block turn free. It is merged with the free blocks beside
  it, and the rest of the list stays as it is (`Table.Frees`).
* `Covers.restores`: freeing an allocation that was just carved out of a free block undoes the
  carving (`Table.Restores`). The allocation may be empty, so the list in between need not be a
  tiling. `Holds.fuse` does not ask for one.

`Covers.frees_and_restores` has both.
-/

namespace MemoryBank

section Blocks

variable {i : Handle} {address n : ℕ} {b : Block} {us vs xs ys : List Block}

theorem bytes_leftover : bytes (leftover i address n) = n := by
  unfold leftover
  split <;> simp [bytes, *]

theorem freeEntries_leftover : freeEntries (leftover i address n) =
    (firstHandle (leftover i address n)).toList.map (·, n) := by
  unfold leftover
  split <;> rfl

theorem freeBelow_append_leftover (h : ∀ a ∈ xs.getLast?, a.allocated = true) :
    freeBelow (xs ++ leftover i address n) = leftover i address n := by
  unfold leftover
  split
  · rw [List.append_nil, freeBelow_eq_nil_iff.2 h]
  · exact freeBelow_concat rfl

theorem freeAbove_leftover_append (h : ∀ a ∈ ys.head?, a.allocated = true) :
    freeAbove (leftover i address n ++ ys) = leftover i address n := by
  unfold leftover
  split
  · rw [List.nil_append, freeAbove_eq_nil_iff.2 h]
  · exact freeAbove_cons rfl

theorem map_firstHandle_leftover (j : Handle) : (firstHandle (leftover i address n)).toList.map
    (fun _ => j) = if leftover i address n = [] then [] else [j] := by
  unfold leftover
  split <;> rfl

/-- What is left over below goes on up to the allocation. -/
theorem last_stop_append_leftover (h : ∀ a ∈ xs.getLast?, a.address + a.size = address) :
    ∀ a ∈ (xs ++ leftover i address n).getLast?, a.address + a.size = address + n := by
  unfold leftover
  split
  case isTrue e => simpa [e] using h
  case isFalse => simp

/-- What is left over above goes on from the allocation. -/
theorem head_touches_leftover_append
    (h : ∀ a ∈ ys.head?, address + n = a.address ∧ a.address + a.size < Address.limit)
    (hl : address + n < Address.limit) : ∀ a ∈ (leftover i address n ++ ys).head?,
      address = a.address ∧ a.address + a.size < Address.limit := by
  unfold leftover
  split
  case isTrue e =>
    subst e
    exact h
  case isFalse => simpa using hl

/-- An allocation and what was left over make up the block that it was carved out of. -/
theorem fused_leftover {offset size : ℕ} (h : offset + size ≤ b.size) (i j : Handle) :
    fused (leftover i b.address offset) ⟨b.index, b.address + offset, size, true⟩
        (leftover j address (b.size - offset - size)) =
      ⟨(firstHandle (leftover i b.address offset)).getD b.index, b.address, b.size, false⟩ := by
  have hsize : offset + size + (b.size - offset - size) = b.size := by omega
  simp only [fused, bytes_leftover, Nat.add_sub_cancel, hsize]

/-- What is in use after a block is merged with its free neighbours. -/
theorem inUse_of_fused (hx : xs = us ++ freeBelow xs) (hy : ys = freeAbove ys ++ vs)
    (hb : b.allocated = true) :
    ((xs ++ b :: ys).filter (·.allocated)).Perm
      (b :: (us ++ fused (freeBelow xs) b (freeAbove ys) :: vs).filter (·.allocated)) := by
  have hfree : ∀ l ⊆ freeBelow xs ++ freeAbove ys, l.filter (·.allocated) = [] := fun l hl =>
    List.filter_eq_nil_iff.2 fun a ha => by simp [free_of_mem_neighbours (hl ha)]
  have hbelow : xs.filter (·.allocated) = us.filter (·.allocated) :=
    (congrArg (List.filter (·.allocated)) hx).trans <| by
      rw [List.filter_append, hfree _ (List.subset_append_left _ _), List.append_nil]
  have habove : ys.filter (·.allocated) = vs.filter (·.allocated) :=
    (congrArg (List.filter (·.allocated)) hy).trans <| by
      rw [List.filter_append, hfree _ (List.subset_append_right _ _), List.nil_append]
  rw [List.filter_append, List.filter_append, List.filter_cons_of_pos hb,
    List.filter_cons_of_neg (by simp [fused]), hbelow, habove]
  exact List.perm_middle

end Blocks

namespace Table

/-- The bytes of the blocks in use. -/
def usedBytes (t : Table) : Set ℕ := bytesAt 0 (t.blocks.filter (·.allocated))

/-- The bytes of the free blocks. -/
def freeBytes (t : Table) : Set ℕ := bytesAt 0 (t.blocks.filter fun b => !b.allocated)

/-- Links and slots are in order, and the blocks cover the range with no two free neighbours. -/
structure Covers (t : Table) (start stop : ℕ) : Prop where
  holds : t.Holds t.blocks
  tiles : Tiles start t.blocks stop
  separated : Separated t.blocks

/-- The block `b`, between `xs` and `ys`, was freed. -/
structure Frees (t : Table) (xs : List Block) (b : Block) (ys : List Block) (r : Merging)
    (t' : Table) : Prop where
  /-- The free neighbours are reported with the sizes that they had, the lower one first. -/
  absorbed : r.absorbed = (freeBelow xs ++ freeAbove ys).map fun a => (a.index, a.size)
  merged : r.merged = (firstHandle (freeBelow xs)).getD b.index
  /-- One free block takes the place of `b` and its free neighbours and covers what they covered. -/
  blocks : ∃ us vs m, xs = us ++ freeBelow xs ∧ ys = freeAbove ys ++ vs ∧
    t'.blocks = us ++ m :: vs ∧ m.index = r.merged ∧ m.allocated = false ∧
    Tiles m.address (freeBelow xs ++ b :: freeAbove ys) (m.address + m.size)
  /-- The slot of `b` waits if the lower neighbour took it in, then that of the upper neighbour. -/
  retired : t'.pool =
    handles (freeAbove ys) ++ (if freeBelow xs = [] then [] else [b.index]) ++ t.pool
  used : t'.usedBytes = t.usedBytes \ Set.Ico b.address (b.address + b.size)
  free : t'.freeBytes = t.freeBytes ∪ Set.Ico b.address (b.address + b.size)

/-- After `size` bytes from `offset` on were carved out of the free block `b`, between `xs` and
`ys`, they were freed again. -/
structure Restores (t : Table) (xs : List Block) (b : Block) (ys : List Block) (offset size : ℕ)
    (c : Carving) (r : Merging) (t' : Table) : Prop where
  merged : r.merged = c.left.getD b.index
  /-- What was left over is absorbed again. -/
  absorbed : r.absorbed =
    c.left.toList.map (·, offset) ++ c.right.toList.map (·, b.size - offset - size)
  /-- The list is the same but for the slot of the free block. -/
  blocks : t'.blocks = xs ++ ⟨r.merged, b.address, b.size, false⟩ :: ys
  layout : layout t'.blocks = layout t.blocks
  retired : t'.pool = c.right.toList ++ c.left.toList.map (fun _ => b.index) ++
    t.pool.drop c.remainders.length

variable {t : Table} {start stop : ℕ} {b : Block} {xs ys : List Block}

namespace Covers

theorem freeBytes_eq (h : t.Covers start stop) :
    t.freeBytes = Set.Ico start stop \ t.usedBytes := by
  rw [freeBytes, h.tiles.bytesAt_free, Nat.zero_add, Nat.zero_add]
  rfl

/-- **Freeing a block in use.** -/
theorem frees (h : t.Covers start stop) (hl : stop < Address.limit) (hb : t.blocks = xs ++ b :: ys)
    (ha : b.allocated = true) :
    ∃ r t', (t.coalesce b.index).result = .ok (r, t') ∧ t.Frees xs b ys r t' ∧
      t'.Covers start stop := by
  have htiles := hb ▸ h.tiles
  have hsep := hb ▸ h.separated
  have hholds := hb ▸ h.holds
  obtain ⟨hx, -, hy⟩ := Tiles.middle_iff.1 htiles
  obtain ⟨us, vs, t', hus, hvs, hc, h', hp⟩ :=
    hholds.fuse hx.last_stop (hy.head_touches hl) (lt_of_le_of_lt hy.le hl)
  have hm := merged_fused htiles hus hvs
  have hblocks := h'.blocks_eq
  have h'' : t'.Covers start stop :=
    ⟨hblocks ▸ h', hblocks ▸ hm.tiles htiles, hblocks ▸ hm.separated hsep⟩
  have hin : Set.Ico b.address (b.address + b.size) ⊆ Set.Ico start stop :=
    Set.Ico_subset_Ico hx.le hy.le
  have hused : t.usedBytes = Set.Ico b.address (b.address + b.size) ∪ t'.usedBytes := by
    rw [usedBytes, hb, bytesAt_perm (inUse_of_fused hus hvs ha), bytesAt_cons, usedBytes, hblocks]
    rfl
  -- the bytes of the block are free now, so no other block in use has them
  have hnow : Set.Ico b.address (b.address + b.size) ⊆ t'.freeBytes := fun x hx => by
    have hbm := hm.covers.bounds (b := b) (by simp)
    rw [Set.mem_Ico] at hx
    refine ⟨_, List.mem_filter.2 ⟨hblocks ▸ List.mem_append_cons_self, rfl⟩, ?_⟩
    rw [Set.mem_Ico]
    omega
  have hapart : Disjoint (Set.Ico b.address (b.address + b.size)) t'.usedBytes :=
    Set.disjoint_left.2 fun x hx => (h''.freeBytes_eq ▸ hnow hx).2
  have hafter : t'.usedBytes = t.usedBytes \ Set.Ico b.address (b.address + b.size) := by
    rw [hused, Set.union_sdiff_left, hapart.symm.sdiff_eq_left]
  refine ⟨_, t', hc, ⟨?_, rfl, ⟨us, vs, _, hus, hvs, hblocks, rfl, rfl, hm.covers⟩, hp, hafter, ?_⟩,
    h''⟩
  · exact freeEntries_of_free fun a => free_of_mem_neighbours
  · rw [h''.freeBytes_eq, h.freeBytes_eq, hafter, Set.sdiff_sdiff_right,
      Set.inter_eq_self_of_subset_right hin]

/-- **Freeing what was just carved.** -/
theorem restores (h : t.Covers start stop) (hl : stop < Address.limit)
    (hb : t.blocks = xs ++ b :: ys) (hf : b.allocated = false) {offset size : ℕ}
    (hfit : offset + size ≤ b.size) :
    ∃ c t₁ r t₂, (t.carve b.index offset size).result = .ok (c, t₁) ∧
      (t₁.coalesce b.index).result = .ok (r, t₂) ∧ t.Restores xs b ys offset size c r t₂ ∧
      t₂.Covers start stop := by
  have htiles := hb ▸ h.tiles
  have hsep := hb ▸ h.separated
  have hholds := hb ▸ h.holds
  obtain ⟨hx, hpos, hy⟩ := Tiles.middle_iff.1 htiles
  obtain ⟨hxl, hyl⟩ := hsep.beside_free hf
  have hbl : b.address + b.size < Address.limit := lt_of_le_of_lt hy.le hl
  obtain ⟨t₁, k, hc, h₁, hp₁⟩ := hholds.carve_handles hf hfit hbl
  -- the list between the two calls
  set left := leftover t.fresh b.address offset with hleft
  set right := leftover k (b.address + offset + size) (b.size - offset - size) with hright
  have hlist : xs ++ carved b offset size t.fresh k ++ ys =
      (xs ++ left) ++ ⟨b.index, b.address + offset, size, true⟩ :: (right ++ ys) := by
    simp [carved, hleft, hright]
  have hend : b.address + offset + size + (b.size - offset - size) = b.address + b.size := by omega
  rw [hlist] at h₁
  obtain ⟨us, vs, t₂, hus, hvs, hc₂, h₂, hp₂⟩ := h₁.fuse (last_stop_append_leftover hx.last_stop)
    (head_touches_leftover_append (hend ▸ hy.head_touches hl) (hend ▸ hbl))
    (by dsimp only; omega)
  rw [freeBelow_append_leftover hxl] at hus hc₂ h₂ hp₂
  rw [freeAbove_leftover_append hyl] at hvs hc₂ h₂ hp₂
  obtain rfl := List.append_cancel_right hus
  obtain rfl := List.append_cancel_left hvs
  rw [fused_leftover hfit] at hc₂ h₂
  have hblocks := h₂.blocks_eq
  refine ⟨_, t₁, _, t₂, hc, hc₂, ⟨rfl, ?_, hblocks, ?_, ?_⟩, hblocks ▸ h₂, ?_, ?_⟩
  · rw [freeEntries_append, freeEntries_leftover, freeEntries_leftover]
  · rw [hblocks, hb]
    simp [layout, hf]
  · rw [hp₂, hp₁, map_firstHandle_leftover, toList_firstHandle_leftover]
    simp [Carving.remainders, toList_firstHandle_leftover, carved, handles, hleft, hright]
  · rw [hblocks]
    exact Tiles.middle_iff.2 ⟨hx, hpos, hy⟩
  · rw [hblocks]
    exact separated_free hsep.left hsep.right.tail hxl hyl

/-- **Freeing is exact, and undoes carving.** Of a table whose blocks cover a range of addresses
with no two free neighbours, any block in use can be freed, and of any free block a part can be
carved out and freed again. -/
theorem frees_and_restores (h : t.Covers start stop) (hl : stop < Address.limit) :
    (∀ xs b ys, t.blocks = xs ++ b :: ys → b.allocated = true →
      ∃ r t', (t.coalesce b.index).result = .ok (r, t') ∧ t.Frees xs b ys r t' ∧
        t'.Covers start stop) ∧
    ∀ xs b ys, t.blocks = xs ++ b :: ys → b.allocated = false →
      ∀ offset size, offset + size ≤ b.size →
        ∃ c t₁ r t₂, (t.carve b.index offset size).result = .ok (c, t₁) ∧
          (t₁.coalesce b.index).result = .ok (r, t₂) ∧ t.Restores xs b ys offset size c r t₂ ∧
          t₂.Covers start stop :=
  ⟨fun _ _ _ hb ha => h.frees hl hb ha, fun _ _ _ hb hf _ _ hfit => h.restores hl hb hf hfit⟩

end Covers

/-- After any run, links and slots are in order, so the blocks need only cover the range. -/
theorem Reached.covers {since : List Table} (h : Reached since t) (ht : Tiles start t.blocks stop)
    (hs : Separated t.blocks) : t.Covers start stop := by
  obtain ⟨bs, hb, -⟩ := h.stacked
  exact ⟨hb.holds.blocks_eq ▸ hb.holds, ht, hs⟩

/-- The middle block has two free neighbours, and the last one can be carved at both ends. -/
theorem threeBlocks_frees_and_restores :
    (∃ r t', (threeBlocks.coalesce 0).result = .ok (r, t') ∧
      threeBlocks.Frees [⟨1, 0, 16, false⟩] ⟨0, 16, 16, true⟩ [⟨2, 32, 32, false⟩] r t' ∧
      t'.Covers 0 64) ∧
    ∃ c t₁ r t₂, (threeBlocks.carve 2 4 8).result = .ok (c, t₁) ∧
      (t₁.coalesce 2).result = .ok (r, t₂) ∧
      threeBlocks.Restores [⟨1, 0, 16, false⟩, ⟨0, 16, 16, true⟩] ⟨2, 32, 32, false⟩ [] 4 8 c r t₂ ∧
      t₂.Covers 0 64 := by
  have hblocks : threeBlocks.blocks =
      [⟨1, 0, 16, false⟩, ⟨0, 16, 16, true⟩, ⟨2, 32, 32, false⟩] := rfl
  have hreached : Reached [threeBlocks, single 0 64] threeBlocks :=
    .called (c := .carve 0 16 16) (.created (by decide)) (by decide) rfl
  have hcovers : threeBlocks.Covers 0 64 :=
    hreached.covers (by simp [hblocks, Tiles]) (by simp [hblocks, Separated, Block.Apart])
  obtain ⟨hfrees, hrestores⟩ := hcovers.frees_and_restores (by decide)
  exact ⟨hfrees [_] _ [_] hblocks rfl, hrestores [_, _] _ [] hblocks rfl 4 8 (by decide)⟩

end Table

end MemoryBank
