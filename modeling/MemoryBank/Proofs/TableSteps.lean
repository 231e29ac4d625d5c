import MemoryBank.Proofs.Layout
import MemoryBank.Proofs.Linked
import MemoryBank.Table.Carve
import MemoryBank.Table.Front
import MemoryBank.Table.Merge
import Mathlib.Data.List.TakeWhile

/-!
# What the table's operations make of its list

Each operation of the block table is described by the list of blocks before and after it; in each
case the operation answers, and the table holds the new list.

* `Holds.carve`: a free block becomes `carved`, that is, the allocation between what is left over.
* `Holds.coalesce`: a block and its free neighbours become one free block (`Merged`). By
  `Holds.fuse` that takes no more than that the neighbours touch the block.
* `Holds.frontCut`, `Holds.truncateFront` and `Holds.pushFront` concern the lowest block.
* `Holds.findUpTo` and `Holds.findContaining`: the search finds a block that passes the test, or one
  around a range, if there is one.
-/

namespace MemoryBank

/-- The free block made of what is left over, if anything is. -/
def leftover (i : Handle) (address size : ℕ) : List Block :=
  if size = 0 then [] else [⟨i, address, size, false⟩]

/-- What a block becomes when `size` bytes from `offset` on are allocated in it. What is left over
below and above lies in the slots `i` and `k`. -/
def carved (b : Block) (offset size : ℕ) (i k : Handle) : List Block :=
  leftover i b.address offset ++ ⟨b.index, b.address + offset, size, true⟩ ::
    leftover k (b.address + offset + size) (b.size - offset - size)

theorem toList_firstHandle_leftover (i : Handle) (address size : ℕ) :
    (firstHandle (leftover i address size)).toList = handles (leftover i address size) := by
  unfold leftover
  split <;> rfl

theorem mem_leftover {i : Handle} {address size : ℕ} {c : Block} :
    c ∈ leftover i address size ↔ size ≠ 0 ∧ c = ⟨i, address, size, false⟩ := by
  unfold leftover
  split <;> simp [*]

/-- What is left of a block when `amount` bytes are cut off its front. -/
def shortened (b : Block) (amount : ℕ) : List Block :=
  if amount = b.size then [] else [⟨b.index, b.address + amount, b.size - amount, b.allocated⟩]

theorem mem_shortened {b c : Block} {amount : ℕ} :
    c ∈ shortened b amount ↔ amount ≠ b.size ∧
      c = ⟨b.index, b.address + amount, b.size - amount, b.allocated⟩ := by
  unfold shortened
  split <;> simp [*]

theorem toList_firstHandle_shortened (b : Block) (amount : ℕ) :
    (firstHandle (shortened b amount)).toList = handles (shortened b amount) := by
  unfold shortened
  split <;> rfl

/-- Where a cut of `amount` bytes off the front of a list lands. -/
def landing (amount : ℕ) : List Block → FrontCut
  | [] => .blocked 0
  | b :: ys =>
    if b.allocated = true then .blocked b.address
    else if amount ≤ b.size then .lands b.index
    else match ys with
      | n :: _ => .blocked n.address
      | [] => .blocked (b.address + b.size)

/-- The block `b` between `xs` and `ys` has become the free block `m` between `us` and `vs`. It has
absorbed its free neighbours, `ls` below and `rs` above. -/
structure Merged (xs ys us vs ls rs : List Block) (b m : Block) : Prop where
  below : xs = us ++ ls
  above : ys = rs ++ vs
  absorbed : ∀ a ∈ ls ++ rs, a.allocated = false
  free : m.allocated = false
  covers : Tiles m.address (ls ++ b :: rs) (m.address + m.size)
  handle : firstHandle (ls ++ [b]) = some m.index
  stays_below : ls = [] → ∀ a ∈ us.getLast?, a.allocated = true
  stays_above : rs = [] → ∀ a ∈ vs.head?, a.allocated = true

/-- The block directly below, if it is free. -/
def freeBelow (xs : List Block) : List Block := xs.getLast?.toList.filter fun b => !b.allocated

/-- The block directly above, if it is free. -/
def freeAbove (ys : List Block) : List Block := ys.head?.toList.filter fun b => !b.allocated

/-- The free block made of `b`, of `ls` directly below it and of `rs` directly above it. -/
def fused (ls : List Block) (b : Block) (rs : List Block) : Block :=
  ⟨(firstHandle ls).getD b.index, b.address - bytes ls, bytes ls + b.size + bytes rs, false⟩

section Neighbours

variable {b : Block} {us vs xs ys : List Block}

theorem freeBelow_concat (h : b.allocated = false) : freeBelow (us ++ [b]) = [b] := by
  simp [freeBelow, h]

theorem freeAbove_cons (h : b.allocated = false) : freeAbove (b :: vs) = [b] := by
  simp [freeAbove, h]

theorem freeBelow_eq_nil_iff : freeBelow xs = [] ↔ ∀ a ∈ xs.getLast?, a.allocated = true := by
  simp [freeBelow, List.filter_eq_nil_iff]

theorem freeAbove_eq_nil_iff : freeAbove ys = [] ↔ ∀ a ∈ ys.head?, a.allocated = true := by
  simp [freeAbove, List.filter_eq_nil_iff]

theorem free_of_mem_neighbours (h : b ∈ freeBelow xs ++ freeAbove ys) : b.allocated = false := by
  rcases List.mem_append.1 h with h | h <;> simpa using (List.mem_filter.1 h).2

/-- What follows an address in a tiling touches it. -/
theorem Tiles.head_touches {start stop : ℕ} (h : Tiles start ys stop) (hl : stop < Address.limit) :
    ∀ a ∈ ys.head?, start = a.address ∧ a.address + a.size < Address.limit := fun a ha =>
  ⟨(h.head_start a ha).symm, lt_of_le_of_lt (h.bounds (List.mem_of_mem_head? ha)).2.2 hl⟩

/-- In a tiling, a block that is fused with its free neighbours covers what they covered. -/
theorem merged_fused {start stop : ℕ} (ht : Tiles start (xs ++ b :: ys) stop)
    (hx : xs = us ++ freeBelow xs) (hy : ys = freeAbove ys ++ vs) :
    Merged xs ys us vs (freeBelow xs) (freeAbove ys) b (fused (freeBelow xs) b (freeAbove ys)) where
  below := hx
  above := hy
  absorbed a ha := free_of_mem_neighbours ha
  free := rfl
  covers := by
    obtain ⟨hb, hpos, ha⟩ := Tiles.middle_iff.1 ht
    rw [hx, Tiles.append_iff] at hb
    rw [hy, Tiles.append_iff] at ha
    obtain ⟨low, -, hlow⟩ := hb
    obtain ⟨high, hhigh, -⟩ := ha
    have hl := hlow.add_bytes
    have hh := hhigh.add_bytes
    have hlow_eq : b.address - bytes (freeBelow xs) = low := by omega
    have hhigh_eq : low + (bytes (freeBelow xs) + b.size + bytes (freeAbove ys)) = high := by omega
    rw [fused]
    dsimp only
    rw [hlow_eq, hhigh_eq]
    exact Tiles.middle_iff.2 ⟨hlow, hpos, hhigh⟩
  handle := by
    rw [firstHandle_append, fused]
    cases firstHandle (freeBelow xs) <;> rfl
  stays_below h := by
    rw [h, List.append_nil] at hx
    exact hx ▸ freeBelow_eq_nil_iff.1 h
  stays_above h := by
    rw [h, List.nil_append] at hy
    exact hy ▸ freeAbove_eq_nil_iff.1 h

end Neighbours

/-- A table of one block holds that block. -/
theorem Table.holds_single (address size : ℕ) :
    (Table.single address size).Holds (leftover 0 address size) := by
  unfold Table.single leftover
  split
  · exact ⟨rfl, trivial, .rfl⟩
  · exact ⟨rfl, ⟨rfl, trivial⟩, .rfl⟩

namespace Table.Holds

variable {t : Table} {b : Block} {xs ys bs : List Block}

/-! ## Carving -/

theorem splitFront (h : t.Holds (xs ++ b :: ys)) (amount : ℕ) (ha : amount ≤ b.size)
    (hl : b.address + b.size < Address.limit) :
    ∃ t', t.splitFront b.index amount =
        .ok (firstHandle (leftover t.fresh b.address amount), t') ∧
      t'.Holds (xs ++ leftover t.fresh b.address amount ++
        ⟨b.index, b.address + amount, b.size - amount, b.allocated⟩ :: ys) ∧
      t'.pool = t.pool.drop (leftover t.fresh b.address amount).length := by
  unfold Table.splitFront leftover
  split
  case isTrue e =>
    subst e
    exact ⟨t, rfl, by simpa using h, rfl⟩
  case isFalse =>
    obtain ⟨t₁, ht₁, h₁, hp₁⟩ := h.linkBefore b.address amount false
    rw [List.append_cons] at h₁
    obtain ⟨t₂, ht₂, h₂, hp₂⟩ := h₁.update (f := fun s => { s with address := b.address + amount })
      (c := { b with address := b.address + amount }) rfl fun _ _ => rfl
    obtain ⟨t₃, ht₃, h₃, hp₃⟩ := h₂.update (f := fun s => { s with size := b.size - amount })
      (c := ⟨b.index, b.address + amount, b.size - amount, b.allocated⟩) rfl fun _ _ => rfl
    have hs := h₂.size List.mem_append_cons_self
    dsimp only at hs ht₃
    refine ⟨t₃, ?_, h₃, by rw [hp₃, hp₂, hp₁, ← List.drop_one]; rfl⟩
    simp only [h.address List.mem_append_cons_self, ht₁, h₁.address List.mem_append_cons_self,
      Address.add_of_lt (show b.address + amount < _ by omega), ht₂, hs, Address.sub_of_le ha, ht₃,
      ok_bind]
    rfl

theorem splitBack (h : t.Holds (xs ++ b :: ys)) (size : ℕ) (ha : size ≤ b.size)
    (hl : b.address + b.size < Address.limit) :
    ∃ t', t.splitBack b.index size =
        .ok (firstHandle (leftover t.fresh (b.address + size) (b.size - size)), t') ∧
      t'.Holds (xs ++ ⟨b.index, b.address, size, b.allocated⟩ ::
        (leftover t.fresh (b.address + size) (b.size - size) ++ ys)) ∧
      t'.pool = t.pool.drop (leftover t.fresh (b.address + size) (b.size - size)).length := by
  have hs := h.size List.mem_append_cons_self
  unfold Table.splitBack leftover
  rw [hs, ok_bind, Address.sub_of_le ha, ok_bind]
  split
  case isTrue e =>
    obtain rfl : size = b.size := by omega
    exact ⟨t, rfl, by simpa using h, rfl⟩
  case isFalse =>
    obtain ⟨t₁, ht₁, h₁, hp₁⟩ := h.linkAfter (b.address + size) (b.size - size) false
    obtain ⟨t₂, ht₂, h₂, hp₂⟩ := h₁.update (f := fun s => { s with size := size })
      (c := ⟨b.index, b.address, size, b.allocated⟩) rfl fun _ _ => rfl
    refine ⟨t₂, ?_, h₂, by rw [hp₂, hp₁, ← List.drop_one]; rfl⟩
    simp only [h.address List.mem_append_cons_self, ht₁, ht₂, ok_bind,
      Address.add_of_lt (show b.address + size < _ by omega)]
    rfl

/-- **Carving.** The block becomes the allocation, between the free blocks that are left over. These
take their slots from the pool, as far as it has any. -/
theorem carve_handles (h : t.Holds (xs ++ b :: ys)) {offset size : ℕ} (hf : b.allocated = false)
    (ha : offset + size ≤ b.size) (hl : b.address + b.size < Address.limit) :
    ∃ t' k, (t.carve b.index offset size).result =
        .ok (⟨firstHandle (leftover t.fresh b.address offset),
          firstHandle (leftover k (b.address + offset + size) (b.size - offset - size))⟩, t') ∧
      t'.Holds (xs ++ carved b offset size t.fresh k ++ ys) ∧
      t'.pool = t.pool.drop ((carved b offset size t.fresh k).length - 1) := by
  obtain ⟨t₁, ht₁, h₁, hp₁⟩ := h.splitFront offset (by omega) hl
  obtain ⟨t₂, ht₂, h₂, hp₂⟩ := h₁.splitBack size (by dsimp only; omega) (by dsimp only; omega)
  obtain ⟨t₃, ht₃, h₃, hp₃⟩ := h₂.update (f := fun s => { s with allocated := true })
    (c := ⟨b.index, b.address + offset, size, true⟩) rfl fun _ _ => rfl
  dsimp only at ht₂ ht₃ h₃
  have h₄ := h₃.address List.mem_append_cons_self
  dsimp only at h₄
  refine ⟨t₃, t₁.fresh, ?_, by simpa [carved] using h₃, ?_⟩
  · unfold Table.carve
    simp only [Traced.result_bind, Traced.result_lift, h.slot, Block.slot, ok_bind,
      Address.add_of_lt (show offset + size < _ by omega), ensure_of ha, ensure_of hf, ht₁, ht₂,
      Table.setAllocated, ht₃, h₄, Traced.result_note, Traced.result_pure]
  · rw [hp₃, hp₂, hp₁, List.drop_drop]
    simp [carved]

/-- What is left over is reported, the lower block first. -/
theorem carve (h : t.Holds (xs ++ b :: ys)) {offset size : ℕ} (hf : b.allocated = false)
    (ha : offset + size ≤ b.size) (hl : b.address + b.size < Address.limit) :
    ∃ c t' k, (t.carve b.index offset size).result = .ok (c, t') ∧
      c.remainders = handles (leftover t.fresh b.address offset) ++
        handles (leftover k (b.address + offset + size) (b.size - offset - size)) ∧
      t'.Holds (xs ++ carved b offset size t.fresh k ++ ys) ∧
      t'.pool = t.pool.drop ((carved b offset size t.fresh k).length - 1) := by
  obtain ⟨t', k, hc, h', hp⟩ := h.carve_handles hf ha hl
  refine ⟨_, t', k, hc, ?_, h', hp⟩
  rw [Carving.remainders, toList_firstHandle_leftover, toList_firstHandle_leftover]

/-! ## Merging -/

/-- Let a block absorb the next one. -/
theorem mergeNext {n : Block} (h : t.Holds (xs ++ b :: n :: ys))
    (ha : b.address + b.size = n.address) (hl : n.address + n.size < Address.limit) :
    ∃ t', (t.mergeNext b.index).result = .ok (n.index, t') ∧
      t'.Holds (xs ++ ⟨b.index, b.address, b.size + n.size, b.allocated⟩ :: ys) ∧
      t'.pool = n.index :: t.pool := by
  have hb : b ∈ xs ++ b :: n :: ys := List.mem_append_cons_self
  have hn : n ∈ xs ++ b :: n :: ys := by simp
  obtain ⟨t₁, ht₁, h₁, hp₁⟩ := h.update (f := fun s => { s with size := b.size + n.size })
    (c := ⟨b.index, b.address, b.size + n.size, b.allocated⟩) rfl fun _ _ => rfl
  rw [List.append_cons] at h₁
  obtain ⟨t₂, ht₂, h₂, hp₂⟩ := h₁.retire
  rw [List.append_assoc, List.singleton_append] at h₂
  have hs₂ := h₂.size List.mem_append_cons_self
  have ha₂ := h₂.address List.mem_append_cons_self
  dsimp only at hs₂ ha₂
  refine ⟨t₂, ?_, h₂, by rw [hp₂, hp₁]⟩
  have hf : t.follower b.index = .ok n.index := by
    rw [Table.follower, h.next]
    rfl
  have hstop : t.stop b.index = .ok n.address := by
    rw [Table.stop, h.block hb, ok_bind, Block.stop, Address.add_of_lt (by omega), ha]
  unfold Table.mergeNext
  simp only [Traced.result_bind, Traced.result_lift, hf, hstop, h.address hn, h.size hb, h.size hn,
    ensure_of, Address.add_of_lt (show b.size + n.size < _ by omega), ht₁, ht₂, hs₂, ha₂, ok_bind,
    Traced.result_note, Traced.result_pure]

theorem freeNeighbour_none : t.freeNeighbour none = .ok none := rfl

/-- A neighbour counts if it is free. -/
theorem freeNeighbour (h : t.Holds bs) (hb : b ∈ bs) :
    t.freeNeighbour (some b.index) =
      .ok (if b.allocated = true then none else some (b.index, b.size)) := by
  simp only [Table.freeNeighbour, h.isAllocated hb, h.size hb, ok_bind]
  split <;> rfl

/-- Merge a block into the one before it, if that is free. -/
theorem mergeDown (h : t.Holds (xs ++ b :: ys))
    (ha : ∀ a ∈ xs.getLast?, a.address + a.size = b.address)
    (hl : b.address + b.size < Address.limit) :
    (∃ us p t', xs = us ++ [p] ∧ p.allocated = false ∧
      (t.mergeDown b.index).result = .ok (⟨p.index, [(p.index, p.size)]⟩, t') ∧
      t'.Holds (us ++ ⟨p.index, p.address, p.size + b.size, p.allocated⟩ :: ys) ∧
      t'.pool = b.index :: t.pool) ∨
    ((∀ a ∈ xs.getLast?, a.allocated = true) ∧
      (t.mergeDown b.index).result = .ok (⟨b.index, []⟩, t)) := by
  unfold Table.mergeDown
  simp only [Traced.result_bind, Traced.result_lift, h.prev, ok_bind]
  cases xs using List.reverseRecOn with
  | nil => exact .inr ⟨by simp, by simp [freeNeighbour_none]⟩
  | append_singleton us p =>
    rw [lastHandle_concat, h.freeNeighbour (b := p) (by simp)]
    cases hp : p.allocated with
    | true => exact .inr ⟨by simpa using hp, by simp⟩
    | false =>
      rw [List.append_assoc, List.singleton_append] at h
      obtain ⟨t', ht', h', hp'⟩ := h.mergeNext (ha p (by simp)) hl
      exact .inl ⟨us, p, t', rfl, hp, by simp [ht'], hp ▸ h', hp'⟩

/-- Let a block absorb the one after it, if that is free. -/
theorem mergeUp (h : t.Holds (xs ++ b :: ys))
    (ha : ∀ a ∈ ys.head?, b.address + b.size = a.address ∧ a.address + a.size < Address.limit) :
    (∃ n vs t', ys = n :: vs ∧ n.allocated = false ∧
      (t.mergeUp b.index).result = .ok ([(n.index, n.size)], t') ∧
      t'.Holds (xs ++ ⟨b.index, b.address, b.size + n.size, b.allocated⟩ :: vs) ∧
      t'.pool = n.index :: t.pool) ∨
    ((∀ a ∈ ys.head?, a.allocated = true) ∧ (t.mergeUp b.index).result = .ok ([], t)) := by
  unfold Table.mergeUp
  simp only [Traced.result_bind, Traced.result_lift, h.next, ok_bind]
  cases ys with
  | nil => exact .inr ⟨by simp, by simp [freeNeighbour_none]⟩
  | cons n vs =>
    rw [firstHandle_cons, h.freeNeighbour (b := n) (by simp)]
    cases hn : n.allocated with
    | true => exact .inr ⟨by simpa using hn, by simp⟩
    | false =>
      obtain ⟨hbn, hl⟩ := ha n rfl
      obtain ⟨t', ht', h', hp'⟩ := h.mergeNext hbn hl
      exact .inl ⟨n, vs, t', rfl, hn, by simp [ht'], h', hp'⟩

/-- **Freeing a block** makes one free block of it and its free neighbours. -/
theorem fuse (h : t.Holds (xs ++ b :: ys)) (hx : ∀ a ∈ xs.getLast?, a.address + a.size = b.address)
    (hy : ∀ a ∈ ys.head?, b.address + b.size = a.address ∧ a.address + a.size < Address.limit)
    (hl : b.address + b.size < Address.limit) :
    ∃ us vs t', xs = us ++ freeBelow xs ∧ ys = freeAbove ys ++ vs ∧
      (t.coalesce b.index).result = .ok (⟨(fused (freeBelow xs) b (freeAbove ys)).index,
        freeEntries (freeBelow xs ++ freeAbove ys)⟩, t') ∧
      t'.Holds (us ++ fused (freeBelow xs) b (freeAbove ys) :: vs) ∧
      t'.pool = handles (freeAbove ys) ++ (if freeBelow xs = [] then [] else [b.index]) ++
        t.pool := by
  obtain ⟨t₀, ht₀, h₀, hp₀⟩ := h.update (f := fun s => { s with allocated := false })
    (c := ⟨b.index, b.address, b.size, false⟩) rfl fun _ _ => rfl
  unfold Table.coalesce
  simp only [Traced.result_bind, Traced.result_lift, Table.setAllocated, ht₀, ok_bind,
    Traced.result_pure]
  rcases h₀.mergeDown hx hl with ⟨us, p, t₁, rfl, hpf, ht₁, h₁, hp₁⟩ | ⟨hxl, ht₁⟩
  · have hpb : p.address + p.size = b.address := hx p (by simp)
    have hfirst : b.address - p.size = p.address := by omega
    rw [freeBelow_concat hpf]
    rcases h₁.mergeUp (by simpa only [← hpb, Nat.add_assoc] using hy) with
      ⟨n, vs, t₂, rfl, hnf, ht₂, h₂, hp₂⟩ | ⟨hyl, ht₂⟩
    · rw [freeAbove_cons hnf]
      refine ⟨us, vs, t₂, rfl, rfl, ?_, ?_, ?_⟩
      · simp [ht₁, ht₂, fused, freeEntries, hpf, hnf]
      · simpa [fused, bytes, hfirst, hpf] using h₂
      · rw [hp₂, hp₁, hp₀]
        rfl
    · rw [freeAbove_eq_nil_iff.2 hyl]
      refine ⟨us, ys, t₁, rfl, rfl, ?_, ?_, ?_⟩
      · simp [ht₁, ht₂, fused, freeEntries, hpf]
      · simpa [fused, bytes, hfirst, hpf] using h₁
      · rw [hp₁, hp₀]
        rfl
  · rw [freeBelow_eq_nil_iff.2 hxl]
    rcases h₀.mergeUp hy with ⟨n, vs, t₂, rfl, hnf, ht₂, h₂, hp₂⟩ | ⟨hyl, ht₂⟩
    · rw [freeAbove_cons hnf]
      refine ⟨xs, vs, t₂, by simp, rfl, ?_, ?_, ?_⟩
      · simp [ht₁, ht₂, fused, freeEntries, hnf]
      · simpa [fused, bytes] using h₂
      · rw [hp₂, hp₀]
        rfl
    · rw [freeAbove_eq_nil_iff.2 hyl]
      refine ⟨xs, ys, t₀, by simp, rfl, ?_, ?_, ?_⟩
      · simp [ht₁, ht₂, fused, freeEntries]
      · simpa [fused, bytes] using h₀
      · rw [hp₀]
        rfl

/-- In a tiling the block covers what its parts covered. -/
theorem coalesce {start stop : ℕ} (h : t.Holds (xs ++ b :: ys))
    (ht : Tiles start (xs ++ b :: ys) stop) (hl : stop < Address.limit) :
    ∃ us vs ls rs m t', (t.coalesce b.index).result = .ok (⟨m.index, freeEntries (ls ++ rs)⟩, t') ∧
      t'.Holds (us ++ m :: vs) ∧ Merged xs ys us vs ls rs b m ∧
      t'.pool = handles rs ++ (if ls = [] then [] else [b.index]) ++ t.pool := by
  obtain ⟨hx, -, hy⟩ := Tiles.middle_iff.1 ht
  obtain ⟨us, vs, t', hus, hvs, hc, h', hp⟩ :=
    h.fuse hx.last_stop (hy.head_touches hl) (lt_of_le_of_lt hy.le hl)
  exact ⟨us, vs, _, _, _, t', hc, h', merged_fused ht hus hvs, hp⟩

/-! ## The lowest block -/

/-- Where a cut lands, read off the list. -/
theorem frontCut (h : t.Holds bs) (amount : ℕ)
    (hl : ∀ a ∈ bs, a.address + a.size < Address.limit) :
    t.frontCut amount = .ok (landing amount bs) := by
  unfold Table.frontCut landing
  rw [h.head]
  cases bs with
  | nil => rfl
  | cons b ys =>
    have h' : t.Holds ([] ++ b :: ys) := h
    simp only [firstHandle_cons, h'.slot, ok_bind, Block.slot]
    split
    · rfl
    split
    · rfl
    cases ys with
    | nil =>
      have hstop : t.stop b.index = .ok (b.address + b.size) := by
        rw [Table.stop, h.block (by simp), ok_bind, Block.stop, Address.add_of_lt (hl b (by simp))]
      simp only [firstHandle_nil, hstop, ok_bind]
      rfl
    | cons n ys =>
      simp only [firstHandle_cons, h.address (b := n) (by simp), ok_bind]
      rfl

/-- Cutting bytes off the front of a block. A block that is used up leaves the list. -/
theorem truncateFront (h : t.Holds (xs ++ b :: ys)) {amount : ℕ} (ha : amount ≤ b.size)
    (hl : b.address + b.size < Address.limit) :
    ∃ t', t.truncateFront b.index amount =
        .ok (firstHandle (shortened b amount), t') ∧ t'.Holds (xs ++ shortened b amount ++ ys) ∧
      t'.pool = (if amount = b.size then [b.index] else []) ++ t.pool := by
  have hs := h.size List.mem_append_cons_self
  unfold Table.truncateFront shortened
  simp only [hs, ok_bind, ensure_of ha]
  split
  · obtain ⟨t', ht', h', hp'⟩ := h.retire
    refine ⟨t', ?_, by simpa using h', hp'⟩
    rw [ht']
    rfl
  · obtain ⟨t', ht', h', hp'⟩ := h.update
      (f := fun s => { s with address := b.address + amount, size := s.size - amount })
      (c := ⟨b.index, b.address + amount, b.size - amount, b.allocated⟩) rfl fun _ _ => rfl
    refine ⟨t', ?_, by simpa using h', hp'⟩
    simp only [h.address List.mem_append_cons_self, ok_bind,
      Address.add_of_lt (show b.address + amount < _ by omega), ht']
    rfl

/-- A new block below all others. -/
theorem pushFront (h : t.Holds bs) {address size : ℕ} (allocated : Bool)
    (ha : ∀ b ∈ bs.head?, address + size ≤ b.address) (hl : address + size < Address.limit) :
    ∃ t', t.pushFront address size allocated = .ok (t.fresh, t') ∧
      t'.Holds (⟨t.fresh, address, size, allocated⟩ :: bs) ∧ t'.pool = t.pool.tail := by
  unfold Table.pushFront
  rw [h.head]
  cases bs with
  | nil =>
    obtain ⟨t', ht', hs, -, htail, -, hp⟩ :=
      store_spec h.slots ⟨address, size, none, none, allocated⟩
    refine ⟨{ t' with head := some t.fresh }, ?_, ⟨rfl, ⟨hs, trivial⟩, hp⟩, htail⟩
    simp only [firstHandle_nil, ht', ok_bind]
    rfl
  | cons b bs =>
    have h' : t.Holds ([] ++ b :: bs) := h
    obtain ⟨t', ht', hs, hp⟩ := h'.linkBefore address size allocated
    refine ⟨t', ?_, hs, hp⟩
    simp only [firstHandle_cons, h.address (b := b) (by simp), ok_bind, Address.add_of_lt hl,
      ensure_of (ha b rfl), ht']

/-! ## The search for a range -/

theorem findM?_eq_find? {α : Type} {l : List α} {f : α → Except Failure Bool} {p : α → Bool}
    (h : ∀ a ∈ l, f a = .ok (p a)) : l.findM? f = .ok (l.find? p) := by
  induction l with
  | nil => rfl
  | cons a l ih =>
    rw [List.findM?, h a (by simp), ok_bind]
    cases hp : p a
    · rw [List.find?_cons_of_neg (by simp [hp])]
      exact ih fun c hc => h c (by simp [hc])
    · rw [List.find?_cons_of_pos hp]
      rfl

/-- **The search up to an address** finds a block that passes the test, if one starts that low. -/
theorem findUpTo {start stop : ℕ} (h : t.Holds bs) (ht : Tiles start bs stop)
    {f : Block → Except Failure Bool} {p : Block → Bool} (hp : ∀ b ∈ bs, f b = .ok (p b))
    (address : ℕ) :
    (∃ b ∈ bs, b.address ≤ address ∧ p b = true ∧ t.findUpTo address f = .ok (some b)) ∨
    ((∀ b ∈ bs, b.address ≤ address → p b = false) ∧ t.findUpTo address f = .ok none) := by
  unfold Table.findUpTo
  rw [h.blocks_eq, findM?_eq_find? fun b hb => hp b (List.takeWhile_subset _ hb), ok_bind]
  cases hf : (bs.takeWhile fun b => b.address ≤ address).find? p with
  | some b =>
    have hb := List.mem_of_find?_eq_some hf
    have hle := List.mem_takeWhile_imp hb
    exact .inl ⟨b, List.takeWhile_subset _ hb, by simpa using hle, List.find?_some hf, rfl⟩
  | none =>
    refine .inr ⟨fun b hb hle => ?_, ?_⟩
    · simpa using List.find?_eq_none.1 hf b (ht.mem_takeWhile hb hle)
    · simp only [h.exhaust_eq, ok_bind]
      split <;> rfl

/-- **The search for a range** finds the block that contains it, if one does. -/
theorem findContaining {start stop : ℕ} (h : t.Holds bs) (ht : Tiles start bs stop)
    (hl : stop < Address.limit) (address size : ℕ) :
    (∃ b ∈ bs, b.address ≤ address ∧ address + size ≤ b.address + b.size ∧
      t.findContaining address size = .ok (some b)) ∨
    ((∀ b ∈ bs, b.address ≤ address → b.address + b.size < address + size) ∧
      t.findContaining address size = .ok none) := by
  have hbl : ∀ b ∈ bs, b.address + b.size < Address.limit := fun b hb =>
    lt_of_le_of_lt (ht.bounds hb).2.2 hl
  unfold Table.findContaining
  cases hs : Address.add? address size with
  | none =>
    refine .inr ⟨fun b hb _ => ?_, rfl⟩
    have := hbl b hb
    unfold Address.add? at hs
    split at hs
    · cases hs
    · omega
  | some last =>
    obtain ⟨rfl, -⟩ := Address.add?_eq_some_iff.1 hs
    have htest : ∀ b ∈ bs, (return decide (address + size ≤ (← b.stop)) : Except Failure Bool) =
        .ok (decide (address + size ≤ b.address + b.size)) := fun b hb => by
      rw [Block.stop, Address.add_of_lt (hbl b hb)]
      rfl
    rcases h.findUpTo ht htest address with ⟨b, hb, hle, hfit, hfound⟩ | ⟨hno, hnone⟩
    · exact .inl ⟨b, hb, hle, of_decide_eq_true hfit, hfound⟩
    · exact .inr ⟨fun b hb hle => by simpa using hno b hb hle, hnone⟩

end Table.Holds

end MemoryBank
