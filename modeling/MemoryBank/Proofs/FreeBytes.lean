import MemoryBank.Proofs.BankSteps
import Mathlib.Order.Interval.Set.Basic

/-!
# Bytes in use and free bytes

Which bytes of a bank are free, byte for byte, and what a step makes of them. All addresses are the
callers'.

* `Tiles.bytesAt_free`: every byte of a tiling is free or in use, and not both. So are the bytes of
  a bank that can be used (`Bank.Holds.freeBytes_eq`).
* `Bank.Takes`: some bytes, all of them free before, become one block in use. `Bank.Step.takes` says
  that memory is placed so.
* `Bank.GivesUp`: the lowest bytes, all of them free before, are cut off. `Bank.Step.givesUp` says
  that a cut is made so.
-/

namespace MemoryBank

/-- The bytes of some blocks, for the callers of a bank that starts at `offset`. -/
def bytesAt (offset : ℕ) (bs : List Block) : Set ℕ :=
  {x | ∃ k ∈ bs, x ∈ Set.Ico (k.address + offset) (k.address + k.size + offset)}

section Bytes

variable {offset : ℕ} {k : Block} {bs cs : List Block}

theorem bytesAt_cons : bytesAt offset (k :: bs) =
    Set.Ico (k.address + offset) (k.address + k.size + offset) ∪ bytesAt offset bs := by
  ext x
  simp [bytesAt]

theorem bytesAt_perm (h : bs.Perm cs) : bytesAt offset bs = bytesAt offset cs := by
  ext x
  simp only [bytesAt, h.mem_iff]

/-- **Every byte of a tiling is free or in use**, and not both. -/
theorem Tiles.bytesAt_free {start stop : ℕ} (h : Tiles start bs stop) (offset : ℕ) :
    bytesAt offset (bs.filter fun k => !k.allocated) =
      Set.Ico (offset + start) (offset + stop) \ bytesAt offset (bs.filter (·.allocated)) := by
  ext x
  simp only [bytesAt, Set.mem_sdiff, Set.mem_Ico, Set.mem_ofPred_eq, List.mem_filter,
    Bool.not_eq_true', and_assoc, not_exists, not_and]
  constructor
  · rintro ⟨k, hk, hf, hlow, hhigh⟩
    have hb := h.bounds hk
    refine ⟨by omega, by omega, fun c hc hl hcx => ?_⟩
    have hne : c ≠ k := fun e => by simp [e, hf] at hl
    have := h.disjoint hc hk hne
    omega
  · rintro ⟨hxlow, hxhigh, hfree⟩
    obtain ⟨k, hk, hlow, hhigh⟩ := h.exists_at (a := x - offset) (by omega) (by omega)
    refine ⟨k, hk, ?_, by omega, by omega⟩
    by_contra hl
    exact hfree k hk (by simpa using hl) (by omega) (by omega)

end Bytes

namespace Bank

variable {b b' : Bank} {bs xs ys : List Block} {k : Block} {n inset amount : ℕ}

/-- The blocks in use. -/
def inUse (b : Bank) : List Block := b.table.blocks.filter (·.allocated)

/-- Their bytes. -/
def usedBytes (b : Bank) : Set ℕ := bytesAt b.geometry.offset b.inUse

/-- The bytes of the other blocks. -/
def freeBytes (b : Bank) : Set ℕ :=
  bytesAt b.geometry.offset (b.table.blocks.filter fun k => !k.allocated)

namespace Holds

theorem inUse_eq (h : b.Holds bs) : b.inUse = bs.filter (·.allocated) := by
  rw [inUse, h.table.blocks_eq]

theorem mem_freeBytes (h : b.Holds bs) {x : ℕ} : x ∈ b.freeBytes ↔ ∃ k ∈ bs,
    k.allocated = false ∧ k.address + b.geometry.offset ≤ x ∧
      x < k.address + k.size + b.geometry.offset := by
  simp only [freeBytes, bytesAt, h.table.blocks_eq, Set.mem_ofPred_eq, List.mem_filter,
    Bool.not_eq_true', Set.mem_Ico, and_assoc]

/-- **What can be used is free or in use**, and not both. -/
theorem freeBytes_eq (h : b.Holds bs) :
    b.freeBytes = Set.Ico b.view.start b.view.stop \ b.usedBytes := by
  have hstart : b.view.start = b.geometry.offset + b.shrunk := rfl
  have hstop : b.view.stop = b.geometry.offset + (b.shrunk + b.usable) := by
    rw [h.account]
    rfl
  rw [freeBytes, usedBytes, inUse, h.table.blocks_eq, h.tiles.bytesAt_free, hstart, hstop]

end Holds

/-- The bytes from `address` on, which were free, are one block in use more. The blocks that were in
use are the same. -/
structure Takes (b : Bank) (address n : ℕ) (b' : Bank) : Prop where
  block : ∃ k, k.address + b.geometry.offset = address ∧ k.size = n ∧ k.allocated = true ∧
    b'.inUse.Perm (k :: b.inUse)
  wereFree : Set.Ico address (address + n) ⊆ b.freeBytes
  used : b'.usedBytes = Set.Ico address (address + n) ∪ b.usedBytes
  free : b'.freeBytes = b.freeBytes \ Set.Ico address (address + n)

/-- The lowest bytes, which were free, can no longer be used. The blocks in use are the same. -/
structure GivesUp (b : Bank) (amount : ℕ) (b' : Bank) : Prop where
  usable : b'.usable + amount = b.usable
  shrunk : b'.shrunk = b.shrunk + amount
  inUse : b'.inUse = b.inUse
  wereFree : Set.Ico b.view.start (b.view.start + amount) ⊆ b.freeBytes
  free : b'.freeBytes = b.freeBytes \ Set.Ico b.view.start (b.view.start + amount)

/-- **Allocating a part of a free block** takes its bytes. -/
theorem Holds.takes (h : b.Holds (xs ++ k :: ys)) (hf : k.allocated = false) (hn : 0 < n)
    (ha : inset + n ≤ k.size) {c : Carving} {t : Table}
    (hc : (b.table.carve k.index inset n).result = .ok (c, t)) :
    b.Takes (k.address + inset + b.geometry.offset) n { b with table := t } := by
  obtain ⟨c, t, j, hc', -, hb, -⟩ := h.carve hf hn ha
  obtain ⟨rfl, rfl⟩ := ok_pair_unique hc' hc
  have hfree : ∀ i a m, (leftover i a m).filter (·.allocated) = [] := fun i a m =>
    List.filter_eq_nil_iff.2 fun d hd => by simp [(mem_leftover.1 hd).2]
  have hperm : (inUse { b with table := t }).Perm
      (⟨k.index, k.address + inset, n, true⟩ :: b.inUse) := by
    rw [hb.inUse_eq, h.inUse_eq, carved]
    simp only [List.filter_append, List.filter_cons, hfree, hf]
    simp
  have hused : usedBytes { b with table := t } =
      Set.Ico (k.address + inset + b.geometry.offset)
        (k.address + inset + b.geometry.offset + n) ∪ b.usedBytes := by
    rw [usedBytes, bytesAt_perm hperm, bytesAt_cons]
    dsimp only
    rw [Nat.add_right_comm (k.address + inset)]
    rfl
  refine ⟨⟨_, rfl, rfl, rfl, hperm⟩, fun x hx => ?_, hused, ?_⟩
  · rw [Set.mem_Ico] at hx
    exact h.mem_freeBytes.2 ⟨k, by simp, hf, by omega, by omega⟩
  · rw [hb.freeBytes_eq, h.freeBytes_eq, hused, Set.sdiff_sdiff, Set.union_comm b.usedBytes]
    rfl

/-- **Cutting bytes off** a free lowest block gives them up. -/
theorem Holds.givesUp (h : b.Holds (k :: ys)) (hf : k.allocated = false) (hle : amount ≤ k.size)
    {o : Option Handle} {t : Table} (hc : b.table.truncateFront k.index amount = .ok (o, t))
    (hh : holdBack { b with table := t } amount = .ok b') : b.GivesUp amount b' := by
  obtain ⟨t, b', hc', hh', hb, -, hv⟩ := h.cut hf hle
  obtain ⟨rfl, rfl⟩ := ok_pair_unique hc' hc
  obtain rfl := Except.ok.inj (hh'.symm.trans hh)
  have hgeo : b'.geometry = b.geometry := congrArg View.geometry hv
  have hshrunk : b'.shrunk = b.shrunk + amount := congrArg View.shrunk hv
  have hacc := h.account
  have hacc' := hb.account
  rw [hgeo] at hacc'
  have hin : b'.inUse = b.inUse := by
    have hshort : (shortened k amount).filter (·.allocated) = [] :=
      List.filter_eq_nil_iff.2 fun d hd => by simp [(mem_shortened.1 hd).2, hf]
    rw [hb.inUse_eq, h.inUse_eq, List.filter_append, hshort, List.filter_cons_of_neg (by simp [hf]),
      List.nil_append]
  have hstart : b.view.start = b.geometry.offset + b.shrunk := rfl
  have hrange : Set.Ico b'.view.start b'.view.stop =
      Set.Ico b.view.start b.view.stop \ Set.Ico b.view.start (b.view.start + amount) := by
    have hstart' : b'.view.start = b.geometry.offset + (b.shrunk + amount) := by
      rw [View.start, hv]
      rfl
    have hstop : b'.view.stop = b.view.stop := by
      rw [View.stop, hv]
      rfl
    ext x
    simp only [Set.mem_sdiff, Set.mem_Ico]
    omega
  refine ⟨by omega, hshrunk, hin, fun x hx => ?_, ?_⟩
  · rw [Set.mem_Ico] at hx
    have hk : k.address = b.shrunk := h.tiles.1
    exact h.mem_freeBytes.2 ⟨k, List.mem_cons_self, hf, by omega, by omega⟩
  · rw [hb.freeBytes_eq, h.freeBytes_eq, usedBytes, usedBytes, hin, hgeo, hrange]
    exact Set.sdiff_sdiff_comm

/-- **Memory is placed** in bytes that were free. -/
theorem Step.takes {size address : ℕ} {p : Placement}
    (hs : b.Step (.allocate size p) (.ok (.placed address)) b')
    (hg : b.view.grant size = .ok (some n)) : b.Takes address n b' := by
  cases hs with
  | refused hr => exact absurd hr not_refused_placed
  | placed h hf hg' hn hc =>
    obtain rfl := Option.some.inj (Except.ok.inj (hg'.symm.trans hg))
    exact h.takes hf (h.grant_bounds hg).1 (Block.inset_add_le hn _) hc

/-- **A cut** gives up bytes that were free. -/
theorem Step.givesUp {d : Direction} (ha : 0 < amount)
    (hs : b.Step (.shrink amount d) (.ok .done) b') : b.GivesUp amount b' := by
  cases hs with
  | refused hr => exact absurd hr not_refused_done
  | uncut => omega
  | cut hpos h hf hle hc hh => exact h.givesUp hf hle hc hh

end Bank

end MemoryBank
