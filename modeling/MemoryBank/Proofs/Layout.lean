import MemoryBank.Block
import Mathlib.Data.List.Chain

/-!
# Layouts

What a list of blocks says about the bytes of a bank, whatever slots hold the blocks.

* `Tiles start bs stop`: the blocks cover the range from `start` to `stop`, each beginning where
  the one before ends, and none is empty.
* `Separated bs`: no two neighbours are both free.
* `layout`, `liveRanges`, `liveEntries`, `freeEntries` and `bytes` are what can be read off a list.

The main statement is `layout_unique`: the live ranges of a separated tiling determine its free
blocks, and so all of its layout.
-/

namespace MemoryBank

/-- The blocks cover the range from `start` to `stop` in order, and none of them is empty. -/
def Tiles : Nat → List Block → Nat → Prop
  | start, [], stop => start = stop
  | start, b :: rest, stop => b.address = start ∧ 0 < b.size ∧ Tiles (start + b.size) rest stop

/-- One of two neighbours is in use. -/
def Block.Apart (b c : Block) : Prop := b.allocated = true ∨ c.allocated = true

/-- No two neighbours are both free. -/
def Separated (bs : List Block) : Prop := bs.IsChain Block.Apart

/-- Where each block lies and whether it is in use. -/
def layout (bs : List Block) : List (Nat × Nat × Bool) :=
  bs.map fun b => (b.address, b.size, b.allocated)

/-- Address and size of each block in use. -/
def liveRanges (bs : List Block) : List (Nat × Nat) :=
  (bs.filter (·.allocated)).map fun b => (b.address, b.size)

/-- Address and handle of each block in use. -/
def liveEntries (bs : List Block) : List (Nat × Handle) :=
  (bs.filter (·.allocated)).map fun b => (b.address, b.index)

/-- Handle and size of each free block. -/
def freeEntries (bs : List Block) : List (Handle × Nat) :=
  (bs.filter fun b => !b.allocated).map fun b => (b.index, b.size)

/-- The number of bytes in some blocks. -/
def bytes : List Block → Nat
  | [] => 0
  | b :: rest => b.size + bytes rest

/-! ## Reading a list off -/

section Reading

variable {b : Block} {xs ys : List Block}

theorem liveRanges_append : liveRanges (xs ++ ys) = liveRanges xs ++ liveRanges ys := by
  simp [liveRanges]

theorem liveRanges_cons_live (h : b.allocated = true) :
    liveRanges (b :: ys) = (b.address, b.size) :: liveRanges ys := by
  simp [liveRanges, h]

theorem liveRanges_cons_free (h : b.allocated = false) : liveRanges (b :: ys) = liveRanges ys := by
  simp [liveRanges, h]

theorem liveEntries_append : liveEntries (xs ++ ys) = liveEntries xs ++ liveEntries ys := by
  simp [liveEntries]

theorem liveEntries_cons_live (h : b.allocated = true) :
    liveEntries (b :: ys) = (b.address, b.index) :: liveEntries ys := by
  simp [liveEntries, h]

theorem liveEntries_cons_free (h : b.allocated = false) :
    liveEntries (b :: ys) = liveEntries ys := by
  simp [liveEntries, h]

theorem freeEntries_append : freeEntries (xs ++ ys) = freeEntries xs ++ freeEntries ys := by
  simp [freeEntries]

theorem freeEntries_cons_live (h : b.allocated = true) :
    freeEntries (b :: ys) = freeEntries ys := by
  simp [freeEntries, h]

theorem freeEntries_cons_free (h : b.allocated = false) :
    freeEntries (b :: ys) = (b.index, b.size) :: freeEntries ys := by
  simp [freeEntries, h]

theorem mem_liveRanges {r : Nat × Nat} :
    r ∈ liveRanges xs ↔ ∃ b ∈ xs, b.allocated = true ∧ b.address = r.1 ∧ b.size = r.2 := by
  simp only [liveRanges, List.mem_map, List.mem_filter, Prod.ext_iff]
  exact exists_congr fun b => by tauto

theorem mem_liveEntries {e : Nat × Handle} :
    e ∈ liveEntries xs ↔ ∃ b ∈ xs, b.allocated = true ∧ b.address = e.1 ∧ b.index = e.2 := by
  simp only [liveEntries, List.mem_map, List.mem_filter, Prod.ext_iff]
  exact exists_congr fun b => by tauto

theorem mem_freeEntries {e : Handle × Nat} :
    e ∈ freeEntries xs ↔ ∃ b ∈ xs, b.allocated = false ∧ b.index = e.1 ∧ b.size = e.2 := by
  simp only [freeEntries, List.mem_map, List.mem_filter, Prod.ext_iff, Bool.not_eq_true']
  exact exists_congr fun b => by tauto

/-- The entries of blocks, of which all are free. -/
theorem freeEntries_of_free (h : ∀ b ∈ xs, b.allocated = false) :
    freeEntries xs = xs.map fun b => (b.index, b.size) := by
  rw [freeEntries, List.filter_eq_self.2 fun b hb => by simp [h b hb]]

theorem liveEntries_of_free (h : ∀ b ∈ xs, b.allocated = false) : liveEntries xs = [] := by
  rw [liveEntries, List.filter_eq_nil_iff.2 fun b hb => by simp [h b hb], List.map_nil]

theorem bytes_append : bytes (xs ++ ys) = bytes xs + bytes ys := by
  induction xs with
  | nil => exact (Nat.zero_add _).symm
  | cons b xs ih =>
    rw [List.cons_append, bytes, bytes, ih]
    omega

/-- The bytes of some blocks are in use or free. -/
theorem bytes_eq (xs : List Block) :
    bytes xs = bytes (xs.filter (·.allocated)) + bytes (xs.filter fun b => !b.allocated) := by
  induction xs with
  | nil => rfl
  | cons b xs ih =>
    cases hb : b.allocated
    · rw [List.filter_cons_of_neg (by simp [hb]), List.filter_cons_of_pos (by simp [hb]), bytes,
        bytes]
      omega
    · rw [List.filter_cons_of_pos (by simp [hb]), List.filter_cons_of_neg (by simp [hb]), bytes,
        bytes]
      omega

theorem liveRanges_of_layout {cs : List Block} (h : layout xs = layout cs) :
    liveRanges xs = liveRanges cs := by
  have key : ∀ bs : List Block, liveRanges bs =
      ((layout bs).filter fun e => e.2.2).map fun e => (e.1, e.2.1) := fun bs => by
    simp [liveRanges, layout, List.filter_map, Function.comp_def]
  rw [key, key, h]

end Reading

/-! ## Tilings -/

section Tilings

variable {b c : Block} {start stop : Nat} {xs ys : List Block}

theorem Tiles.append_iff :
    Tiles start (xs ++ ys) stop ↔ ∃ mid, Tiles start xs mid ∧ Tiles mid ys stop := by
  induction xs generalizing start with
  | nil => simp [Tiles]
  | cons b xs ih =>
    simp only [List.cons_append, Tiles, ih]
    exact ⟨fun ⟨h, hb, mid, hx, hy⟩ => ⟨mid, ⟨h, hb, hx⟩, hy⟩,
      fun ⟨mid, ⟨h, hb, hx⟩, hy⟩ => ⟨h, hb, mid, hx, hy⟩⟩

/-- A tiling around one of its blocks. -/
theorem Tiles.middle_iff :
    Tiles start (xs ++ b :: ys) stop ↔
      Tiles start xs b.address ∧ 0 < b.size ∧ Tiles (b.address + b.size) ys stop := by
  rw [Tiles.append_iff]
  constructor
  · rintro ⟨mid, hx, rfl, hb, hy⟩
    exact ⟨hx, hb, hy⟩
  · rintro ⟨hx, hb, hy⟩
    exact ⟨b.address, hx, rfl, hb, hy⟩

theorem Tiles.le (h : Tiles start xs stop) : start ≤ stop := by
  induction xs generalizing start with
  | nil => exact h.le
  | cons b xs ih =>
    have := ih h.2.2
    omega

theorem Tiles.head_start (h : Tiles start xs stop) : ∀ a ∈ xs.head?, a.address = start := by
  cases xs with
  | nil => simp
  | cons b xs => simpa using h.1

theorem Tiles.last_stop (h : Tiles start xs stop) :
    ∀ a ∈ xs.getLast?, a.address + a.size = stop := by
  cases xs using List.reverseRecOn with
  | nil => simp
  | append_singleton xs b => simpa [Tiles] using (Tiles.middle_iff.1 h).2.2

/-- A block of a tiling lies in its range. -/
theorem Tiles.bounds (h : Tiles start xs stop) (hb : b ∈ xs) :
    start ≤ b.address ∧ 0 < b.size ∧ b.address + b.size ≤ stop := by
  obtain ⟨us, vs, rfl⟩ := List.append_of_mem hb
  obtain ⟨hu, hpos, hv⟩ := Tiles.middle_iff.1 h
  exact ⟨hu.le, hpos, hv.le⟩

/-- Each block of a tiling ends before the later ones begin. -/
theorem Tiles.pairwise (h : Tiles start xs stop) :
    xs.Pairwise fun b c => b.address + b.size ≤ c.address := by
  induction xs generalizing start with
  | nil => exact .nil
  | cons b xs ih =>
    obtain ⟨rfl, -, hx⟩ := h
    exact .cons (fun c hc => (hx.bounds hc).1) (ih hx)

/-- Blocks of a tiling are known by their addresses. -/
theorem Tiles.eq_of_address (h : Tiles start xs stop) (hb : b ∈ xs) (hc : c ∈ xs)
    (e : b.address = c.address) : b = c := by
  obtain ⟨us, vs, rfl⟩ := List.append_of_mem hb
  obtain ⟨hu, hpos, hv⟩ := Tiles.middle_iff.1 h
  rw [List.mem_append, List.mem_cons] at hc
  rcases hc with hc | rfl | hc
  · have := hu.bounds hc
    omega
  · rfl
  · have := hv.bounds hc
    omega

/-- The addresses ascend, so a walk that stops above an address has met every block up to it. -/
theorem Tiles.mem_takeWhile (h : Tiles start xs stop) (hb : b ∈ xs) {a : ℕ} (ha : b.address ≤ a) :
    b ∈ xs.takeWhile fun c => c.address ≤ a := by
  obtain ⟨us, vs, rfl⟩ := List.append_of_mem hb
  rw [List.takeWhile_append_of_pos fun c hc => ?_]
  · simp [ha]
  · have := (List.pairwise_append.1 h.pairwise).2.2 c hc b (by simp)
    simp only [decide_eq_true_eq]
    omega

/-- Two blocks of a tiling do not overlap. -/
theorem Tiles.disjoint (h : Tiles start xs stop) (hb : b ∈ xs) (hc : c ∈ xs) (hne : b ≠ c) :
    b.address + b.size ≤ c.address ∨ c.address + c.size ≤ b.address := by
  obtain ⟨us, vs, rfl⟩ := List.append_of_mem hb
  obtain ⟨hu, hpos, hv⟩ := Tiles.middle_iff.1 h
  rw [List.mem_append, List.mem_cons] at hc
  rcases hc with hc | rfl | hc
  · exact .inr (hu.bounds hc).2.2
  · exact absurd rfl hne
  · exact .inl (hv.bounds hc).1

/-- Every address of the range lies in a block. -/
theorem Tiles.exists_at (h : Tiles start xs stop) {a : ℕ} (hs : start ≤ a) (ha : a < stop) :
    ∃ k ∈ xs, k.address ≤ a ∧ a < k.address + k.size := by
  induction xs generalizing start with
  | nil =>
    obtain rfl : start = stop := h
    omega
  | cons k xs ih =>
    obtain ⟨rfl, -, hx⟩ := h
    rcases Nat.lt_or_ge a (k.address + k.size) with hk | hk
    · exact ⟨k, List.mem_cons_self, hs, hk⟩
    · obtain ⟨c, hc, hca⟩ := ih hx hk
      exact ⟨c, List.mem_cons_of_mem _ hc, hca⟩

/-- The blocks hold the bytes of the range. -/
theorem Tiles.add_bytes (h : Tiles start xs stop) : start + bytes xs = stop := by
  induction xs generalizing start with
  | nil => exact h
  | cons b xs ih =>
    have := ih h.2.2
    rw [bytes]
    omega

/-- There are no more blocks than bytes. -/
theorem Tiles.add_length_le (h : Tiles start xs stop) : start + xs.length ≤ stop := by
  induction xs generalizing start with
  | nil => exact h.le
  | cons b xs ih =>
    obtain ⟨-, hpos, hx⟩ := h
    have := ih hx
    rw [List.length_cons]
    omega

theorem Tiles.nodup_address (h : Tiles start xs stop) : (xs.map (·.address)).Nodup := by
  rw [List.Nodup, List.pairwise_map]
  refine h.pairwise.imp_of_mem fun hb hc hbc e => ?_
  have := h.bounds hb
  omega

/-- The live ranges are in the order of their addresses. -/
theorem Tiles.pairwise_liveRanges (h : Tiles start xs stop) :
    (liveRanges xs).Pairwise (·.1 < ·.1) := by
  rw [liveRanges, List.pairwise_map]
  refine List.Pairwise.imp_of_mem ?_ (h.pairwise.sublist List.filter_sublist)
  intro b c hb _ hbc
  have := h.bounds (List.mem_of_mem_filter hb)
  dsimp only
  omega

theorem Tiles.nodup_liveRanges (h : Tiles start xs stop) :
    ((liveRanges xs).map (·.1)).Nodup := by
  rw [liveRanges, List.map_map]
  exact h.nodup_address.sublist (List.filter_sublist.map _)

theorem Tiles.nodup_liveEntries (h : Tiles start xs stop) :
    ((liveEntries xs).map (·.1)).Nodup := by
  rw [liveEntries, List.map_map]
  exact h.nodup_address.sublist (List.filter_sublist.map _)

end Tilings

/-! ## Separated lists -/

section Separation

variable {b c : Block} {xs ys : List Block}

theorem separated_nil : Separated [] := .nil

/-- Around a block in use there is nothing to check. -/
theorem separated_live (hx : Separated xs) (hy : Separated ys) (hb : b.allocated = true) :
    Separated (xs ++ b :: ys) := by
  refine List.isChain_append.2 ⟨hx, List.isChain_cons.2 ⟨fun _ _ => .inl hb, hy⟩, ?_⟩
  rintro _ - c hc
  obtain rfl := Option.some.inj hc
  exact .inr hb

/-- A free block fits between blocks in use. -/
theorem separated_free (hx : Separated xs) (hy : Separated ys)
    (hl : ∀ a ∈ xs.getLast?, a.allocated = true) (hr : ∀ a ∈ ys.head?, a.allocated = true) :
    Separated (xs ++ b :: ys) := by
  refine List.isChain_append.2 ⟨hx, List.isChain_cons.2 ⟨fun a ha => .inr (hr a ha), hy⟩, ?_⟩
  rintro a ha c -
  exact .inl (hl a ha)

theorem Separated.left (h : Separated (xs ++ ys)) : Separated xs := (List.isChain_append.1 h).1

theorem Separated.right (h : Separated (xs ++ ys)) : Separated ys := (List.isChain_append.1 h).2.1

theorem Separated.tail (h : Separated (b :: ys)) : Separated ys := (List.isChain_cons.1 h).2

/-- The neighbours of a free block are in use. -/
theorem Separated.beside_free (h : Separated (xs ++ b :: ys)) (hb : b.allocated = false) :
    (∀ a ∈ xs.getLast?, a.allocated = true) ∧ ∀ a ∈ ys.head?, a.allocated = true := by
  obtain ⟨-, hy, hj⟩ := List.isChain_append.1 h
  constructor
  · intro a ha
    have := hj a ha b rfl
    simpa [Block.Apart, hb] using this
  · intro a ha
    have := (List.isChain_cons.1 hy).1 a ha
    simpa [Block.Apart, hb] using this

/-- Of the blocks at most every other one is free. -/
theorem Separated.length_le (h : Separated xs) : xs.length ≤ 2 * (liveRanges xs).length + 1 ∧
    ((∀ a ∈ xs.head?, a.allocated = true) → xs.length ≤ 2 * (liveRanges xs).length) := by
  induction xs with
  | nil => exact ⟨Nat.zero_le _, fun _ => Nat.zero_le _⟩
  | cons b xs ih =>
    obtain ⟨hlen, hlive⟩ := ih h.tail
    cases hb : b.allocated with
    | true =>
      rw [liveRanges_cons_live hb, List.length_cons, List.length_cons]
      exact ⟨by omega, fun _ => by omega⟩
    | false =>
      have hs : Separated ([] ++ b :: xs) := h
      have := hlive (hs.beside_free hb).2
      rw [liveRanges_cons_free hb, List.length_cons]
      exact ⟨by omega, fun hhead => absurd (hhead b rfl) (by simp [hb])⟩

end Separation

/-! ## The layout of a separated tiling -/

section Canonical

variable {b : Block} {start stop : Nat} {bs cs : List Block}

/-- A free block ends where the next live range begins, or else with the whole range. -/
theorem Tiles.free_stop (h : Tiles start (b :: bs) stop) (hs : Separated (b :: bs))
    (hb : b.allocated = false) :
    start + b.size = (((liveRanges bs).head?.map (·.1)).getD stop) := by
  obtain ⟨-, -, ht⟩ := h
  cases bs with
  | nil => exact ht
  | cons c bs =>
    have hc : c.allocated = true := by
      have hs' : Separated ([] ++ b :: c :: bs) := hs
      exact (hs'.beside_free hb).2 c rfl
    rw [liveRanges_cons_live hc]
    exact ht.1.symm

/-- A free block ends where a block in use begins, or else with the whole range. -/
theorem Tiles.after_free (h : Tiles start bs stop) (hs : Separated bs) (hb : b ∈ bs)
    (hf : b.allocated = false) :
    b.address + b.size = stop ∨ ∃ c ∈ bs, c.allocated = true ∧ c.address = b.address + b.size := by
  obtain ⟨us, vs, rfl⟩ := List.append_of_mem hb
  obtain ⟨-, -, hv⟩ := Tiles.middle_iff.1 h
  cases vs with
  | nil => exact .inl hv
  | cons c vs => exact .inr ⟨c, by simp, (hs.beside_free hf).2 c rfl, hv.1⟩

/-- A free block begins where a block in use ends, or else with the whole range. -/
theorem Tiles.before_free (h : Tiles start bs stop) (hs : Separated bs) (hb : b ∈ bs)
    (hf : b.allocated = false) :
    b.address = start ∨ ∃ c ∈ bs, c.allocated = true ∧ c.address + c.size = b.address := by
  obtain ⟨us, vs, rfl⟩ := List.append_of_mem hb
  obtain ⟨hu, -, -⟩ := Tiles.middle_iff.1 h
  cases hlast : us.getLast? with
  | none =>
    obtain rfl := List.getLast?_eq_none_iff.1 hlast
    exact .inl hu.symm
  | some c =>
    have hc : c ∈ us := List.mem_of_getLast? hlast
    exact .inr ⟨c, List.mem_append_left _ hc, (hs.beside_free hf).1 c hlast, hu.last_stop c hlast⟩

/-- A live range that begins a list belongs to its first block. -/
theorem Tiles.head_live (h : Tiles start bs stop) {r : Nat × Nat} {rs : List (Nat × Nat)}
    (hr : liveRanges bs = r :: rs) (e : r.1 = start) :
    ∃ b cs, bs = b :: cs ∧ b.allocated = true ∧ b.size = r.2 ∧ liveRanges cs = rs := by
  cases bs with
  | nil => simp [liveRanges] at hr
  | cons b cs =>
    obtain ⟨rfl, hpos, ht⟩ := h
    cases hb : b.allocated with
    | true =>
      rw [liveRanges_cons_live hb, List.cons.injEq] at hr
      exact ⟨b, cs, rfl, hb, by rw [← hr.1], hr.2⟩
    | false =>
      -- all live ranges lie beyond a free first block
      rw [liveRanges_cons_free hb] at hr
      obtain ⟨c, hc, -, hce, -⟩ := mem_liveRanges.1 (hr ▸ List.mem_cons_self : r ∈ liveRanges cs)
      have := ht.bounds hc
      omega

/-- **The live ranges of a separated tiling determine its layout.** -/
theorem layout_unique (hb : Tiles start bs stop) (hc : Tiles start cs stop)
    (sb : Separated bs) (sc : Separated cs) (h : liveRanges bs = liveRanges cs) :
    layout bs = layout cs := by
  induction bs generalizing start cs with
  | nil =>
    obtain rfl : start = stop := hb
    cases cs with
    | nil => rfl
    | cons c cs =>
      have := hc.2.2.le
      have := hc.2.1
      omega
  | cons b bs ih =>
    obtain ⟨rfl, hpos, ht⟩ := id hb
    cases hba : b.allocated with
    | true =>
      rw [liveRanges_cons_live hba] at h
      obtain ⟨c, cs, rfl, hca, hce, hcs⟩ := hc.head_live h.symm rfl
      obtain ⟨hce', -, hct⟩ := hc
      rw [hce] at hct
      have := ih ht hct sb.tail sc.tail hcs.symm
      simp only [layout, List.map_cons, List.cons.injEq] at this ⊢
      exact ⟨by simp [hba, hca, hce, hce'], this⟩
    | false =>
      cases cs with
      | nil =>
        have := ht.le
        obtain rfl : b.address = stop := hc
        omega
      | cons c cs =>
        have hca : c.allocated = false := by
          by_contra hca
          rw [Bool.not_eq_false] at hca
          rw [liveRanges_cons_live hca] at h
          obtain ⟨d, ds, e, hd, -⟩ := hb.head_live h hc.1
          cases e
          simp [hd] at hba
        have hbs := hb.free_stop sb hba
        have hcs := hc.free_stop sc hca
        rw [liveRanges_cons_free hba, liveRanges_cons_free hca] at h
        rw [← h] at hcs
        have hsize : b.size = c.size := by omega
        obtain ⟨hce, -, hct⟩ := hc
        rw [← hsize] at hct
        have := ih ht hct sb.tail sc.tail h
        simp only [layout, List.map_cons, List.cons.injEq] at this ⊢
        exact ⟨by simp [hba, hca, hsize, hce], this⟩

end Canonical

end MemoryBank
