import MemoryBank.Proofs.Walks
import MemoryBank.Table.Links

/-!
# Linked blocks

What it means for the slots of a table to hold a given list of blocks, and what linking and
unlinking make of that list.

* `Segment slots prev bs next`: the slots of `bs` are linked in a row, `prev` before the first and
  `next` after the last.
* `Table.Holds t bs`: the table's list is `bs`, its links lead from block to block in both
  directions, and every slot either holds one of the blocks or waits in the pool.
* `Holds.blocks_eq`: the walk of such a table is `bs`.
* `Table.Between` is what is true of a table while one block is linked or unlinked, link by link.
* `Holds.linkBefore`, `Holds.linkAfter`, `Holds.retire` and `Holds.update` are what the steps of
  the table make of the list.
-/

namespace MemoryBank

/-- The slot of a block between two others. -/
def Block.slot (b : Block) (prev next : Option Handle) : Slot :=
  ⟨b.address, b.size, prev, next, b.allocated⟩

/-- The handle of the first block. -/
def firstHandle (bs : List Block) : Option Handle := bs.head?.map (·.index)

/-- The handle of the last block. -/
def lastHandle (bs : List Block) : Option Handle := bs.getLast?.map (·.index)

/-- The slots of `bs` are linked in a row, `prev` before the first and `next` after the last. -/
def Segment (slots : Array Slot) : Option Handle → List Block → Option Handle → Prop
  | _, [], _ => True
  | prev, b :: rest, next =>
    slots[b.index]? = some (b.slot prev ((firstHandle rest).or next)) ∧
      Segment slots (some b.index) rest next

/-- The table's list is `bs`, and the slots that hold none of it wait in the pool. -/
structure Table.Holds (t : Table) (bs : List Block) : Prop where
  head : t.head = firstHandle bs
  linked : Segment t.slots none bs none
  slots : (handles bs ++ t.pool).Perm (List.range t.slots.size)

/-- The slot that the next new block receives. -/
def Table.fresh (t : Table) : Handle := t.pool.headD t.slots.size

/-! ## First and last handles -/

section Handles

variable {b : Block} {xs ys : List Block} {i : Handle}

@[simp] theorem handles_nil : handles [] = [] := rfl

@[simp] theorem handles_cons : handles (b :: xs) = b.index :: handles xs := rfl

@[simp] theorem handles_append : handles (xs ++ ys) = handles xs ++ handles ys := List.map_append

@[simp] theorem firstHandle_nil : firstHandle [] = none := rfl

@[simp] theorem firstHandle_cons : firstHandle (b :: xs) = some b.index := rfl

theorem firstHandle_append : firstHandle (xs ++ ys) = (firstHandle xs).or (firstHandle ys) := by
  rw [firstHandle, List.head?_append, Option.map_or]
  rfl

@[simp] theorem lastHandle_nil : lastHandle [] = none := rfl

@[simp] theorem lastHandle_concat : lastHandle (xs ++ [b]) = some b.index := by
  simp [lastHandle]

theorem lastHandle_cons_or {p : Option Handle} :
    (lastHandle (b :: xs)).or p = (lastHandle xs).or (some b.index) := by
  cases h : xs.getLast? <;> simp [lastHandle, List.getLast?_cons, h]

theorem mem_handles_of_firstHandle (h : firstHandle xs = some i) : i ∈ handles xs := by
  obtain ⟨b, hb, rfl⟩ := Option.map_eq_some_iff.1 h
  exact List.mem_map_of_mem (List.mem_of_mem_head? hb)

theorem mem_handles_of_lastHandle (h : lastHandle xs = some i) : i ∈ handles xs := by
  obtain ⟨b, hb, rfl⟩ := Option.map_eq_some_iff.1 h
  exact List.mem_map_of_mem (List.mem_of_mem_getLast? hb)

theorem index_mem_handles (h : b ∈ xs) : b.index ∈ handles xs := List.mem_map_of_mem h

end Handles

/-! ## Segments -/

section Segments

variable {slots slots' : Array Slot} {b : Block} {xs ys : List Block} {prev next : Option Handle}

theorem Segment.append_iff :
    Segment slots prev (xs ++ ys) next ↔
      Segment slots prev xs ((firstHandle ys).or next) ∧
        Segment slots ((lastHandle xs).or prev) ys next := by
  induction xs generalizing prev with
  | nil => simp [Segment]
  | cons b xs ih =>
    rw [List.cons_append, Segment, Segment, ih, firstHandle_append, Option.or_assoc, and_assoc,
      lastHandle_cons_or]

/-- A list is linked around one of its blocks. -/
theorem Segment.middle_iff :
    Segment slots none (xs ++ b :: ys) none ↔
      Segment slots none xs (some b.index) ∧
        slots[b.index]? = some (b.slot (lastHandle xs) (firstHandle ys)) ∧
          Segment slots (some b.index) ys none := by
  simp [Segment.append_iff, Segment]

/-- Only the slots of the blocks themselves matter. -/
theorem Segment.congr (h : Segment slots prev xs next)
    (hs : ∀ b ∈ xs, slots'[b.index]? = slots[b.index]?) : Segment slots' prev xs next := by
  induction xs generalizing prev with
  | nil => trivial
  | cons b xs ih =>
    exact ⟨(hs b (by simp)).trans h.1, ih h.2 fun c hc => hs c (by simp [hc])⟩

/-- The links up lead through a segment that nothing follows. -/
theorem Segment.leads {t : Table} (h : Segment t.slots prev xs none) :
    t.Leads (firstHandle xs) xs := by
  induction xs generalizing prev with
  | nil => exact .stop
  | cons b xs ih =>
    obtain ⟨hb, hx⟩ := h
    rw [Option.or_none] at hb
    exact .step (s := b.slot prev (firstHandle xs)) (Table.slot_eq_ok_iff.2 hb) (ih hx)

end Segments

/-! ## Changing one link -/

/-- `t'` differs from `t` at most in its head and in the slot `i`. -/
structure Table.AgreesBut (i : Option Handle) (t t' : Table) : Prop where
  pool : t'.pool = t.pool
  size : t'.slots.size = t.slots.size
  slots : ∀ j, i ≠ some j → t'.slots[j]? = t.slots[j]?

namespace Table

variable {t : Table} {b : Block} {xs ys bs : List Block} {i : Handle} {s : Slot}

theorem update_spec (h : t.slots[i]? = some s) (f : Slot → Slot) :
    ∃ t', t.update i f = .ok t' ∧ t'.slots[i]? = some (f s) ∧ t'.head = t.head ∧
      t.AgreesBut (some i) t' := by
  rw [← slot_eq_ok_iff] at h
  refine ⟨_, update_eq_ok h f, slot_eq_ok_iff.1 (slot_update_self h f), rfl, rfl, by simp, ?_⟩
  intro j hj
  exact Array.getElem?_setIfInBounds_ne fun e => hj (congrArg some e)

theorem AgreesBut.segment {o prev next : Option Handle} {t' : Table} (h : t.AgreesBut o t')
    (hs : Segment t.slots prev xs next) (ho : ∀ j ∈ handles xs, o ≠ some j) :
    Segment t'.slots prev xs next :=
  hs.congr fun _ hb => h.slots _ (ho _ (index_mem_handles hb))

/-- Let another block follow the list `xs` that begins at the head. -/
theorem setNext_spec {next : Option Handle} (h : Segment t.slots none xs next)
    (hh : t.head = (firstHandle xs).or next) (hn : (handles xs).Nodup) (next' : Option Handle) :
    ∃ t', t.setNext (lastHandle xs) next' = .ok t' ∧ Segment t'.slots none xs next' ∧
      t'.head = (firstHandle xs).or next' ∧ t.AgreesBut (lastHandle xs) t' := by
  cases xs using List.reverseRecOn with
  | nil => exact ⟨{ t with head := next' }, rfl, trivial, rfl, rfl, rfl, fun _ _ => rfl⟩
  | append_singleton xs p =>
    simp only [Segment.append_iff, Segment, firstHandle_cons, firstHandle_nil, Option.none_or,
      and_true] at h
    obtain ⟨t', ht', hp, he, ha⟩ := update_spec h.2 fun s => { s with next := next' }
    rw [lastHandle_concat]
    refine ⟨t', ht', ?_, ?_, ha⟩
    · simp only [Segment.append_iff, Segment, firstHandle_cons, firstHandle_nil, Option.none_or,
        and_true]
      refine ⟨ha.segment h.1 fun j hj e => ?_, hp⟩
      cases e
      rw [handles_append, List.nodup_append] at hn
      exact hn.2.2 _ hj _ (by simp) rfl
    · rw [he, hh, firstHandle_append, firstHandle_cons, Option.or_assoc, Option.or_assoc]
      rfl

/-- Let another block precede the list `ys`. -/
theorem setPrev_spec {prev next : Option Handle} (h : Segment t.slots prev ys next)
    (hn : (handles ys).Nodup) (prev' : Option Handle) :
    ∃ t', t.setPrev (firstHandle ys) prev' = .ok t' ∧ Segment t'.slots prev' ys next ∧
      t'.head = t.head ∧ t.AgreesBut (firstHandle ys) t' := by
  cases ys with
  | nil => exact ⟨t, rfl, trivial, rfl, rfl, rfl, fun _ _ => rfl⟩
  | cons n ys =>
    obtain ⟨hn', hs⟩ := h
    obtain ⟨t', ht', hp, he, ha⟩ := update_spec hn' fun s => { s with prev := prev' }
    refine ⟨t', ht', ⟨hp, ha.segment hs fun j hj e => ?_⟩, he, ha⟩
    cases e
    exact (List.nodup_cons.1 hn).1 hj

/-- Give a new block a slot that no block has. -/
theorem store_spec {hs : List Handle} (h : (hs ++ t.pool).Perm (List.range t.slots.size))
    (s : Slot) :
    ∃ t', t.store s = .ok (t.fresh, t') ∧ t'.slots[t.fresh]? = some s ∧ t'.head = t.head ∧
      t'.pool = t.pool.tail ∧ (∀ j, j ≠ t.fresh → t'.slots[j]? = t.slots[j]?) ∧
      (t.fresh :: hs ++ t'.pool).Perm (List.range t'.slots.size) := by
  cases hp : t.pool with
  | nil =>
    rw [hp, List.append_nil] at h
    have hf : t.fresh = t.slots.size := by simp [fresh, hp]
    refine ⟨{ t with slots := t.slots.push s }, by rw [store_of_pool_nil hp, hf], by simp [hf],
      rfl, by simp [hp], ?_, ?_⟩
    · intro j hj
      rw [Array.getElem?_push, if_neg (by rwa [← hf])]
    · simp only [hf, hp, List.append_nil, Array.size_push, List.range_succ]
      exact (h.cons _).trans (List.perm_append_singleton _ _).symm
  | cons i pool =>
    rw [hp] at h
    have hf : t.fresh = i := by simp [fresh, hp]
    have hi : i < t.slots.size := List.mem_range.1 (h.subset (by simp))
    obtain ⟨t', ht', hs', he, ha⟩ := update_spec (t := { t with pool })
      (Array.getElem?_eq_getElem hi) fun _ => s
    refine ⟨t', ?_, by rw [hf, hs'], he, ha.pool, ?_, ?_⟩
    · rw [store, hp, hf]
      dsimp only
      rw [ht']
      rfl
    · exact fun j hj => ha.slots j fun e => hj (hf ▸ (Option.some.inj e).symm)
    · rw [hf, ha.pool, ha.size]
      exact List.perm_middle.symm.trans h

/-! ## What a table holds -/

namespace Holds

theorem nodup (h : t.Holds bs) : (handles bs).Nodup :=
  (List.nodup_append.1 (h.slots.nodup_iff.2 List.nodup_range)).1

/-- The slot of a block in the list. -/
theorem slot (h : t.Holds (xs ++ b :: ys)) :
    t.slot b.index = .ok (b.slot (lastHandle xs) (firstHandle ys)) :=
  slot_eq_ok_iff.2 (Segment.middle_iff.1 h.linked).2.1

theorem slot_of_mem (h : t.Holds bs) (hb : b ∈ bs) : ∃ p n, t.slot b.index = .ok (b.slot p n) := by
  obtain ⟨xs, ys, rfl⟩ := List.append_of_mem hb
  exact ⟨_, _, h.slot⟩

theorem size (h : t.Holds bs) (hb : b ∈ bs) : t.size b.index = .ok b.size := by
  obtain ⟨p, n, hs⟩ := h.slot_of_mem hb
  exact size_of_slot hs

theorem address (h : t.Holds bs) (hb : b ∈ bs) : t.address b.index = .ok b.address := by
  obtain ⟨p, n, hs⟩ := h.slot_of_mem hb
  exact address_of_slot hs

theorem isAllocated (h : t.Holds bs) (hb : b ∈ bs) : t.isAllocated b.index = .ok b.allocated := by
  obtain ⟨p, n, hs⟩ := h.slot_of_mem hb
  exact isAllocated_of_slot hs

theorem block (h : t.Holds bs) (hb : b ∈ bs) : t.block b.index = .ok b := by
  obtain ⟨p, n, hs⟩ := h.slot_of_mem hb
  exact block_of_slot hs

theorem prev (h : t.Holds (xs ++ b :: ys)) : t.prev b.index = .ok (lastHandle xs) :=
  prev_of_slot h.slot

theorem next (h : t.Holds (xs ++ b :: ys)) : t.next b.index = .ok (firstHandle ys) :=
  next_of_slot h.slot

/-- Blocks of a table are known by their handles. -/
theorem eq_of_index (h : t.Holds bs) {b c : Block} (hb : b ∈ bs) (hc : c ∈ bs)
    (e : b.index = c.index) : b = c := by
  have hb := h.block hb
  rw [e, h.block hc] at hb
  exact (Except.ok.inj hb).symm

/-- The links down undo the links up. -/
theorem next_iff_prev (h : t.Holds bs) {b c : Block} (hb : b ∈ bs) (hc : c ∈ bs) :
    t.next b.index = .ok (some c.index) ↔ t.prev c.index = .ok (some b.index) := by
  constructor
  · intro hn
    obtain ⟨xs, ys, rfl⟩ := List.append_of_mem hb
    rw [h.next] at hn
    cases ys with
    | nil => cases hn
    | cons d ys =>
      obtain rfl : d = c := h.eq_of_index (by simp) hc (Option.some.inj (Except.ok.inj hn))
      rw [List.append_cons] at h
      rw [h.prev, lastHandle_concat]
  · intro hp
    obtain ⟨xs, ys, rfl⟩ := List.append_of_mem hc
    rw [h.prev] at hp
    cases xs using List.reverseRecOn with
    | nil => cases hp
    | append_singleton xs d =>
      rw [lastHandle_concat] at hp
      obtain rfl : d = b := h.eq_of_index (by simp) hb (Option.some.inj (Except.ok.inj hp))
      rw [List.append_assoc] at h
      exact h.next

/-- The links up lead through the blocks. -/
theorem leads (h : t.Holds bs) : t.Leads t.head bs := h.head ▸ h.linked.leads

/-- The links down lead back. -/
theorem linksBack (h : t.Holds bs) : t.LinksBack bs where
  first := by
    intro b hb
    obtain ⟨ys, rfl⟩ := List.head?_eq_some_iff.1 hb
    have h' : t.Holds ([] ++ b :: ys) := h
    exact h'.prev
  next := by
    rw [List.isChain_iff_forall_rel_of_append_cons_cons]
    rintro a b xs ys rfl
    rw [List.append_cons] at h
    rw [h.prev, lastHandle_concat]

/-- **The walk visits the list that the table holds.** -/
theorem blocks_eq (h : t.Holds bs) : t.blocks = bs := h.leads.blocks_eq

theorem exhaust_eq (h : t.Holds bs) : t.exhaust = .ok () := h.leads.exhaust_eq

/-! ## Changing the list -/

/-- Change a block in place. -/
theorem update (h : t.Holds (xs ++ b :: ys)) {f : Slot → Slot} {c : Block}
    (hi : c.index = b.index) (hf : ∀ p n, f (b.slot p n) = c.slot p n) :
    ∃ t', t.update b.index f = .ok t' ∧ t'.Holds (xs ++ c :: ys) ∧ t'.pool = t.pool := by
  obtain ⟨hx, hb, hy⟩ := Segment.middle_iff.1 h.linked
  obtain ⟨t', ht', hs, he, ha⟩ := update_spec hb f
  have hn := h.nodup
  simp only [handles_append, handles_cons, List.nodup_append, List.nodup_cons, List.mem_cons] at hn
  refine ⟨t', ht', ⟨?_, Segment.middle_iff.2 ?_, ?_⟩, ha.pool⟩
  · rw [he, h.head, firstHandle_append, firstHandle_append, firstHandle_cons, firstHandle_cons, hi]
  · rw [hi]
    refine ⟨ha.segment hx fun j hj e => ?_, by rw [hs, hf], ha.segment hy fun j hj e => ?_⟩
    · cases e
      exact hn.2.2 _ hj _ (.inl rfl) rfl
    · cases e
      exact hn.2.1.1 hj
  · rw [ha.pool, ha.size, handles_append, handles_cons, hi]
    simpa using h.slots

end Holds

/-! ### A block between two lists -/

/-- The slot of `k` is between `xs` and `ys`, and leads to both. The link up from `xs` leads to
`next` and the link down from `ys` to `prev`: while `k` is linked or unlinked, these come to lead to
`k` or pass it by one after the other. -/
structure Between (t : Table) (xs : List Block) (k : Block) (ys : List Block)
    (prev next : Option Handle) : Prop where
  head : t.head = (firstHandle xs).or next
  below : Segment t.slots none xs next
  slot : t.slots[k.index]? = some (k.slot (lastHandle xs) (firstHandle ys))
  above : Segment t.slots prev ys none
  slots : (handles (xs ++ k :: ys) ++ t.pool).Perm (List.range t.slots.size)

/-- A block is in the list if both links lead to it. -/
theorem holds_iff_between :
    t.Holds (xs ++ b :: ys) ↔ t.Between xs b ys (some b.index) (some b.index) := by
  constructor
  · rintro ⟨hh, hl, hs⟩
    obtain ⟨hx, hb, hy⟩ := Segment.middle_iff.1 hl
    exact ⟨by rw [hh, firstHandle_append, firstHandle_cons], hx, hb, hy, hs⟩
  · rintro ⟨hh, hx, hb, hy, hs⟩
    exact ⟨by rw [hh, firstHandle_append, firstHandle_cons], Segment.middle_iff.2 ⟨hx, hb, hy⟩, hs⟩

/-- A block that has just been given a slot is passed by. -/
theorem Holds.store (h : t.Holds (xs ++ ys)) (address size : ℕ) (allocated : Bool) :
    ∃ t', t.store ⟨address, size, lastHandle xs, firstHandle ys, allocated⟩ = .ok (t.fresh, t') ∧
      t'.Between xs ⟨t.fresh, address, size, allocated⟩ ys (lastHandle xs) (firstHandle ys) ∧
      t'.pool = t.pool.tail := by
  obtain ⟨t', ht', hk, he, hp, ha, hs⟩ :=
    store_spec h.slots ⟨address, size, lastHandle xs, firstHandle ys, allocated⟩
  have hn := (List.nodup_append.1 (hs.nodup_iff.2 List.nodup_range)).1
  rw [List.nodup_cons, handles_append, List.mem_append, not_or] at hn
  -- the new slot is none of the old ones, so the old links are still in place
  have old : ∀ {zs : List Block} {p n : Option Handle}, t.fresh ∉ handles zs →
      Segment t.slots p zs n → Segment t'.slots p zs n := fun hz hs =>
    hs.congr fun c hc => ha _ fun e => hz (e ▸ index_mem_handles hc)
  obtain ⟨hx, hy⟩ := Segment.append_iff.1 h.linked
  rw [Option.or_none] at hx hy
  refine ⟨t', ht', ⟨?_, old hn.1.1 hx, hk, old hn.1.2 hy, ?_⟩, hp⟩
  · rw [he, h.head, firstHandle_append]
  · refine (List.Perm.append_right _ ?_).trans hs
    rw [handles_append, handles_cons, handles_append]
    exact List.perm_middle

namespace Between

variable {k : Block} {prev next : Option Handle}

theorem nodup (h : t.Between xs k ys prev next) : (handles xs).Nodup ∧
    (k.index ∉ handles ys ∧ (handles ys).Nodup) ∧
      ∀ i ∈ handles xs, ∀ j, j = k.index ∨ j ∈ handles ys → i ≠ j := by
  have hn := (List.nodup_append.1 (h.slots.nodup_iff.2 List.nodup_range)).1
  simpa only [handles_append, handles_cons, List.nodup_append, List.nodup_cons,
    List.mem_cons] using hn

theorem setNext (h : t.Between xs k ys prev next) (next' : Option Handle) :
    ∃ t', t.setNext (lastHandle xs) next' = .ok t' ∧ t'.Between xs k ys prev next' ∧
      t'.pool = t.pool := by
  obtain ⟨hnx, -, hxy⟩ := h.nodup
  obtain ⟨t', ht', hx, he, ha⟩ := setNext_spec h.below h.head hnx next'
  refine ⟨t', ht', ⟨he, hx, ?_, ha.segment h.above fun j hj e => ?_, ?_⟩, ha.pool⟩
  · rw [ha.slots _ fun e => hxy _ (mem_handles_of_lastHandle e) _ (.inl rfl) rfl, h.slot]
  · exact hxy _ (mem_handles_of_lastHandle e) _ (.inr hj) rfl
  · rw [ha.pool, ha.size]
    exact h.slots

theorem setPrev (h : t.Between xs k ys prev next) (prev' : Option Handle) :
    ∃ t', t.setPrev (firstHandle ys) prev' = .ok t' ∧ t'.Between xs k ys prev' next ∧
      t'.pool = t.pool := by
  obtain ⟨-, ⟨hky, hny⟩, hxy⟩ := h.nodup
  obtain ⟨t', ht', hy, he, ha⟩ := setPrev_spec h.above hny prev'
  refine ⟨t', ht', ⟨he.trans h.head, ha.segment h.below fun j hj e => ?_, ?_, hy, ?_⟩, ha.pool⟩
  · exact hxy _ hj _ (.inr (mem_handles_of_firstHandle e)) rfl
  · rw [ha.slots _ fun e => hky (mem_handles_of_firstHandle e), h.slot]
  · rw [ha.pool, ha.size]
    exact h.slots

/-- A block that is passed by can be emptied. -/
theorem empty (h : t.Between xs k ys (lastHandle xs) (firstHandle ys)) (f : Slot → Slot) :
    ∃ t', t.update k.index f = .ok t' ∧
      Table.Holds { t' with pool := k.index :: t'.pool } (xs ++ ys) ∧ t'.pool = t.pool := by
  obtain ⟨-, ⟨hky, -⟩, hxy⟩ := h.nodup
  obtain ⟨t', ht', -, he, ha⟩ := update_spec h.slot f
  refine ⟨t', ht', ⟨?_, Segment.append_iff.2 ⟨?_, ?_⟩, ?_⟩, ha.pool⟩
  · rw [firstHandle_append]
    exact he.trans h.head
  · rw [Option.or_none]
    exact ha.segment h.below fun j hj e => hxy _ hj _ (.inl rfl) (Option.some.inj e).symm
  · rw [Option.or_none]
    exact ha.segment h.above fun j hj e => hky (Option.some.inj e ▸ hj)
  · have hs := h.slots
    rw [handles_append, handles_cons, List.append_assoc, List.cons_append] at hs
    rw [ha.pool, ha.size, handles_append, List.append_assoc]
    exact (List.perm_middle.append_left _).trans hs

end Between

namespace Holds

/-- Insert a block before another one. -/
theorem linkBefore (h : t.Holds (xs ++ b :: ys)) (address size : ℕ) (allocated : Bool) :
    ∃ t', t.linkBefore b.index address size allocated = .ok (t.fresh, t') ∧
      t'.Holds (xs ++ ⟨t.fresh, address, size, allocated⟩ :: b :: ys) ∧
      t'.pool = t.pool.tail := by
  obtain ⟨t₁, ht₁, h₁, hp₁⟩ := h.store address size allocated
  obtain ⟨t₂, ht₂, h₂, hp₂⟩ := h₁.setNext (some t.fresh)
  obtain ⟨t₃, ht₃, h₃, hp₃⟩ := h₂.setPrev (some t.fresh)
  rw [firstHandle_cons] at ht₁ ht₃
  refine ⟨t₃, ?_, holds_iff_between.2 h₃, by rw [hp₃, hp₂, hp₁]⟩
  simp only [Table.linkBefore, h.prev, ok_bind, ht₁, ht₂, ht₃]
  rfl

/-- Insert a block after another one. -/
theorem linkAfter (h : t.Holds (xs ++ b :: ys)) (address size : ℕ) (allocated : Bool) :
    ∃ t', t.linkAfter b.index address size allocated = .ok (t.fresh, t') ∧
      t'.Holds (xs ++ b :: ⟨t.fresh, address, size, allocated⟩ :: ys) ∧
      t'.pool = t.pool.tail := by
  have hnext := h.next
  rw [List.append_cons] at h
  obtain ⟨t₁, ht₁, h₁, hp₁⟩ := h.store address size allocated
  obtain ⟨t₂, ht₂, h₂, hp₂⟩ := h₁.setPrev (some t.fresh)
  obtain ⟨t₃, ht₃, h₃, hp₃⟩ := h₂.setNext (some t.fresh)
  rw [lastHandle_concat] at ht₁ ht₃
  rw [List.append_cons]
  refine ⟨t₃, ?_, holds_iff_between.2 h₃, by rw [hp₃, hp₂, hp₁]⟩
  simp only [Table.linkAfter, hnext, ok_bind, ht₁, ht₂, ht₃]
  rfl

/-- Take a block out of the list. -/
theorem retire (h : t.Holds (xs ++ b :: ys)) :
    ∃ t', t.retire b.index = .ok t' ∧ t'.Holds (xs ++ ys) ∧ t'.pool = b.index :: t.pool := by
  obtain ⟨t₁, ht₁, h₁, hp₁⟩ := (holds_iff_between.1 h).setNext (firstHandle ys)
  obtain ⟨t₂, ht₂, h₂, hp₂⟩ := h₁.setPrev (lastHandle xs)
  obtain ⟨t₃, ht₃, h₃, hp₃⟩ := h₂.empty fun s => { address := s.address, size := 0 }
  refine ⟨{ t₃ with pool := b.index :: t₃.pool }, ?_, h₃, ?_⟩
  · simp only [Table.retire, h.slot, ok_bind, Block.slot, ht₁, ht₂, ht₃]
    rfl
  · simp only [hp₃, hp₂, hp₁]

end Holds

end Table

end MemoryBank
