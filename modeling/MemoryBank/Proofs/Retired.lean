import MemoryBank.Proofs.BankSteps
import MemoryBank.Proofs.TableRuns
import MemoryBank.Table.Text

/-!
# What retired slots hold

A slot whose block is retired keeps some of its content, and what that is depends on how the bank
came to be as it is. No operation reads it.

* `Table.SameButRetired` and `Bank.SameButRetired`: two tables, or two banks, that differ in nothing
  but what is left in retired slots.
* `Table.Holds.sameButRetired`: the list and the pool determine a table but for that.
* `Table.Holds.carve_unique` and its like: an operation of the table makes the same of both.
* `Bank.Step.sameButRetired`: so does a request that is answered alike.
-/

namespace MemoryBank

/-- Two tables hold the same blocks in the same slots, with the same links. The slots that wait in
the pool are the same, but not what is left in them. -/
structure Table.SameButRetired (t u : Table) : Prop where
  blocks : t.blocks = u.blocks
  head : t.head = u.head
  pool : t.pool = u.pool
  size : t.slots.size = u.slots.size
  slots : ∀ i ∉ t.pool, t.slots[i]? = u.slots[i]?

/-- Two banks differ in nothing but what is left in retired slots. -/
structure Bank.SameButRetired (b c : Bank) : Prop where
  geometry : b.geometry = c.geometry
  usable : b.usable = c.usable
  shrunk : b.shrunk = c.shrunk
  table : b.table.SameButRetired c.table

/-! ## Tables -/

namespace Table

variable {t t' u u' : Table} {b : Block} {xs ys bs : List Block}

theorem SameButRetired.refl (t : Table) : t.SameButRetired t := ⟨rfl, rfl, rfl, rfl, fun _ _ => rfl⟩

/-- What is picked out of two lists by position is the same if both have the same there. -/
theorem filter_zipIdx_congr {α : Type} {l m : List α} {p : ℕ → Prop} [DecidablePred p] {n : ℕ}
    (hlen : l.length = m.length) (h : ∀ i, p (n + i) → l[i]? = m[i]?) :
    (l.zipIdx n).filter (p ·.2) = (m.zipIdx n).filter (p ·.2) := by
  induction l generalizing m n with
  | nil => rw [List.eq_nil_of_length_eq_zero hlen.symm]
  | cons a l ih =>
    obtain ⟨c, m, rfl⟩ := List.exists_cons_of_length_eq_add_one hlen.symm
    have hrest := ih (m := m) (n := n + 1) (by simpa using hlen) fun i hi => by
      simpa using h (i + 1) (by rwa [← Nat.add_assoc, Nat.add_right_comm])
    rw [List.zipIdx_cons, List.zipIdx_cons, List.filter_cons, List.filter_cons, hrest]
    dsimp only
    by_cases hn : p n
    · rw [Option.some.inj (h 0 hn)]
    · simp only [hn, decide_false, Bool.false_eq_true, if_false]

/-- The text of a table shows no retired slot. -/
theorem SameButRetired.listing (h : t.SameButRetired u) : t.listing = u.listing := by
  have hrows : (t.slots.toList.zipIdx.filter fun e => e.2 ∉ t.pool) =
      u.slots.toList.zipIdx.filter fun e => e.2 ∉ t.pool :=
    filter_zipIdx_congr (p := fun i => i ∉ t.pool) (by simpa using h.size) fun i hi => by
      simpa using h.slots i (by simpa using hi)
  rw [Table.listing, Table.listing, hrows, h.pool]

namespace Holds

/-- **The list and the pool determine a table** but for what is left in the slots of the pool. -/
theorem sameButRetired (ht : t.Holds bs) (hu : u.Holds bs) (hp : t.pool = u.pool) :
    t.SameButRetired u where
  blocks := ht.blocks_eq.trans hu.blocks_eq.symm
  head := ht.head.trans hu.head.symm
  pool := hp
  size := by rw [ht.slots_size, hu.slots_size, hp]
  slots i hi := by
    have hsize : t.slots.size = u.slots.size := by rw [ht.slots_size, hu.slots_size, hp]
    rcases Nat.lt_or_ge i t.slots.size with hlt | hge
    · -- the slot is in use, so it holds a block, which stands in the same place of both lists
      have hmem := (List.mem_append.1 (ht.slots.mem_iff.2 (List.mem_range.2 hlt))).resolve_right hi
      obtain ⟨b, hb, rfl⟩ := List.mem_map.1 hmem
      obtain ⟨xs, ys, rfl⟩ := List.append_of_mem hb
      rw [slot_eq_ok_iff.1 ht.slot, slot_eq_ok_iff.1 hu.slot]
    · rw [Array.getElem?_eq_none hge, Array.getElem?_eq_none (hsize ▸ hge)]

/-- The next new block receives the same slot. -/
theorem fresh_eq (ht : t.Holds bs) (hu : u.Holds bs) (hp : t.pool = u.pool) :
    t.fresh = u.fresh := by
  rw [fresh, fresh, hp, ht.slots_size, hu.slots_size, hp]

/-- All handles but one, and the pool, determine that one. -/
theorem index_unique {i j : Handle} {address size : ℕ} {allocated : Bool}
    (ht : t.Holds (xs ++ ⟨i, address, size, allocated⟩ :: ys))
    (hu : u.Holds (xs ++ ⟨j, address, size, allocated⟩ :: ys)) (hp : t.pool = u.pool) : i = j := by
  have hsize : t.slots.size = u.slots.size := by
    rw [ht.slots_size, hu.slots_size, hp, List.length_append, List.length_append, List.length_cons,
      List.length_cons]
  have hperm := (hsize ▸ ht.slots).trans hu.slots.symm
  rw [hp, handles_append, handles_append, List.append_assoc, List.append_assoc,
    List.perm_append_left_iff, List.perm_append_right_iff, handles_cons, handles_cons] at hperm
  exact List.singleton_perm_singleton.1 ((List.perm_append_right_iff (handles ys)).1 hperm)

theorem length_carved (b : Block) (offset size : ℕ) (i j k : Handle) :
    (carved b offset size i j).length = (carved b offset size i k).length := by
  unfold carved leftover
  split_ifs <;> rfl

/-- **Carving makes the same of both.** -/
theorem carve_unique (ht : t.Holds (xs ++ b :: ys)) (hu : u.Holds (xs ++ b :: ys))
    (hp : t.pool = u.pool) {offset size : ℕ} (hf : b.allocated = false)
    (ha : offset + size ≤ b.size) (hl : b.address + b.size < Address.limit) {c d : Carving}
    (hct : (t.carve b.index offset size).result = .ok (c, t'))
    (hcu : (u.carve b.index offset size).result = .ok (d, u')) : t'.SameButRetired u' := by
  obtain ⟨t₁, i, hct', ht', hpt⟩ := ht.carve_handles hf ha hl
  obtain ⟨u₁, j, hcu', hu', hpu⟩ := hu.carve_handles hf ha hl
  obtain ⟨-, rfl⟩ := ok_pair_unique hct' hct
  obtain ⟨-, rfl⟩ := ok_pair_unique hcu' hcu
  rw [← ht.fresh_eq hu hp] at hu' hpu
  have hpool : t₁.pool = u₁.pool := by rw [hpt, hpu, hp, length_carved b offset size t.fresh i j]
  have hcarved : carved b offset size t.fresh i = carved b offset size t.fresh j := by
    rcases Nat.eq_zero_or_pos (b.size - offset - size) with hz | hpos
    · simp only [carved, leftover, hz, if_true]
    · have hlast : ∀ k, xs ++ carved b offset size t.fresh k ++ ys =
          xs ++ leftover t.fresh b.address offset ++ [⟨b.index, b.address + offset, size, true⟩] ++
            ⟨k, b.address + offset + size, b.size - offset - size, false⟩ :: ys := fun k => by
        simp [carved, leftover, hpos.ne']
      rw [hlast] at ht' hu'
      rw [ht'.index_unique hu' hpool]
  rw [hcarved] at ht'
  exact ht'.sameButRetired hu' hpool

/-- **Freeing a block makes the same of both.** -/
theorem coalesce_unique (ht : t.Holds (xs ++ b :: ys)) (hu : u.Holds (xs ++ b :: ys))
    (hp : t.pool = u.pool) (hx : ∀ a ∈ xs.getLast?, a.address + a.size = b.address)
    (hy : ∀ a ∈ ys.head?, b.address + b.size = a.address ∧ a.address + a.size < Address.limit)
    (hl : b.address + b.size < Address.limit) {m n : Merging}
    (hct : (t.coalesce b.index).result = .ok (m, t'))
    (hcu : (u.coalesce b.index).result = .ok (n, u')) : t'.SameButRetired u' := by
  obtain ⟨us, vs, t₁, hus, hvs, hct', ht', hpt⟩ := ht.fuse hx hy hl
  obtain ⟨us', vs', u₁, hus', hvs', hcu', hu', hpu⟩ := hu.fuse hx hy hl
  obtain ⟨-, rfl⟩ := ok_pair_unique hct' hct
  obtain ⟨-, rfl⟩ := ok_pair_unique hcu' hcu
  obtain rfl := List.append_cancel_right (hus.symm.trans hus')
  obtain rfl := List.append_cancel_left (hvs.symm.trans hvs')
  exact ht'.sameButRetired hu' (by rw [hpt, hpu, hp])

/-- **Cutting bytes off makes the same of both.** -/
theorem truncateFront_unique (ht : t.Holds (xs ++ b :: ys)) (hu : u.Holds (xs ++ b :: ys))
    (hp : t.pool = u.pool) {amount : ℕ} (ha : amount ≤ b.size)
    (hl : b.address + b.size < Address.limit) {o p : Option Handle}
    (hct : t.truncateFront b.index amount = .ok (o, t'))
    (hcu : u.truncateFront b.index amount = .ok (p, u')) : t'.SameButRetired u' := by
  obtain ⟨t₁, hct', ht', hpt⟩ := ht.truncateFront ha hl
  obtain ⟨u₁, hcu', hu', hpu⟩ := hu.truncateFront ha hl
  obtain ⟨-, rfl⟩ := ok_pair_unique hct' hct
  obtain ⟨-, rfl⟩ := ok_pair_unique hcu' hcu
  exact ht'.sameButRetired hu' (by rw [hpt, hpu, hp])

/-- **A new lowest block is the same for both.** -/
theorem pushFront_unique (ht : t.Holds bs) (hu : u.Holds bs) (hp : t.pool = u.pool)
    {address size : ℕ} {allocated : Bool} (ha : ∀ b ∈ bs.head?, address + size ≤ b.address)
    (hl : address + size < Address.limit) {i j : Handle}
    (hct : t.pushFront address size allocated = .ok (i, t'))
    (hcu : u.pushFront address size allocated = .ok (j, u')) :
    i = j ∧ t'.SameButRetired u' := by
  obtain ⟨t₁, hct', ht', hpt⟩ := ht.pushFront allocated ha hl
  obtain ⟨u₁, hcu', hu', hpu⟩ := hu.pushFront allocated ha hl
  obtain ⟨rfl, rfl⟩ := ok_pair_unique hct' hct
  obtain ⟨rfl, rfl⟩ := ok_pair_unique hcu' hcu
  have hfresh := ht.fresh_eq hu hp
  rw [← hfresh] at hu'
  exact ⟨hfresh, ht'.sameButRetired hu' (by rw [hpt, hpu, hp])⟩

end Holds

end Table

/-! ## Banks -/

namespace Bank

variable {b b' c c' : Bank} {bs xs ys xs' ys' : List Block} {k k' : Block}

theorem SameButRetired.refl (b : Bank) : b.SameButRetired b := ⟨rfl, rfl, rfl, .refl _⟩

/-- **The blocks, the pool and the account of cuts determine a bank** but for that. -/
theorem Holds.sameButRetired (hb : b.Holds bs) (hc : c.Holds bs)
    (hp : b.table.pool = c.table.pool) (hg : b.geometry = c.geometry) (hs : b.shrunk = c.shrunk) :
    b.SameButRetired c where
  geometry := hg
  usable := by
    have hacc := hb.account
    have hacc' := hc.account
    rw [hg] at hacc
    omega
  shrunk := hs
  table := hb.table.sameButRetired hc.table hp

theorem SameButRetired.setTable (h : b.SameButRetired c) {t u : Table} (ht : t.SameButRetired u) :
    SameButRetired { b with table := t } { c with table := u } :=
  ⟨h.geometry, h.usable, h.shrunk, ht⟩

/-- Callers cannot tell them apart. -/
theorem SameButRetired.view (h : b.SameButRetired c) : b.view = c.view := by
  rw [Bank.view, Bank.view, h.geometry, h.shrunk, h.table.blocks]

/-- No question tells two sound banks apart. -/
theorem SameButRetired.lowestOccupied (h : b.SameButRetired c) (hb : b.Sound) (hc : c.Sound) :
    b.lowestOccupied = c.lowestOccupied := by
  rw [Bank.lowestOccupied, Bank.lowestOccupied, h.table.blocks, h.geometry, hb.table.exhaust_eq,
    hc.table.exhaust_eq]

theorem SameButRetired.usage (h : b.SameButRetired c) (hb : b.Sound) (hc : c.Sound) :
    b.usage = c.usage := by
  rw [Bank.usage, Bank.usage, h.table.blocks, h.geometry, h.usable, hb.table.exhaust_eq,
    hc.table.exhaust_eq]

theorem SameButRetired.availableAddresses (h : b.SameButRetired c) (hb : b.Sound) (hc : c.Sound)
    (request : ℕ) :
    b.availableAddresses request = c.availableAddresses request := by
  have hgrant : b.grant request = c.grant request := by
    rw [Bank.grant, Bank.grant, h.geometry, h.usable]
  have hranges : b.freeRanges = c.freeRanges := by
    funext n
    have hrange : b.range = c.range := by
      funext k
      rw [Bank.range, Bank.range, h.geometry]
    rw [Bank.freeRanges, Bank.freeRanges, Bank.candidates, Bank.candidates, h.table.blocks, hrange,
      hb.table.exhaust_eq, hc.table.exhaust_eq]
  rw [Bank.availableAddresses, Bank.availableAddresses, hgrant, hranges]

/-- A block is known by any address in it, and so are the blocks below and above. -/
theorem Holds.split_unique (hb : b.Holds (xs ++ k :: ys)) (hc : c.Holds (xs' ++ k' :: ys'))
    (h : b.SameButRetired c) {x : ℕ} (hk : k.address ≤ x ∧ x < k.address + k.size)
    (hk' : k'.address ≤ x ∧ x < k'.address + k'.size) : xs = xs' ∧ k = k' ∧ ys = ys' := by
  have hlist : xs ++ k :: ys = xs' ++ k' :: ys' :=
    hb.table.blocks_eq.symm.trans (h.table.blocks.trans hc.table.blocks_eq)
  have hmem : k' ∈ xs ++ k :: ys := hlist ▸ List.mem_append_cons_self
  obtain rfl : k = k' := by
    by_contra hne
    have := hb.tiles.disjoint List.mem_append_cons_self hmem hne
    omega
  have hn := hb.table.nodup
  simp only [handles_append, handles_cons, List.nodup_append, List.nodup_cons] at hn
  have hx : k ∉ xs := fun hm => hn.2.2 _ (index_mem_handles hm) _ List.mem_cons_self rfl
  have hy : k ∉ ys := fun hm => hn.2.1.1 (index_mem_handles hm)
  exact (List.append_cons_inj_of_notMem hx hy).1 hlist

/-- What is refused changes nothing. -/
theorem Step.eq_of_refused {r : Request} {reply : Except Failure Reply} (hs : b.Step r reply b')
    (hr : Refused reply) : b' = b := by
  cases hs with
  | refused => rfl
  | placed | placedAt => exact absurd hr not_refused_placed
  | freed | cleared | uncut | cut | whole | restored => exact absurd hr not_refused_done

/-- **Carving makes the same of both banks**, where the allocation begins at the same address. -/
theorem Holds.carve_sameButRetired (hb : b.Holds (xs ++ k :: ys)) (hc : c.Holds (xs' ++ k' :: ys'))
    (h : b.SameButRetired c) (hf : k.allocated = false) {inset inset' n : ℕ} (hpos : 0 < n)
    (hn : inset + n ≤ k.size) (hn' : inset' + n ≤ k'.size)
    (ha : k.address + inset = k'.address + inset') {cb cc : Carving} {t u : Table}
    (hct : (b.table.carve k.index inset n).result = .ok (cb, t))
    (hcu : (c.table.carve k'.index inset' n).result = .ok (cc, u)) :
    SameButRetired { b with table := t } { c with table := u } := by
  obtain ⟨rfl, rfl, rfl⟩ := hb.split_unique hc h (x := k.address + inset) (by omega) (by omega)
  obtain rfl : inset = inset' := by omega
  have hr := hb.in_range (k := k) List.mem_append_cons_self
  exact h.setTable (hb.table.carve_unique hc.table h.table.pool hf hn (by omega) hct hcu)

/-- **Freeing makes the same of both banks.** -/
theorem Holds.coalesce_sameButRetired (hb : b.Holds (xs ++ k :: ys)) (hc : c.Holds (xs ++ k :: ys))
    (h : b.table.pool = c.table.pool) {mb mc : Merging} {t u : Table}
    (hct : (b.table.coalesce k.index).result = .ok (mb, t))
    (hcu : (c.table.coalesce k.index).result = .ok (mc, u)) : t.SameButRetired u := by
  obtain ⟨hx, -, hy⟩ := Tiles.middle_iff.1 hb.tiles
  have hr := hb.in_range (k := k) List.mem_append_cons_self
  have hl : b.shrunk + b.usable < Address.limit := by
    have := hb.geometry.stop
    have := hb.account
    omega
  exact hb.table.coalesce_unique hc.table h hx.last_stop (hy.head_touches hl) (by omega) hct hcu

/-- The account of cuts knows nothing of slots. -/
theorem SameButRetired.holdBack (h : b.SameButRetired c) {amount : ℕ}
    (hb : b.holdBack amount = .ok b') (hc : c.holdBack amount = .ok c') : b'.SameButRetired c' := by
  obtain ⟨usable, hu, hb⟩ := bind_eq_ok_iff.1 hb
  obtain ⟨shrunk, hs, hb⟩ := bind_eq_ok_iff.1 hb
  obtain ⟨usable', hu', hc⟩ := bind_eq_ok_iff.1 hc
  obtain ⟨shrunk', hs', hc⟩ := bind_eq_ok_iff.1 hc
  cases hb
  cases hc
  rw [h.usable] at hu
  rw [h.shrunk] at hs
  exact ⟨h.geometry, Except.ok.inj (hu.symm.trans hu'), Except.ok.inj (hs.symm.trans hs'), h.table⟩

theorem SameButRetired.giveBack (h : b.SameButRetired c) (hb : b.giveBack = .ok b')
    (hc : c.giveBack = .ok c') : b'.SameButRetired c' := by
  obtain ⟨usable, hu, hb⟩ := bind_eq_ok_iff.1 hb
  obtain ⟨usable', hu', hc⟩ := bind_eq_ok_iff.1 hc
  cases hb
  cases hc
  rw [h.usable, h.shrunk] at hu
  exact ⟨h.geometry, Except.ok.inj (hu.symm.trans hu'), rfl, h.table⟩

/-- **Giving back makes the same of both banks.** -/
theorem Sound.restored_sameButRetired (hb : b.Sound) (hc : c.Sound) (h : b.SameButRetired c)
    (hpos : 0 < b.shrunk) {i j : Handle} {t t' u u' : Table} {mb mc : Merging}
    (hpb : b.table.pushFront 0 b.shrunk true = .ok (i, t))
    (hgb : Bank.giveBack { b with table := t } = .ok b')
    (hcb : (b'.table.coalesce i).result = .ok (mb, t'))
    (hpc : c.table.pushFront 0 c.shrunk true = .ok (j, u))
    (hgc : Bank.giveBack { c with table := u } = .ok c')
    (hcc : (c'.table.coalesce j).result = .ok (mc, u')) :
    SameButRetired { b' with table := t' } { c' with table := u' } := by
  have hbelow : ∀ a ∈ b.table.blocks.head?, 0 + b.shrunk ≤ a.address := fun a ha => by
    rw [hb.tiles.head_start a ha, Nat.zero_add]
  have hl : 0 + b.shrunk < Address.limit := by
    have := hb.geometry.stop
    have := hb.account
    omega
  have hcb₀ : c.table.Holds b.table.blocks := h.table.blocks ▸ hc.table
  rw [← h.shrunk] at hpc
  obtain ⟨rfl, ht⟩ := hb.table.pushFront_unique hcb₀ h.table.pool hbelow hl hpb hpc
  have hgiven := (h.setTable ht).giveBack hgb hgc
  obtain ⟨t₁, b₁, hpb', hgb', hb₁, -⟩ := Holds.pushed hb hpos
  obtain ⟨rfl, rfl⟩ := ok_pair_unique hpb' hpb
  obtain rfl := Except.ok.inj (hgb'.symm.trans hgb)
  obtain ⟨u₁, c₁, hpc', hgc', hc₁, -⟩ := Holds.pushed hc (h.shrunk ▸ hpos)
  rw [← h.shrunk] at hpc'
  obtain ⟨hi, rfl⟩ := ok_pair_unique hpc' hpc
  obtain rfl := Except.ok.inj (hgc'.symm.trans hgc)
  rw [hi, ← h.shrunk, ← h.table.blocks] at hc₁
  have hb₁' : b₁.Holds ([] ++ ⟨b.table.fresh, 0, b.shrunk, true⟩ :: b.table.blocks) := hb₁
  exact hgiven.setTable (hb₁'.coalesce_sameButRetired hc₁ hgiven.table.pool hcb hcc)

/-- **A request makes the same of both banks**, if both answer alike. -/
theorem Step.sameButRetired (hb : b.Sound) (hc : c.Sound) (h : b.SameButRetired c) {r : Request}
    {reply : Except Failure Reply} (hs : b.Step r reply b') (ht : c.Step r reply c') :
    b'.SameButRetired c' := by
  have hgeo := h.geometry
  cases hs with
  | refused hr =>
    rw [ht.eq_of_refused hr]
    exact h
  | @placed size n p xs ys k cb t hbs hf hg hn hcb =>
    generalize ha : k.address + k.inset n p.direction + b.geometry.offset = address at ht
    cases ht with
    | refused hr => exact absurd hr not_refused_placed
    | placed hcs hf' hg' hn' hcc =>
      rw [← h.view] at hg'
      obtain rfl := Option.some.inj (Except.ok.inj (hg.symm.trans hg'))
      exact hbs.carve_sameButRetired hcs h hf (hb.grant_bounds hg).1 (Block.inset_add_le hn _)
        (Block.inset_add_le hn' _) (by rw [hgeo] at ha; omega) hcb hcc
  | placedAt hbs hf hg hn ha hcb =>
    cases ht with
    | refused hr => exact absurd hr not_refused_placed
    | placedAt hcs hf' hg' hn' ha' hcc =>
      rw [← h.view] at hg'
      obtain rfl := Option.some.inj (Except.ok.inj (hg.symm.trans hg'))
      exact hbs.carve_sameButRetired hcs h hf (hb.grant_bounds hg).1 hn hn'
        (by rw [hgeo] at ha; omega) hcb hcc
  | @freed address xs ys k m t hbs hl ha hm =>
    cases ht with
    | refused hr => exact absurd hr not_refused_done
    | @freed _ xs' ys' k' m' t' hcs hl' ha' hm' =>
      have hk := hbs.bounds (k := k) List.mem_append_cons_self
      have hk' := hcs.bounds (k := k') List.mem_append_cons_self
      rw [hgeo] at ha
      obtain ⟨rfl, rfl, rfl⟩ := hbs.split_unique hcs h (x := k.address) (by omega) (by omega)
      exact h.setTable (hbs.coalesce_sameButRetired hcs h.table.pool hm hm')
  | cleared =>
    cases ht with
    | refused hr => exact absurd hr not_refused_done
    | cleared =>
      rw [reset, reset, hgeo]
      exact .refl _
  | uncut =>
    cases ht with
    | refused hr => exact absurd hr not_refused_done
    | uncut => exact h
    | cut hpos => omega
  | @cut amount ys k o t b' hpos hbs hf ha hcut hhold =>
    cases ht with
    | refused hr => exact absurd hr not_refused_done
    | uncut => omega
    | @cut _ ys' k' o' t' c' _ hcs hf' ha' hcut' hhold' =>
      have hlist := hbs.table.blocks_eq.symm.trans (h.table.blocks.trans hcs.table.blocks_eq)
      obtain ⟨rfl, rfl⟩ := List.cons.inj hlist
      have hr := hbs.in_range (k := k) List.mem_cons_self
      have hbt : b.table.Holds ([] ++ k :: ys) := hbs.table
      have ht := hbt.truncateFront_unique hcs.table h.table.pool ha (by omega) hcut hcut'
      exact (h.setTable ht).holdBack hhold hhold'
  | whole hz =>
    cases ht with
    | refused hr => exact absurd hr not_refused_done
    | whole => exact h
    | restored hpos =>
      rw [← h.shrunk] at hpos
      omega
  | restored hpos hp hg hm =>
    cases ht with
    | refused hr => exact absurd hr not_refused_done
    | whole hz =>
      rw [← h.shrunk] at hz
      omega
    | restored _ hp' hg' hm' => exact hb.restored_sameButRetired hc h hpos hp hg hm hp' hg' hm'

end Bank

end MemoryBank
