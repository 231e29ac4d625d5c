import MemoryBank.Proofs.BankChecks

/-!
# What the steps make of a bank

Each step leads from a bank of which `Bank.Holds` is true to such a bank again, and changes its view
as the contract says.

* `Holds.carve`: a part of a free block is allocated.
* `Holds.coalesce`: a block is freed.
* `Holds.cut` and `Holds.pushed`: bytes are cut off the low end, and are given back as one block in
  use.
* `Bank.Step`: what a request makes of a bank, whichever block an allocator picks, in terms of the
  steps. It is what the contract says (`Step.follows`).
-/

namespace MemoryBank.Bank.Holds

variable {b : Bank} {bs xs ys : List Block} {k : Block} {n : ℕ}

/-- **Allocating a part of a free block.** -/
theorem carve (h : b.Holds (xs ++ k :: ys)) {inset : ℕ} (hf : k.allocated = false) (hn : 0 < n)
    (ha : inset + n ≤ k.size) :
    ∃ c t j, (b.table.carve k.index inset n).result = .ok (c, t) ∧
      c.remainders = handles (leftover b.table.fresh k.address inset) ++
        handles (leftover j (k.address + inset + n) (k.size - inset - n)) ∧
      Holds { b with table := t } (xs ++ carved k inset n b.table.fresh j ++ ys) ∧
      view { b with table := t } = { b.view with
        live := insert (k.address + inset + b.geometry.offset, n) b.view.live } := by
  have hr := h.in_range (k := k) (by simp)
  obtain ⟨c, t, j, hc, hrem, ht, -⟩ := h.table.carve hf ha (by omega)
  obtain ⟨hx, -, hy⟩ := Tiles.middle_iff.1 h.tiles
  have htiles : Tiles b.shrunk (xs ++ carved k inset n b.table.fresh j ++ ys)
      (b.shrunk + b.usable) := by
    rw [List.append_assoc, Tiles.append_iff]
    exact ⟨_, hx, Tiles.append_iff.2 ⟨_, tiles_carved hn ha, hy⟩⟩
  refine ⟨c, t, j, hc, hrem,
    ⟨ht, htiles, separated_carved h.separated hf, h.account, h.geometry⟩, ?_⟩
  rw [h.live_eq, ← allocations_carved (i := b.table.fresh) (j := j) hf]
  simp only [view, ht.blocks_eq]

/-- **Freeing a block.** -/
theorem coalesce (h : b.Holds (xs ++ k :: ys)) :
    ∃ us vs ls rs m t,
      (b.table.coalesce k.index).result = .ok (⟨m.index, freeEntries (ls ++ rs)⟩, t) ∧
      Merged xs ys us vs ls rs k m ∧ Holds { b with table := t } (us ++ m :: vs) ∧
      view { b with table := t } = { b.view with
        live := b.view.live.filter (·.1 ≠ k.address + b.geometry.offset) } := by
  have hl : b.shrunk + b.usable < Address.limit := by
    have := h.geometry.stop
    have := h.account
    omega
  obtain ⟨us, vs, ls, rs, m, t, hc, ht, hm, -⟩ := h.table.coalesce h.tiles hl
  refine ⟨us, vs, ls, rs, m, t, hc, hm,
    ⟨ht, hm.tiles h.tiles, hm.separated h.separated, h.account, h.geometry⟩, ?_⟩
  have hlive : allocations b.geometry.offset (us ++ m :: vs) =
      allocations b.geometry.offset (xs ++ ys) := by
    have hls : allocations b.geometry.offset ls = ∅ :=
      allocations_of_free fun a ha => hm.absorbed a (List.mem_append_left rs ha)
    have hrs : allocations b.geometry.offset rs = ∅ :=
      allocations_of_free fun a ha => hm.absorbed a (List.mem_append_right ls ha)
    rw [hm.below, hm.above, allocations_append, allocations_append, allocations_append,
      allocations_append, hls, hrs, allocations_cons_free hm.free, Finset.union_empty,
      Finset.empty_union]
  rw [h.live_eq, ← allocations_without h.tiles, ← hlive]
  simp only [view, ht.blocks_eq]

/-- **Cutting bytes off** the lowest block, which is free. -/
theorem cut (h : b.Holds (k :: ys)) {amount : ℕ} (hf : k.allocated = false)
    (ha : amount ≤ k.size) :
    ∃ t b', b.table.truncateFront k.index amount = .ok (firstHandle (shortened k amount), t) ∧
      holdBack { b with table := t } amount = .ok b' ∧ b'.Holds (shortened k amount ++ ys) ∧
      b'.table = t ∧ b'.view = { b.view with shrunk := b.shrunk + amount } := by
  have hr := h.in_range (k := k) (by simp)
  have ht : b.table.Holds ([] ++ k :: ys) := h.table
  obtain ⟨t, hcut, ht', -⟩ := ht.truncateFront ha (by omega)
  rw [List.nil_append] at ht'
  obtain ⟨hk, hpos, hy⟩ := h.tiles
  have hle := hy.le
  have hstop := h.geometry.stop
  have hacc := h.account
  have hhold : holdBack { b with table := t } amount = .ok
      { b with table := t, usable := b.usable - amount, shrunk := b.shrunk + amount } := by
    unfold holdBack
    dsimp only
    rw [Address.sub_of_le (by omega), Address.add_of_lt (by omega)]
    rfl
  have htiles := tiles_shortened h.tiles ha
  rw [show b.shrunk + b.usable = b.shrunk + amount + (b.usable - amount) by omega] at htiles
  refine ⟨t, _, hcut, hhold,
    ⟨ht', htiles, separated_shortened h.separated hf amount, ?_, h.geometry⟩, rfl, ?_⟩
  · dsimp only
    omega
  · simp only [view, ht'.blocks_eq, h.table.blocks_eq, allocations_shortened hf]

/-- **Giving back what was cut off**, as one block in use. -/
theorem pushed (h : b.Holds bs) (hs : 0 < b.shrunk) :
    ∃ t b', b.table.pushFront 0 b.shrunk true = .ok (b.table.fresh, t) ∧
      giveBack { b with table := t } = .ok b' ∧
      b'.Holds (⟨b.table.fresh, 0, b.shrunk, true⟩ :: bs) ∧ b'.table = t ∧
      b'.view = ⟨b.geometry, 0, insert (b.geometry.offset, b.shrunk) b.view.live⟩ := by
  have hstop := h.geometry.stop
  have hacc := h.account
  have hbelow : ∀ a ∈ bs.head?, 0 + b.shrunk ≤ a.address := fun a ha => by
    rw [h.tiles.head_start a ha, Nat.zero_add]
  obtain ⟨t, hpush, ht, -⟩ := h.table.pushFront true hbelow (by omega)
  have hgive : giveBack { b with table := t } = .ok
      { b with table := t, usable := b.usable + b.shrunk, shrunk := 0 } := by
    unfold giveBack
    dsimp only
    rw [Address.add_of_lt (by omega)]
    rfl
  have htiles : Tiles 0 (⟨b.table.fresh, 0, b.shrunk, true⟩ :: bs) (0 + (b.usable + b.shrunk)) := by
    refine ⟨rfl, hs, ?_⟩
    rw [Nat.zero_add, Nat.zero_add, Nat.add_comm b.usable]
    exact h.tiles
  refine ⟨t, _, hpush, hgive, ⟨ht, htiles, separated_live separated_nil h.separated rfl, ?_,
    h.geometry⟩, rfl, ?_⟩
  · dsimp only
    omega
  · simp only [view, ht.blocks_eq, h.table.blocks_eq, allocations_cons_live, Nat.zero_add]

/-- What was cut off is no allocation of a caller's. -/
theorem filter_pushed (h : b.Holds bs) (hs : 0 < b.shrunk) :
    (insert (b.geometry.offset, b.shrunk) b.view.live).filter (·.1 ≠ b.geometry.offset) =
      b.view.live := by
  rw [Finset.filter_insert, if_neg (not_not.2 rfl), Finset.filter_eq_self]
  intro r hr e
  rw [h.live_eq] at hr
  obtain ⟨k, hk, -, hka, -⟩ := mem_allocations.1 hr
  have := h.bounds hk
  omega

end MemoryBank.Bank.Holds

/-! ## Requests -/

namespace MemoryBank.Bank

/-- What a request with this answer makes of a bank. An allocator chooses the free block that is
carved, and nothing else. -/
inductive Step (b : Bank) : Request → Except Failure Reply → Bank → Prop
  /-- What is refused changes nothing. -/
  | refused {r : Request} {reply : Except Failure Reply} (h : Refused reply) : b.Step r reply b
  /-- An end of a free block is allocated, -/
  | placed {size n : ℕ} {p : Placement} {xs ys : List Block} {k : Block} {c : Carving} {t : Table}
      (h : b.Holds (xs ++ k :: ys)) (hf : k.allocated = false)
      (hg : b.view.grant size = .ok (some n)) (hn : n ≤ k.size)
      (hc : (b.table.carve k.index (k.inset n p.direction) n).result = .ok (c, t)) :
      b.Step (.allocate size p)
        (.ok (.placed (k.address + k.inset n p.direction + b.geometry.offset)))
        { b with table := t }
  /-- or the part of it that the caller names. -/
  | placedAt {address size n inset : ℕ} {xs ys : List Block} {k : Block} {c : Carving} {t : Table}
      (h : b.Holds (xs ++ k :: ys)) (hf : k.allocated = false)
      (hg : b.view.grant size = .ok (some n)) (hn : inset + n ≤ k.size)
      (ha : k.address + inset + b.geometry.offset = address)
      (hc : (b.table.carve k.index inset n).result = .ok (c, t)) :
      b.Step (.allocateAt address size) (.ok (.placed address)) { b with table := t }
  /-- A block in use is freed. -/
  | freed {address : ℕ} {xs ys : List Block} {k : Block} {m : Merging} {t : Table}
      (h : b.Holds (xs ++ k :: ys)) (hl : k.allocated = true)
      (ha : k.address + b.geometry.offset = address)
      (hc : (b.table.coalesce k.index).result = .ok (m, t)) :
      b.Step (.deallocate address) (.ok .done) { b with table := t }
  | cleared : b.Step .clear (.ok .done) b.reset
  /-- A cut of no bytes changes nothing. -/
  | uncut {d : Direction} : b.Step (.shrink 0 d) (.ok .done) b
  /-- Bytes are cut off a free lowest block. -/
  | cut {amount : ℕ} {ys : List Block} {k : Block} {o : Option Handle} {t : Table} {b' : Bank}
      (hpos : 0 < amount) (h : b.Holds (k :: ys)) (hf : k.allocated = false) (ha : amount ≤ k.size)
      (hc : b.table.truncateFront k.index amount = .ok (o, t))
      (hh : holdBack { b with table := t } amount = .ok b') :
      b.Step (.shrink amount .bottomUp) (.ok .done) b'
  /-- There is nothing to give back. -/
  | whole (h : b.shrunk = 0) : b.Step .restore (.ok .done) b
  /-- What was cut off is given back as a block in use, which is then freed. -/
  | restored {i : Handle} {t t' : Table} {b' : Bank} {m : Merging} (hpos : 0 < b.shrunk)
      (hp : b.table.pushFront 0 b.shrunk true = .ok (i, t))
      (hg : giveBack { b with table := t } = .ok b')
      (hc : (b'.table.coalesce i).result = .ok (m, t')) :
      b.Step .restore (.ok .done) { b' with table := t' }

/-- What a request with this answer makes of a bank: a sound one, with the view that the contract
says. -/
structure Follows (r : Request) (reply : Except Failure Reply) (b b' : Bank) : Prop where
  sound : b'.Sound
  view : b'.view = b.view.after r reply

theorem Sound.follows_self {b : Bank} (h : b.Sound) {r : Request} {reply : Except Failure Reply}
    (hr : Refused reply) : b.Follows r reply b :=
  ⟨h, (View.after_of_refused hr).symm⟩

/-- **A step leads to what the contract says.** -/
theorem Step.follows {b b' : Bank} (h : b.Sound) {r : Request} {reply : Except Failure Reply}
    (hs : b.Step r reply b') : b.Follows r reply b' := by
  cases hs with
  | refused hr => exact h.follows_self hr
  | placed h hf hg hn hc =>
    obtain ⟨c, t, j, hc', -, hb, hv⟩ :=
      h.carve hf (h.grant_bounds hg).1 (Block.inset_add_le hn _)
    obtain ⟨rfl, rfl⟩ := ok_pair_unique hc' hc
    refine ⟨hb.sound, ?_⟩
    rw [hv, View.after, liveAfter, View.liveWith_of_grant hg]
    rfl
  | placedAt h hf hg hn ha hc =>
    obtain ⟨c, t, j, hc', -, hb, hv⟩ := h.carve hf (h.grant_bounds hg).1 hn
    obtain ⟨rfl, rfl⟩ := ok_pair_unique hc' hc
    refine ⟨hb.sound, ?_⟩
    rw [hv, ha, View.after, liveAfter, View.liveWith_of_grant hg]
    rfl
  | freed h hl ha hc =>
    obtain ⟨us, vs, ls, rs, m, t, hc', -, hb, hv⟩ := h.coalesce
    obtain ⟨rfl, rfl⟩ := ok_pair_unique hc' hc
    refine ⟨hb.sound, ?_⟩
    rw [hv, ha]
    rfl
  | cleared => exact ⟨(holds_fresh h.geometry).sound, view_fresh h.geometry⟩
  | uncut => exact ⟨h, rfl⟩
  | cut hpos h hf ha hc hh =>
    obtain ⟨t, b', hc', hh', hb, -, hv⟩ := h.cut hf ha
    obtain ⟨rfl, rfl⟩ := ok_pair_unique hc' hc
    obtain rfl := Except.ok.inj (hh'.symm.trans hh)
    exact ⟨hb.sound, hv⟩
  | whole hz =>
    refine ⟨h, ?_⟩
    simp only [View.after, shrunkAfter, liveAfter, ← hz]
    rfl
  | restored hpos hp hg hc =>
    obtain ⟨t, b₁, hp', hg', hb, -, hv⟩ := Holds.pushed h hpos
    obtain ⟨rfl, rfl⟩ := ok_pair_unique hp' hp
    obtain rfl := Except.ok.inj (hg'.symm.trans hg)
    have hb' : b₁.Holds ([] ++ ⟨b.table.fresh, 0, b.shrunk, true⟩ :: b.table.blocks) := hb
    obtain ⟨us, vs, ls, rs, m, t', hc', -, hb'', hv'⟩ := hb'.coalesce
    obtain ⟨rfl, rfl⟩ := ok_pair_unique hc' hc
    have hgeo : b₁.geometry = b.geometry := congrArg View.geometry hv
    refine ⟨hb''.sound, ?_⟩
    rw [hv', hv, hgeo, Nat.zero_add, Holds.filter_pushed h hpos]
    rfl

end MemoryBank.Bank
