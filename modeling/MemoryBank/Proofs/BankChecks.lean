import MemoryBank.Proofs.Allocations
import MemoryBank.Proofs.Contract

/-!
# The checks of a bank

`Bank.Holds b bs` is what is true of a bank at all times, its blocks being `bs`: they tile what is
not cut off, and no two neighbours are free. `Bank.view` is what callers can tell of it.

* `Holds.layout_eq`: the view determines where all blocks lie.
* `Holds.grant`, `Holds.placeIn`, `Holds.locate` and `Holds.shrinkTarget`: the checks before an
  operation come out as the contract says.
* `Holds.landing_cases`: where a cut lands.
-/

namespace MemoryBank

/-! ## What is true of a bank -/

namespace Bank

/-- What callers can tell of a bank. -/
def view (b : Bank) : View := ⟨b.geometry, b.shrunk, allocations b.geometry.offset b.table.blocks⟩

/-- The blocks of a bank are `bs`, and all is well with them. -/
structure Holds (b : Bank) (bs : List Block) : Prop where
  table : b.table.Holds bs
  tiles : Tiles b.shrunk bs (b.shrunk + b.usable)
  separated : Separated bs
  account : b.shrunk + b.usable = b.geometry.size
  geometry : b.geometry.Sound

/-- All is well with a bank. -/
def Sound (b : Bank) : Prop := b.Holds b.table.blocks

variable {b c : Bank} {bs : List Block} {k : Block} {n request : ℕ}

theorem mem_candidates :
    k ∈ b.candidates n ↔ k ∈ b.table.blocks ∧ k.allocated = false ∧ n ≤ k.size := by
  simp [candidates]

/-- A fresh bank is one free block, unless it is empty. -/
theorem holds_fresh {g : Geometry} (hg : g.Sound) : (fresh g).Holds (leftover 0 0 g.size) := by
  refine ⟨Table.holds_single 0 g.size, ?_, ?_, Nat.zero_add _, hg⟩
  · exact tiles_leftover 0 0 g.size
  · exact separated_append_leftover separated_nil (by simp) 0 0 g.size

theorem view_fresh {g : Geometry} (hg : g.Sound) : (fresh g).view = ⟨g, 0, ∅⟩ := by
  rw [view, (holds_fresh hg).table.blocks_eq, allocations_of_free fun a ha => ?_]
  · rfl
  · rw [(mem_leftover.1 ha).2]

namespace Holds

theorem sound (h : b.Holds bs) : b.Sound := by
  rw [Sound, h.table.blocks_eq]
  exact h

theorem live_eq (h : b.Holds bs) : b.view.live = allocations b.geometry.offset bs := by
  rw [view, h.table.blocks_eq]

/-- **The view determines where all blocks lie**, and which of them are in use. -/
theorem layout_eq {cs : List Block} (hb : b.Holds bs) (hc : c.Holds cs) (h : b.view = c.view) :
    layout bs = layout cs := by
  have hl := congrArg View.live h
  rw [hb.live_eq, hc.live_eq] at hl
  have hg : b.geometry = c.geometry := congrArg View.geometry h
  have hs : b.shrunk = c.shrunk := congrArg View.shrunk h
  have ht := hc.tiles
  rw [hc.account, ← hg, ← hb.account, ← hs] at ht
  rw [← hg] at hl
  exact layout_unique hb.tiles ht hb.separated hc.separated
    (liveRanges_eq_of_allocations hb.tiles ht hl)

theorem usable_eq (h : b.Holds bs) : b.view.usable = b.usable := by
  have := h.account
  simp only [View.usable, view]
  omega

/-- A block lies in what is not cut off. -/
theorem bounds (h : b.Holds bs) (hk : k ∈ bs) :
    b.shrunk ≤ k.address ∧ 0 < k.size ∧ k.address + k.size ≤ b.geometry.size := by
  rw [← h.account]
  exact h.tiles.bounds hk

/-- A block ends at an address, also as the caller sees it. -/
theorem in_range (h : b.Holds bs) (hk : k ∈ bs) :
    k.address + k.size + b.geometry.offset < Address.limit := by
  have := h.geometry.stop
  have := h.bounds hk
  omega

/-! ## The checks -/

theorem grant (h : b.Holds bs) (request : ℕ) : (b.grant request).result = b.view.grant request := by
  unfold Bank.grant View.grant
  rw [h.usable_eq, Traced.result_bind, Traced.result_lift]
  change _ = (b.geometry.grant request >>= fun o => .ok (o.filter (· ≤ b.usable)))
  congr 1
  funext o
  cases o.filter (· ≤ b.usable) <;> rfl

theorem grant_bounds (h : b.Holds bs) (hn : b.view.grant request = .ok (some n)) :
    0 < n ∧ n ≤ b.usable := by
  obtain ⟨hg, hle⟩ := View.grant_some hn
  exact ⟨h.geometry.grant_pos hg, h.usable_eq ▸ hle⟩

/-- The limit on an address admits a place in a block, or else the answer is a refusal. -/
theorem placeIn (h : b.Holds bs) (hk : k ∈ bs) (hn : n ≤ k.size) (p : Placement) :
    ((b.placeIn k.index n p).result = .ok (k.inset n p.direction) ∧ b.view.answerIn k n p =
      .ok (.placed (k.address + k.inset n p.direction + b.geometry.offset))) ∨
    ∃ e, (b.placeIn k.index n p).result = .error e ∧ b.view.answerIn k n p = .error e := by
  have hi := Block.inset_add_le hn p.direction
  have hr := h.in_range hk
  have ho : b.offsetIn k.index n p.direction = .ok (k.inset n p.direction) := by
    unfold Bank.offsetIn Block.inset
    cases p.direction with
    | bottomUp => rfl
    | topDown => rw [h.table.size hk, ok_bind, Address.sub_of_le hn]
  unfold Bank.placeIn View.answerIn
  simp only [Traced.result_bind, Traced.result_lift, ho, ok_bind]
  cases p.limit with
  | none => exact .inl ⟨rfl, rfl⟩
  | some limit =>
    simp only [Traced.result_bind, Traced.result_lift, h.table.address hk, ok_bind,
      Geometry.toAbsolute, Address.add_of_lt (show k.address + k.inset n p.direction < _ by omega),
      Address.add_of_lt (show k.address + k.inset n p.direction + b.geometry.offset < _ by omega)]
    change _ ∨ ∃ e, _ ∧ (if _ < limit then _ else _) = _
    split
    · exact .inl ⟨rfl, if_pos ‹_›⟩
    · exact .inr ⟨_, rfl, if_neg ‹_›⟩

/-- The vacant ranges are those inside a free block. -/
theorem vacant_iff (h : b.Holds bs) (hn : 0 < n) {a : ℕ} :
    b.view.Vacant (a + b.geometry.offset) n ↔
      ∃ k ∈ bs, k.allocated = false ∧ k.address ≤ a ∧ a + n ≤ k.address + k.size := by
  have hstart : b.view.start = b.geometry.offset + b.shrunk := rfl
  have hstop : b.view.stop = b.geometry.offset + (b.shrunk + b.usable) := by
    rw [h.account]
    rfl
  unfold View.Vacant
  rw [hstart, hstop, h.live_eq]
  constructor
  · rintro ⟨hs, ht, hv⟩
    obtain ⟨k, hk, hka, hak⟩ := h.tiles.exists_at (a := a) (by omega) (by omega)
    have apart : ∀ c ∈ bs, c.allocated = true →
        c.address + c.size ≤ a ∨ a + n ≤ c.address := fun c hc hl => by
      have := hv (c.address + b.geometry.offset, c.size) (mem_allocations.2 ⟨c, hc, hl, rfl, rfl⟩)
      dsimp only at this
      omega
    have hf : k.allocated = false := by
      by_contra hl
      have := apart k hk (by simpa using hl)
      omega
    refine ⟨k, hk, hf, hka, ?_⟩
    rcases h.tiles.after_free h.separated hk hf with he | ⟨c, hc, hl, he⟩
    · omega
    · have := apart c hc hl
      have := h.bounds hc
      omega
  · rintro ⟨k, hk, hf, hka, hak⟩
    have := h.tiles.bounds hk
    refine ⟨by omega, by omega, fun r hr => ?_⟩
    obtain ⟨c, hc, hl, hca, hcs⟩ := mem_allocations.1 hr
    have hne : c ≠ k := fun e => by simp [e, hf] at hl
    have := h.tiles.disjoint hc hk hne
    omega

/-- The search for a range finds the free block around it exactly where the range is vacant. -/
theorem locate (h : b.Holds bs) (hn : 0 < n) (address : ℕ) :
    (∃ k ∈ bs, ∃ a, k.allocated = false ∧ k.address ≤ a ∧ a + n ≤ k.address + k.size ∧
      a + b.geometry.offset = address ∧ (b.locate address n).result = .ok (some (k, a)) ∧
      b.view.answerAt address n = .placed address) ∨
    ((b.locate address n).result = .ok none ∧ b.view.answerAt address n = .noRoom) := by
  unfold Bank.locate View.answerAt
  have hg : b.view.geometry = b.geometry := rfl
  rw [hg]
  cases ha : b.geometry.toRelative? address with
  | none =>
    have hlt := Address.sub?_eq_none_iff.1 ha
    exact .inr ⟨rfl, if_neg fun hv => absurd hv.1 (by omega)⟩
  | some a =>
    have hao : b.geometry.offset + a = address := Address.sub?_eq_some_iff.1 ha
    have hsub : address - b.geometry.offset = a := by omega
    rw [hsub]
    simp only [Traced.result_bind, Traced.result_lift,
      Address.mod_of_pos h.geometry.alignment_pos, ok_bind]
    by_cases hal : a % b.geometry.alignment = 0
    case neg =>
      rw [if_pos hal, if_neg fun hv => hal hv.2.1]
      exact .inr ⟨rfl, rfl⟩
    rw [if_neg (not_not.2 hal)]
    simp only [Traced.result_bind, Traced.result_lift]
    have hl : b.shrunk + b.usable < Address.limit := by
      have := h.geometry.stop
      have := h.account
      omega
    have hv := h.vacant_iff hn (a := a)
    rw [show a + b.geometry.offset = address by omega] at hv
    rcases h.table.findContaining h.tiles hl a n with ⟨k, hk, hka, hak, hr⟩ | ⟨hno, hr⟩
    · rw [hr, ok_bind]
      dsimp only
      cases hf : k.allocated with
      | true =>
        refine .inr ⟨rfl, if_neg fun hvac => ?_⟩
        obtain ⟨c, hc, hcf, hca, hac⟩ := hv.1 hvac.2.2
        have hne : c ≠ k := fun e => by simp [e, hf] at hcf
        have := h.tiles.disjoint hc hk hne
        omega
      | false =>
        exact .inl ⟨k, hk, a, hf, hka, hak, by omega, rfl,
          if_pos ⟨by omega, hal, hv.2 ⟨k, hk, hf, hka, hak⟩⟩⟩
    · rw [hr, ok_bind]
      refine .inr ⟨rfl, if_neg fun hvac => ?_⟩
      obtain ⟨k, hk, -, hka, hak⟩ := hv.1 hvac.2.2
      have := hno k hk hka
      omega

/-- An address is allocated where a block in use begins. -/
theorem exists_live_iff (h : b.Holds bs) {address : ℕ} :
    (∃ r ∈ b.view.live, r.1 = address) ↔
      ∃ k ∈ bs, k.allocated = true ∧ k.address + b.geometry.offset = address := by
  rw [h.live_eq]
  constructor
  · rintro ⟨r, hr, rfl⟩
    obtain ⟨k, hk, hl, ha, -⟩ := mem_allocations.1 hr
    exact ⟨k, hk, hl, ha⟩
  · rintro ⟨k, hk, hl, ha⟩
    exact ⟨(k.address + b.geometry.offset, k.size), mem_allocations.2 ⟨k, hk, hl, rfl, rfl⟩, ha⟩

/-- The lowest allocated address is that of the first block in use. -/
theorem lowest_eq (h : b.Holds bs) :
    b.view.lowest? = (bs.find? (·.allocated)).map (·.address + b.geometry.offset) := by
  have hs : (((liveRanges bs).map fun r => (r.1 + b.geometry.offset, r.2)).map (·.1)).Pairwise
      (· < ·) := by
    rw [List.map_map, List.pairwise_map]
    refine h.tiles.pairwise_liveRanges.imp fun {r r'} hr => ?_
    dsimp only [Function.comp]
    omega
  rw [View.lowest?_eq h.live_eq hs, List.head?_map, liveRanges, List.head?_map, List.head?_filter]
  simp [Option.map_map, Function.comp_def]

section Cut

variable {amount : ℕ}

/-- A cut lands in a free lowest block, or meets the lowest block in use. -/
theorem landing_cases (h : b.Holds bs) (ha : 0 < amount) (hle : amount ≤ b.usable) :
    (∃ k ys, bs = k :: ys ∧ k.allocated = false ∧ amount ≤ k.size ∧
      landing amount bs = .lands k.index) ∨
    ∃ k, bs.find? (·.allocated) = some k ∧ k.address < b.shrunk + amount ∧
      landing amount bs = .blocked k.address := by
  cases bs with
  | nil =>
    have : b.shrunk = b.shrunk + b.usable := h.tiles
    omega
  | cons k ys =>
    obtain ⟨hk, hpos, hy⟩ := id h.tiles
    cases hf : k.allocated with
    | true => exact .inr ⟨k, by simp [hf], by omega, if_pos hf⟩
    | false =>
      rcases Nat.lt_or_ge k.size amount with hlt | hge
      · cases ys with
        | nil =>
          have : b.shrunk + k.size = b.shrunk + b.usable := hy
          omega
        | cons c ys =>
          have hs : Separated ([] ++ k :: c :: ys) := h.separated
          have hc : c.allocated = true := (hs.beside_free hf).2 c rfl
          have hca : c.address = b.shrunk + k.size := hy.1
          exact .inr ⟨c, by simp [hf, hc], by omega, by simp [landing, hf, not_le.2 hlt]⟩
      · exact .inl ⟨k, ys, rfl, hf, hge, by simp [landing, hf, hge]⟩

/-- A cut that reaches the lowest block in use is refused. -/
theorem cut_blocked (h : b.Holds bs) (hle : amount ≤ b.usable)
    (hk : bs.find? (·.allocated) = some k) (hreach : k.address < b.shrunk + amount)
    (hland : landing amount bs = .blocked k.address) : ∃ e,
    (b.shrinkTarget amount .bottomUp).result = .error e ∧
      b.view.answerCut amount .bottomUp = .error e := by
  have hkr := h.in_range (List.mem_of_find?_eq_some hk)
  have hcut := h.table.frontCut amount fun a ha => by
    have := h.in_range ha
    omega
  have hto : b.geometry.toAbsolute k.address = .ok (k.address + b.geometry.offset) :=
    Address.add_of_lt (by omega)
  have hstart : b.view.start = b.geometry.offset + b.shrunk := rfl
  have hlow : b.view.lowest?.filter (· < b.view.start + amount) =
      some (k.address + b.geometry.offset) := by
    rw [h.lowest_eq, hk, hstart, Option.map_some, Option.filter_some, if_pos (by simp; omega)]
  refine ⟨.misuse (.shrinkCutsIntoAllocation amount (k.address + b.geometry.offset)), ?_, ?_⟩
  · unfold Bank.shrinkTarget
    simp only [if_pos hle, Traced.result_bind, Traced.result_lift, hcut, ok_bind, hland, hto,
      Traced.result_refuse]
  · unfold View.answerCut
    simp only [h.usable_eq, if_pos hle, hlow]

/-- A cut that stays below all blocks in use is admitted. -/
theorem answerCut_done (h : b.Holds bs) (hle : amount ≤ b.usable)
    (hbelow : ∀ c ∈ bs, c.allocated = true → b.shrunk + amount ≤ c.address) :
    b.view.answerCut amount .bottomUp = .ok .done := by
  have hstart : b.view.start = b.geometry.offset + b.shrunk := rfl
  have hlow : b.view.lowest?.filter (· < b.view.start + amount) = none := by
    rw [h.lowest_eq, hstart, Option.filter_eq_none_iff]
    intro a ha
    obtain ⟨c, hc, rfl⟩ := Option.map_eq_some_iff.1 ha
    have := hbelow c (List.mem_of_find?_eq_some hc) (List.find?_some hc)
    simp only [decide_eq_true_eq]
    omega
  unfold View.answerCut
  simp only [h.usable_eq, if_pos hle, hlow]

/-- A cut lands in the lowest block exactly where the contract admits it. -/
theorem shrinkTarget (h : b.Holds bs) (ha : 0 < amount) (d : Direction) :
    (∃ k ys, bs = k :: ys ∧ k.allocated = false ∧ amount ≤ k.size ∧
      (b.shrinkTarget amount d).result = .ok k.index ∧ b.view.answerCut amount d = .ok .done) ∨
    ∃ e, (b.shrinkTarget amount d).result = .error e ∧ b.view.answerCut amount d = .error e := by
  cases d with
  | topDown => exact .inr ⟨_, rfl, rfl⟩
  | bottomUp =>
    by_cases hle : amount ≤ b.usable
    case neg =>
      unfold Bank.shrinkTarget View.answerCut
      rw [h.usable_eq, if_neg hle, if_neg hle]
      exact .inr ⟨_, rfl, rfl⟩
    rcases h.landing_cases ha hle with ⟨k, ys, rfl, hf, hge, hland⟩ | ⟨k, hk, hreach, hland⟩
    · have hcut := h.table.frontCut amount fun a ha => by
        have := h.in_range ha
        omega
      obtain ⟨hk, -, hy⟩ := id h.tiles
      refine .inl ⟨k, ys, rfl, hf, hge, ?_, h.answerCut_done hle fun c hc hl => ?_⟩
      · unfold Bank.shrinkTarget
        simp only [if_pos hle, Traced.result_bind, Traced.result_lift, hcut, ok_bind, hland]
        rfl
      · rcases List.mem_cons.1 hc with rfl | hc
        · rw [hf] at hl
          cases hl
        · have := hy.bounds hc
          omega
    · exact .inr (h.cut_blocked hle hk hreach hland)

end Cut

end Holds

end Bank

end MemoryBank
