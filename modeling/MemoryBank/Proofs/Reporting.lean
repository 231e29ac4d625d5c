import MemoryBank.Proofs.Cutting
import MemoryBank.Proofs.Gaps

/-!
# What a bank reports of its gaps

The questions to a bank are about blocks. What they come to is about the gaps that the live
allocations leave, and about the allocations themselves: `Bank.Reports`.

* `Usage.Ranks`: an account of some blocks knows the size of the largest free ones, and where they
  are. One more block keeps that (`Ranks.count`), and so do all of them (`Ranks.counts`).
* `Allocator.Reached.reports_gaps`: every answer is right, wherever a run has led.
-/

namespace MemoryBank

/-! ## The largest free blocks -/

/-- The account knows the size of the largest free blocks, or zero if there is none, and where the
blocks of that size are. -/
structure Usage.Ranks (u : Usage) (offset : ℕ) (bs : List Block) : Prop where
  le : ∀ k ∈ bs, k.allocated = false → k.size ≤ u.largest
  attained : u.largest = 0 ∨ ∃ k ∈ bs, k.allocated = false ∧ k.size = u.largest
  addresses : u.largestAddresses =
    (bs.filter fun k => !k.allocated && decide (k.size = u.largest)).map (·.address + offset)

namespace Usage.Ranks

variable {g : Geometry} {u u' : Usage} {k : Block} {bs cs : List Block} {offset start stop : ℕ}

theorem start_empty (usable offset : ℕ) : Usage.Ranks { allocatable := usable } offset [] :=
  ⟨nofun, .inl rfl, rfl⟩

/-- A block in use makes no difference, and neither does one that is smaller than the largest. -/
theorem pass (h : u.Ranks offset bs) (hk : k.allocated = false → k.size < u.largest) :
    u.Ranks offset (bs ++ [k]) where
  le := List.forall_mem_append.2 ⟨h.le, List.forall_mem_singleton.2 fun hf => (hk hf).le⟩
  attained := h.attained.imp_right fun ⟨c, hc, hf⟩ => ⟨c, List.mem_append_left _ hc, hf⟩
  addresses := by
    have hnone : ([k].filter fun k => !k.allocated && decide (k.size = u.largest)) = [] := by
      simpa [List.filter_eq_nil_iff] using fun hf => (hk hf).ne
    rw [h.addresses, List.filter_append, hnone, List.append_nil]

/-- A free block takes the place of the largest, or joins them, or is smaller. -/
theorem countLargest (h : u.Ranks g.offset bs) (hf : k.allocated = false)
    (hc : u.countLargest g k = .ok u') : u'.Ranks g.offset (bs ++ [k]) := by
  have hk : k ∈ bs ++ [k] := by simp
  unfold Usage.countLargest at hc
  rcases Nat.lt_trichotomy u.largest k.size with hlt | heq | hgt
  · simp only [if_pos hlt, if_pos] at hc
    obtain ⟨address, haddress, e⟩ := bind_eq_ok_iff.1 hc
    cases e
    obtain ⟨rfl, -⟩ := Address.add_eq_ok_iff.1 haddress
    -- no block so far has the new size
    have hnone : (bs.filter fun c => !c.allocated && decide (c.size = k.size)) = [] := by
      rw [List.filter_eq_nil_iff]
      intro c hc hboth
      simp only [Bool.and_eq_true, Bool.not_eq_true', decide_eq_true_eq] at hboth
      have := h.le c hc hboth.1
      omega
    refine ⟨List.forall_mem_append.2 ⟨fun c hc hcf => (h.le c hc hcf).trans hlt.le, by simp⟩,
      .inr ⟨k, hk, hf, rfl⟩, ?_⟩
    rw [List.filter_append, hnone]
    simp [hf]
  · simp only [if_neg heq.not_lt, if_pos heq.symm] at hc
    obtain ⟨address, haddress, e⟩ := bind_eq_ok_iff.1 hc
    cases e
    obtain ⟨rfl, -⟩ := Address.add_eq_ok_iff.1 haddress
    refine ⟨List.forall_mem_append.2 ⟨h.le, by simp [heq]⟩, .inr ⟨k, hk, hf, heq.symm⟩, ?_⟩
    rw [List.filter_append, List.map_append, ← h.addresses]
    simp [hf, heq]
  · simp only [if_neg hgt.not_gt, if_neg hgt.ne] at hc
    cases hc
    exact h.pass fun _ => hgt

theorem count (h : u.Ranks g.offset bs) (hc : u.count g k = .ok u') :
    u'.Ranks g.offset (bs ++ [k]) := by
  unfold Usage.count at hc
  cases hk : k.allocated with
  | true =>
    rw [if_pos hk] at hc
    obtain ⟨allocated, -, e⟩ := bind_eq_ok_iff.1 hc
    cases e
    exact pass ⟨h.le, h.attained, h.addresses⟩ (by simp [hk])
  | false =>
    rw [if_neg (by simp [hk])] at hc
    obtain ⟨free, -, hc⟩ := bind_eq_ok_iff.1 hc
    have h' : Usage.Ranks { u with free } g.offset bs := ⟨h.le, h.attained, h.addresses⟩
    exact h'.countLargest hk hc

/-- **All blocks of a list** are taken into account. -/
theorem counts (h : u.Ranks g.offset bs) (hc : cs.foldlM (Usage.count g) u = .ok u') :
    u'.Ranks g.offset (bs ++ cs) := by
  induction cs generalizing u bs with
  | nil =>
    cases hc
    rwa [List.append_nil]
  | cons k cs ih =>
    rw [List.foldlM_cons] at hc
    obtain ⟨u₁, hu₁, hc⟩ := bind_eq_ok_iff.1 hc
    simpa using ih (h.count hu₁) hc

/-! ### In terms of gaps -/

theorem largest_eq_zero (h : u.Ranks offset bs) (hnil : freeSpans offset bs = []) :
    u.largest = 0 := by
  refine h.attained.resolve_right ?_
  rintro ⟨k, hk, hf, -⟩
  have : k.range offset ∈ freeSpans offset bs := mem_freeSpans.2 ⟨k, hk, hf, rfl⟩
  simp [hnil] at this

theorem isGreatest (h : u.Ranks offset bs) (ht : Tiles start bs stop)
    (hne : freeSpans offset bs ≠ []) :
    IsGreatest {n | ∃ r ∈ freeSpans offset bs, r.2 - r.1 = n} u.largest := by
  obtain ⟨r, hr⟩ := List.exists_mem_of_ne_nil _ hne
  obtain ⟨k, hk, hf, rfl⟩ := mem_freeSpans.1 hr
  have hpos := (ht.bounds hk).2.1
  have hle := h.le k hk hf
  constructor
  · obtain ⟨c, hc, hcf, hsize⟩ := h.attained.resolve_left (by omega)
    exact ⟨c.range offset, mem_freeSpans.2 ⟨c, hc, hcf, rfl⟩, by rw [Block.size_range, hsize]⟩
  · rintro n ⟨r, hr, rfl⟩
    obtain ⟨c, hc, hcf, rfl⟩ := mem_freeSpans.1 hr
    rw [Block.size_range]
    exact h.le c hc hcf

theorem addresses_eq (h : u.Ranks offset bs) : u.largestAddresses =
    ((freeSpans offset bs).filter fun r => r.2 - r.1 = u.largest).map (·.1) := by
  rw [filter_freeSpans fun n => decide (n = u.largest), List.map_map, h.addresses]
  rfl

end Usage.Ranks

/-! ## Lists of gaps -/

section Lists

variable {gaps : List (ℕ × ℕ)} {n largest : ℕ}

/-- There is a range that is long enough exactly if the longest is. -/
theorem filter_ne_nil_iff (hn : 0 < n) (hnil : gaps = [] → largest = 0)
    (hgreatest : gaps ≠ [] → IsGreatest {n | ∃ r ∈ gaps, r.2 - r.1 = n} largest) :
    gaps.filter (fun r => n ≤ r.2 - r.1) ≠ [] ↔ n ≤ largest := by
  rw [Ne, List.filter_eq_nil_iff]
  push Not
  simp only [decide_eq_true_eq]
  constructor
  · rintro ⟨r, hr, hle⟩
    exact hle.trans ((hgreatest (List.ne_nil_of_mem hr)).2 ⟨r, hr, rfl⟩)
  · intro hle
    have hne : gaps ≠ [] := fun he => by
      have := hnil he
      omega
    obtain ⟨r, hr, hlen⟩ := (hgreatest hne).1
    exact ⟨r, hr, hlen ▸ hle⟩

/-- Of the ranges just the longest are as long as the longest. -/
theorem filter_longest (hle : ∀ r ∈ gaps, r.1 ≤ r.2)
    (hgreatest : gaps ≠ [] → IsGreatest {n | ∃ r ∈ gaps, r.2 - r.1 = n} largest) :
    gaps.filter (fun r => largest ≤ r.2 - r.1) =
      ((gaps.filter fun r => r.2 - r.1 = largest).map (·.1)).map fun x => (x, x + largest) := by
  have hlongest : gaps.filter (fun r => largest ≤ r.2 - r.1) =
      gaps.filter fun r => r.2 - r.1 = largest := by
    refine List.filter_congr fun r hr => ?_
    have : r.2 - r.1 ≤ largest := (hgreatest (List.ne_nil_of_mem hr)).2 ⟨r, hr, rfl⟩
    rw [decide_eq_decide]
    omega
  rw [hlongest, List.map_map]
  refine ((List.map_congr_left fun r hr => ?_).trans (List.map_id _)).symm
  obtain ⟨hr, hlen⟩ := List.mem_filter.1 hr
  have hlen : r.2 - r.1 = largest := by simpa using hlen
  have := hle r hr
  exact Prod.ext rfl (by dsimp only [Function.comp, id]; omega)

end Lists

/-! ## All answers -/

/-- What a bank reports, where `live` are its allocations and `gaps` what these leave. The account
of how it is used is `u`. -/
structure Bank.Reports (b : Bank) (live : Finset (ℕ × ℕ)) (gaps : List (ℕ × ℕ)) (u : Usage) :
    Prop where
  /-- The gaps that are long enough for what a request is granted are available for it, -/
  available : ∀ q < Address.limit, ∃ o, b.geometry.grant q = .ok o ∧
    (b.availableAddresses q).result =
      .ok (o.elim [] fun n => gaps.filter fun r => n ≤ r.2 - r.1)
  /-- and nothing is if that exceeds what can be used. -/
  exceeded : ∀ q n, b.geometry.grant q = .ok (some n) → b.usable < n →
    (b.availableAddresses q).result = .ok []
  usage : b.usage = .ok u
  allocatable : u.allocatable = b.usable
  total : u.allocated + u.free = b.usable
  allocated : u.allocated = ∑ r ∈ live, r.2
  largest : gaps ≠ [] → IsGreatest {n | ∃ r ∈ gaps, r.2 - r.1 = n} u.largest
  noGap : gaps = [] → u.largest = 0 ∧ u.largestAddresses = []
  largestAddresses : u.largestAddresses =
    (gaps.filter fun r => r.2 - r.1 = u.largest).map (·.1)
  ascending : u.largestAddresses.Pairwise (· < ·)
  lowest : ∃ o, b.lowestOccupied = .ok o ∧ (o = none ↔ live = ∅) ∧
    ∀ x ∈ o, IsLeast {y | ∃ r ∈ live, r.1 = y} x
  /-- Something is available unless more is granted than the largest gap has. -/
  foretold : ∀ q n ranges, b.geometry.grant q = .ok (some n) →
    (b.availableAddresses q).result = .ok ranges →
    (ranges ≠ [] ↔ n ≤ u.largest) ∧
      (n = u.largest → ranges = u.largestAddresses.map fun x => (x, x + n))

namespace Bank.Holds

variable {b : Bank} {bs : List Block} {request n : ℕ}

theorem length_le_usable (h : b.Holds bs) :
    ∀ r ∈ freeSpans b.geometry.offset bs, r.1 ≤ r.2 ∧ r.2 - r.1 ≤ b.usable := by
  intro r hr
  obtain ⟨k, hk, -, rfl⟩ := mem_freeSpans.1 hr
  have := h.tiles.bounds hk
  rw [Block.size_range]
  exact ⟨by dsimp only [Block.range]; omega, by omega⟩

/-- **What is available** is told by the gaps. -/
theorem availableAddresses_eq (h : b.Holds bs) {o : Option ℕ}
    (ho : b.geometry.grant request = .ok o) : (b.availableAddresses request).result =
      .ok (o.elim [] fun n => (freeSpans b.geometry.offset bs).filter fun r => n ≤ r.2 - r.1) := by
  have hview := h.grant_filter ho
  cases hfit : o.filter (· ≤ b.usable) with
  | some n =>
    obtain ⟨rfl, -⟩ := Option.filter_eq_some_iff.1 hfit
    rw [hfit] at hview
    rw [h.availableAddresses_of_some hview, candidates, h.table.blocks_eq, Option.elim_some,
      filter_freeSpans fun m => decide (n ≤ m)]
    rfl
  | none =>
    rw [hfit] at hview
    rw [h.availableAddresses_of_none hview]
    cases o with
    | none => rfl
    | some n =>
      have hlt : ¬n ≤ b.usable := by simpa using Option.filter_eq_none_iff.1 hfit n rfl
      have hnil : ((freeSpans b.geometry.offset bs).filter fun r => n ≤ r.2 - r.1) = [] := by
        rw [List.filter_eq_nil_iff]
        intro r hr
        have := (h.length_le_usable r hr).2
        simp only [decide_eq_true_eq]
        omega
      rw [Option.elim_some, hnil]

/-- Callers are told the lowest live address, if there is one. -/
theorem lowestOccupied_isLeast (h : b.Holds bs) : ∃ o, b.lowestOccupied = .ok o ∧
    (o = none ↔ b.view.live = ∅) ∧ ∀ x ∈ o, IsLeast {y | ∃ r ∈ b.view.live, r.1 = y} x := by
  refine ⟨b.view.lowest?, h.lowestOccupied_eq, ?_, fun x hx => ?_⟩
  · rw [h.lowest_eq, Option.map_eq_none_iff, List.find?_eq_none, h.live_eq,
      Finset.eq_empty_iff_forall_notMem]
    constructor
    · intro hfree r hr
      obtain ⟨k, hk, hl, -⟩ := mem_allocations.1 hr
      exact hfree k hk hl
    · exact fun hempty k hk hl => hempty (k.address + b.geometry.offset, k.size)
        (mem_allocations.2 ⟨k, hk, hl, rfl, rfl⟩)
  · have hset : {y | ∃ r ∈ b.view.live, r.1 = y} =
        {y | ∃ k ∈ b.inUse, k.address + b.geometry.offset = y} := by
      ext y
      simp only [Set.mem_ofPred_eq, h.exists_live_iff, h.inUse_eq, List.mem_filter, and_assoc]
    rw [hset]
    exact h.lowest_isLeast hx

/-- **All answers of a bank.** -/
theorem reports (h : b.Holds bs) (hm : b.geometry.minimum < Address.limit) :
    ∃ u, b.Reports b.view.live (freeSpans b.geometry.offset bs) u := by
  obtain ⟨u, hu, hcounted, htotal⟩ := h.usage_ok
  have hranks : u.Ranks b.geometry.offset bs := by
    have hfold := hu
    rw [h.usage_eq] at hfold
    exact (Usage.Ranks.start_empty b.usable b.geometry.offset).counts hfold
  have hnil : freeSpans b.geometry.offset bs = [] → u.largest = 0 := hranks.largest_eq_zero
  have hgreatest := hranks.isGreatest h.tiles
  refine ⟨u, {
    available := fun q hq => ?_
    exceeded := fun q n hn hlt => ?_
    usage := hu
    allocatable := hcounted.allocatable
    total := htotal
    allocated := ?_
    largest := hgreatest
    noGap := fun he => ⟨hnil he, ?_⟩
    largestAddresses := hranks.addresses_eq
    ascending := ?_
    lowest := h.lowestOccupied_isLeast
    foretold := fun q n ranges hn hranges => ?_ }⟩
  · obtain ⟨o, ho⟩ := h.geometry.grant_ok hm hq
    exact ⟨o, ho, h.availableAddresses_eq ho⟩
  · refine h.availableAddresses_of_none ?_
    rw [h.grant_filter hn, Option.filter_some_neg (by simpa using hlt)]
  · rw [h.live_eq, sum_allocations h.tiles, hcounted.allocated, Nat.zero_add]
  · rw [hranks.addresses_eq, he]
    rfl
  · rw [hranks.addresses_eq, List.pairwise_map]
    exact (h.tiles.pairwise_freeSpans _).sublist List.filter_sublist
  · rw [h.availableAddresses_eq hn] at hranges
    obtain rfl := Except.ok.inj hranges
    refine ⟨filter_ne_nil_iff (h.geometry.grant_pos hn) hnil hgreatest, ?_⟩
    rintro rfl
    rw [hranks.addresses_eq]
    exact filter_longest (fun r hr => (h.length_le_usable r hr).1) hgreatest

end Bank.Holds

/-- **All questions are answered by the gaps that the live allocations leave**, wherever a run has
led. -/
theorem Allocator.Reached.reports_gaps {a : Allocator} {g : Geometry} {log : Log}
    (h : Reached g log a) (hm : g.minimum < Address.limit) :
    a.bank.shrunk = cutOff log ∧ a.bank.usable + cutOff log = g.size ∧
      (∃ gaps, GapsOf (View.mk g (cutOff log) (history g log)).vacantBytes gaps) ∧
      ∀ gaps, GapsOf (View.mk g (cutOff log) (history g log)).vacantBytes gaps →
        ∃ u, a.bank.Reports (history g log) gaps u := by
  have hb := h.sound.bank
  have hgaps := hb.gapsOf
  have hview : a.bank.view = ⟨g, cutOff log, history g log⟩ := h.view_eq
  obtain ⟨u, hreports⟩ := hb.reports (h.geometry.symm ▸ hm)
  rw [hview] at hgaps hreports
  refine ⟨h.shrunk, ?_, ⟨_, hgaps⟩, fun gaps hgaps' => ⟨u, hgaps'.unique hgaps ▸ hreports⟩⟩
  have := hb.account
  rw [h.geometry, h.shrunk] at this
  omega

/-- Two gaps are the longest, and the one between them is shorter. -/
theorem Allocator.reports_gaps_between_allocations : ∃ log a, Reached ⟨128, 4096, 16, 16⟩ log a ∧
    ∃ gaps u, GapsOf (View.mk ⟨128, 4096, 16, 16⟩ (cutOff log)
        (history ⟨128, 4096, 16, 16⟩ log)).vacantBytes gaps ∧
      a.bank.Reports (history ⟨128, 4096, 16, 16⟩ log) gaps u ∧ u.largest = 32 ∧
      u.largestAddresses = [4112, 4192] := by
  have h := Reached.of_serve (Design.build_linear (g := ⟨128, 4096, 16, 16⟩) (by decide) .first)
    [.shrink 16 .bottomUp, .allocateAt 4144 16, .allocateAt 4176 16]
    (by simp [Request.InRange, Address.limit]) rfl
  obtain ⟨-, -, ⟨gaps, hgaps⟩, hall⟩ := h.reports_gaps (by decide)
  obtain ⟨u, hu⟩ := hall gaps hgaps
  obtain rfl := Except.ok.inj (hu.usage.symm.trans rfl)
  exact ⟨_, _, h, gaps, _, hgaps, hu, rfl, rfl⟩

end MemoryBank
