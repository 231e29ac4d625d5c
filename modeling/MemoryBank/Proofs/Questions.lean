import MemoryBank.Proofs.Consistency
import MemoryBank.Proofs.Rounding

/-!
# Questions

What a bank is asked besides requests, and what it answers if all is well with it: no sum leaves the
address space.

* `Usage.Counted`: what an account of the blocks has in use and free.
* `Bank.Holds.freeRanges_eq`, `Bank.Holds.availableAddresses_ok`, `Bank.Holds.lowestOccupied_eq`,
  `Bank.Holds.usage_eq` and `Bank.Holds.usage_ok`: the questions are answered.
* `Allocator.Sound.audit_eq`: nothing is found wrong.
-/

namespace MemoryBank

/-! ## How a bank is used -/

section Usage

variable {g : Geometry} {u u₁ u₂ : Usage} {k : Block} {bs cs : List Block}

/-- One account takes some more blocks into account than the other. -/
structure Usage.Counted (u : Usage) (bs : List Block) (u' : Usage) : Prop where
  allocatable : u'.allocatable = u.allocatable
  allocated : u'.allocated = u.allocated + bytes (bs.filter (·.allocated))
  free : u'.free = u.free + bytes (bs.filter fun b => !b.allocated)

namespace Usage.Counted

theorem refl (u : Usage) : u.Counted [] u := ⟨rfl, rfl, rfl⟩

theorem append (h : u.Counted bs u₁) (h' : u₁.Counted cs u₂) : u.Counted (bs ++ cs) u₂ where
  allocatable := h'.allocatable.trans h.allocatable
  allocated := by rw [h'.allocated, h.allocated, List.filter_append, bytes_append, Nat.add_assoc]
  free := by rw [h'.free, h.free, List.filter_append, bytes_append, Nat.add_assoc]

/-- What is in use and what is free make up all bytes. -/
theorem total (h : u.Counted bs u₁) :
    u₁.allocated + u₁.free = u.allocated + u.free + bytes bs := by
  rw [h.allocated, h.free, bytes_eq bs]
  omega

end Usage.Counted

theorem Usage.countLargest_ok (ho : k.address + g.offset < Address.limit) :
    ∃ u', u.countLargest g k = .ok u' ∧ u'.allocatable = u.allocatable ∧
      u'.allocated = u.allocated ∧ u'.free = u.free := by
  unfold Usage.countLargest Geometry.toAbsolute
  rw [Address.add_of_lt ho]
  dsimp only
  split <;> split <;> exact ⟨_, rfl, rfl, rfl, rfl⟩

/-- One more block is taken into account. -/
theorem Usage.count_ok (ho : k.address + g.offset < Address.limit)
    (ht : u.allocated + u.free + k.size < Address.limit) :
    ∃ u', u.count g k = .ok u' ∧ u.Counted [k] u' := by
  unfold Usage.count
  cases hk : k.allocated with
  | true =>
    rw [Address.add_of_lt (show u.allocated + k.size < _ by omega)]
    exact ⟨_, rfl, rfl, by simp [bytes, hk], by simp [bytes, hk]⟩
  | false =>
    obtain ⟨u', hu, ha, hl, hf⟩ :=
      Usage.countLargest_ok (u := { u with free := u.free + k.size }) ho
    rw [Address.add_of_lt (show u.free + k.size < _ by omega)]
    exact ⟨u', hu, ha, by simp [hl, bytes, hk], by simp [hf, bytes, hk]⟩

/-- All blocks of a list are taken into account. -/
theorem Usage.counts_ok (ho : ∀ k ∈ bs, k.address + g.offset < Address.limit)
    (ht : u.allocated + u.free + bytes bs < Address.limit) :
    ∃ u', bs.foldlM (Usage.count g) u = .ok u' ∧ u.Counted bs u' := by
  induction bs generalizing u with
  | nil => exact ⟨u, rfl, .refl u⟩
  | cons k bs ih =>
    rw [bytes] at ht
    obtain ⟨u₁, hu₁, hc₁⟩ := Usage.count_ok (u := u) (ho k List.mem_cons_self) (by omega)
    have htotal : u₁.allocated + u₁.free = u.allocated + u.free + (k.size + 0) := hc₁.total
    obtain ⟨u₂, hu₂, hc₂⟩ := ih (u := u₁) (fun c hc => ho c (List.mem_cons_of_mem _ hc)) (by omega)
    refine ⟨u₂, ?_, hc₁.append hc₂⟩
    rw [List.foldlM_cons, hu₁]
    exact hu₂

end Usage

/-! ## A bank's answers -/

theorem View.grant_ok {v : View} (h : v.geometry.Sound) (hm : v.geometry.minimum < Address.limit)
    {request : ℕ} (hr : request < Address.limit) : ∃ o, v.grant request = .ok o := by
  obtain ⟨o, ho⟩ := h.grant_ok hm hr
  exact ⟨_, by rw [View.grant, ho]; rfl⟩

namespace Bank.Holds

variable {b : Bank} {bs : List Block} {k : Block}

theorem range_eq (h : b.Holds bs) (hk : k ∈ bs) :
    b.range k = .ok (k.address + b.geometry.offset, k.address + k.size + b.geometry.offset) := by
  have hr := h.in_range hk
  unfold Bank.range Geometry.toAbsolute Block.stop
  rw [Address.add_of_lt (show k.address + b.geometry.offset < _ by omega),
    Address.add_of_lt (show k.address + k.size < _ by omega), ok_bind, ok_bind,
    Address.add_of_lt hr]
  rfl

theorem ranges_eq (h : b.Holds bs) {ks : List Block} (hk : ∀ k ∈ ks, k ∈ bs) :
    ks.mapM b.range = .ok (ks.map fun k =>
      (k.address + b.geometry.offset, k.address + k.size + b.geometry.offset)) := by
  induction ks with
  | nil => rfl
  | cons k ks ih =>
    rw [List.mapM_cons, h.range_eq (hk k List.mem_cons_self),
      ih fun c hc => hk c (List.mem_cons_of_mem _ hc)]
    rfl

/-- **The free ranges**, as the caller sees them. -/
theorem freeRanges_eq (h : b.Holds bs) (n : ℕ) :
    b.freeRanges n = .ok ((b.candidates n).map fun k =>
      (k.address + b.geometry.offset, k.address + k.size + b.geometry.offset)) := by
  have hmem : ∀ k ∈ b.candidates n, k ∈ bs := fun _ hk =>
    h.table.blocks_eq ▸ List.mem_of_mem_filter hk
  rw [Bank.freeRanges, h.ranges_eq hmem, h.table.exhaust_eq]
  rfl

/-- What exceeds what can be used is not granted. -/
theorem grant_filter (h : b.Holds bs) {request : ℕ} {o : Option ℕ}
    (ho : b.geometry.grant request = .ok o) :
    b.view.grant request = .ok (o.filter (· ≤ b.usable)) := by
  have hgeometry : b.view.geometry = b.geometry := rfl
  rw [View.grant, hgeometry, h.usable_eq, ho]
  rfl

theorem availableAddresses_of_none (h : b.Holds bs) {request : ℕ}
    (hg : b.view.grant request = .ok none) : (b.availableAddresses request).result = .ok [] := by
  unfold Bank.availableAddresses
  rw [Traced.result_bind, h.grant, hg]
  rfl

/-- **The ranges that could hold a request.** -/
theorem availableAddresses_of_some (h : b.Holds bs) {request n : ℕ}
    (hg : b.view.grant request = .ok (some n)) :
    (b.availableAddresses request).result = .ok ((b.candidates n).map fun k =>
      (k.address + b.geometry.offset, k.address + k.size + b.geometry.offset)) := by
  unfold Bank.availableAddresses
  rw [Traced.result_bind, h.grant, hg]
  exact h.freeRanges_eq n

/-- It is always told where memory is available. -/
theorem availableAddresses_ok (h : b.Holds bs) (hm : b.geometry.minimum < Address.limit)
    {request : ℕ} (hr : request < Address.limit) :
    ∃ ranges, (b.availableAddresses request).result = .ok ranges := by
  obtain ⟨o, ho⟩ := View.grant_ok (v := b.view) h.geometry hm hr
  cases o with
  | none => exact ⟨[], h.availableAddresses_of_none ho⟩
  | some n => exact ⟨_, h.availableAddresses_of_some ho⟩

/-- **The lowest allocated address.** -/
theorem lowestOccupied_eq (h : b.Holds bs) : b.lowestOccupied = .ok b.view.lowest? := by
  rw [h.lowest_eq, Bank.lowestOccupied, h.table.blocks_eq]
  cases hk : bs.find? (·.allocated) with
  | none =>
    dsimp only
    rw [h.table.exhaust_eq]
    rfl
  | some k =>
    have hr := h.in_range (List.mem_of_find?_eq_some hk)
    dsimp only
    rw [Geometry.toAbsolute, Address.add_of_lt (by omega)]
    rfl

/-- The account of use goes through all blocks. -/
theorem usage_eq (h : b.Holds bs) :
    b.usage = bs.foldlM (Usage.count b.geometry) { allocatable := b.usable } := by
  rw [Bank.usage, h.table.blocks_eq, h.table.exhaust_eq]
  exact bind_pure _

/-- It is always told how a bank is used: the bytes in use and the free ones make up what is
usable. -/
theorem usage_ok (h : b.Holds bs) : ∃ u, b.usage = .ok u ∧
    Usage.Counted { allocatable := b.usable } bs u ∧ u.allocated + u.free = b.usable := by
  have hbytes := h.tiles.add_bytes
  have hstop := h.geometry.stop
  have hacc := h.account
  have hin : ∀ k ∈ bs, k.address + b.geometry.offset < Address.limit := fun k hk => by
    have := h.in_range hk
    omega
  obtain ⟨u, hu, hc⟩ :=
    Usage.counts_ok (u := { allocatable := b.usable }) hin (by dsimp only; omega)
  have htotal := hc.total
  dsimp only at htotal
  exact ⟨u, h.usage_eq.trans hu, hc, by omega⟩

end Bank.Holds

/-- **Nothing is found wrong** with a sound allocator. -/
theorem Allocator.Sound.audit_eq {a : Allocator} (h : a.Sound) : a.audit = .ok {} := by
  cases a with
  | linear a => exact Bank.Holds.audit_eq h
  | indexed a =>
    obtain ⟨c, classes, hc, rfl⟩ := h
    exact (hc.consistent classes).audit_eq hc.bank.geometry

end MemoryBank
