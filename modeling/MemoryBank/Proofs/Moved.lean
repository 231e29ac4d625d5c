import MemoryBank.Proofs.Questions

/-!
# Banks at another place

A bank that is moved up by `d` bytes has the same blocks: addresses inside the bank count from its
start. Only callers see other addresses. Here every type has a function `moved` that adds `d` to the
addresses and limits in it, and to nothing else.

* `View.answer_moved`: by the contract, a moved request to a moved bank has the moved answer.
* `Bank.Holds.lowestOccupied_moved`, `Bank.Holds.availableAddresses_moved` and
  `Bank.Holds.usage_moved`: so it is with all questions.
-/

namespace MemoryBank

/-! ## Moving up -/

/-- The same bank, `d` bytes higher. -/
def Geometry.moved (g : Geometry) (d : ℕ) : Geometry := { g with offset := g.offset + d }

/-- The same blocks in a bank that starts `d` bytes higher. -/
def Bank.moved (b : Bank) (d : ℕ) : Bank := { b with geometry := b.geometry.moved d }

def Linear.moved (a : Linear) (d : ℕ) : Linear := { a with bank := a.bank.moved d }

def Indexed.moved (a : Indexed) (d : ℕ) : Indexed := { a with bank := a.bank.moved d }

/-- The same table, pool and indexes in a bank that starts `d` bytes higher. -/
def Allocator.moved (d : ℕ) : Allocator → Allocator
  | .linear a => .linear (a.moved d)
  | .indexed a => .indexed (a.moved d)

def Placement.moved (p : Placement) (d : ℕ) : Placement := { p with limit := p.limit.map (· + d) }

/-- The request that asks the same of a bank `d` bytes higher. -/
def Request.moved (d : ℕ) : Request → Request
  | .allocate size p => .allocate size (p.moved d)
  | .allocateAt address size => .allocateAt (address + d) size
  | .deallocate address => .deallocate (address + d)
  | .clear => .clear
  | .shrink amount direction => .shrink amount direction
  | .restore => .restore

/-- Amounts stay as they are. -/
def Misuse.moved (d : ℕ) : Misuse → Misuse
  | .invalidDeallocation address => .invalidDeallocation (address + d)
  | .shrinkCutsIntoAllocation amount address => .shrinkCutsIntoAllocation amount (address + d)
  | .addressLimitExceeded limit address => .addressLimitExceeded (limit + d) (address + d)
  | m => m

def Failure.moved (d : ℕ) : Failure → Failure
  | .misuse m => .misuse (m.moved d)
  | e => e

def Reply.moved (d : ℕ) : Reply → Reply
  | .placed address => .placed (address + d)
  | r => r

/-- An answer, or the failure to give one, as it is for a bank `d` bytes higher. -/
def movedAnswer (d : ℕ) : Except Failure Reply → Except Failure Reply
  | .ok reply => .ok (reply.moved d)
  | .error e => .error (e.moved d)

def Usage.moved (u : Usage) (d : ℕ) : Usage :=
  { u with largestAddresses := u.largestAddresses.map (· + d) }

/-- A range of bytes, `d` bytes higher. -/
def movedRange (d : ℕ) (r : ℕ × ℕ) : ℕ × ℕ := (r.1 + d, r.2 + d)

def View.moved (v : View) (d : ℕ) : View where
  geometry := v.geometry.moved d
  shrunk := v.shrunk
  live := v.live.image fun r => (r.1 + d, r.2)

variable {d : ℕ}

@[simp] theorem Linear.bank_moved (a : Linear) : (a.moved d).bank = a.bank.moved d := rfl

@[simp] theorem Indexed.bank_moved (a : Indexed) : (a.moved d).bank = a.bank.moved d := rfl

theorem Allocator.bank_moved (a : Allocator) : (a.moved d).bank = a.bank.moved d := by
  cases a <;> rfl

/-! ## The contract -/

theorem allocations_moved (offset : ℕ) (bs : List Block) : allocations (offset + d) bs =
    (allocations offset bs).image fun r => (r.1 + d, r.2) := by
  ext r
  simp only [Finset.mem_image, mem_allocations]
  constructor
  · rintro ⟨k, hk, hl, ha, hs⟩
    exact ⟨(k.address + offset, k.size), ⟨k, hk, hl, rfl, rfl⟩, Prod.ext (by dsimp only; omega) hs⟩
  · rintro ⟨r, ⟨k, hk, hl, ha, hs⟩, rfl⟩
    exact ⟨k, hk, hl, by dsimp only; omega, hs⟩

theorem Bank.view_moved (b : Bank) : (b.moved d).view = b.view.moved d := by
  simp only [Bank.view, Bank.moved, View.moved, Geometry.moved, allocations_moved]

namespace View

variable {v : View} {n : ℕ}

theorem lowest?_moved : (v.moved d).lowest? = v.lowest?.map (· + d) := by
  let up : ℕ ↪ ℕ := ⟨(· + d), fun _ _ => Nat.add_right_cancel⟩
  have hlive : (v.moved d).live.image (·.1) = (v.live.image (·.1)).map up := by
    rw [Finset.map_eq_image, View.moved, Finset.image_image, Finset.image_image]
    rfl
  have hsort := Finset.map_sort up (v.live.image (·.1)) (· ≤ ·) (· ≤ ·)
    fun a _ b _ => (Nat.add_le_add_iff_right (n := d)).symm
  rw [lowest?, hlive, ← hsort, List.head?_map]
  rfl

theorem answerIn_moved (k : Block) (p : Placement) :
    (v.moved d).answerIn k n (p.moved d) = movedAnswer d (v.answerIn k n p) := by
  unfold answerIn
  cases hl : p.limit with
  | none =>
    simp only [Placement.moved, hl, Option.map_none, View.moved, Geometry.moved, ← Nat.add_assoc]
    rfl
  | some limit =>
    simp only [Placement.moved, hl, Option.map_some, View.moved, Geometry.moved, ← Nat.add_assoc,
      Nat.add_lt_add_iff_right]
    split <;> rfl

theorem start_moved : (v.moved d).start = v.start + d := by
  simp only [start, View.moved, Geometry.moved]
  omega

theorem stop_moved : (v.moved d).stop = v.stop + d := by
  simp only [stop, View.moved, Geometry.moved]
  omega

theorem vacant_moved {address : ℕ} : (v.moved d).Vacant (address + d) n ↔ v.Vacant address n := by
  unfold Vacant
  rw [start_moved, stop_moved]
  refine and_congr (by omega) (and_congr (by omega) ?_)
  simp only [View.moved, Finset.forall_mem_image]
  exact forall₂_congr fun r _ => by omega

theorem answerAt_moved (address : ℕ) :
    (v.moved d).answerAt (address + d) n = (v.answerAt address n).moved d := by
  unfold answerAt
  simp only [vacant_moved]
  simp only [View.moved, Geometry.moved, Nat.add_le_add_iff_right, Nat.add_sub_add_right]
  split <;> rfl

theorem answerCut_moved (amount : ℕ) (direction : Direction) :
    (v.moved d).answerCut amount direction = movedAnswer d (v.answerCut amount direction) := by
  cases direction with
  | topDown => rfl
  | bottomUp =>
    have hfilter : (v.moved d).lowest?.filter (· < (v.moved d).start + amount) =
        (v.lowest?.filter (· < v.start + amount)).map (· + d) := by
      rw [lowest?_moved, start_moved]
      cases v.lowest? with
      | none => rfl
      | some address =>
        simp only [Option.map_some, Option.filter_some, Nat.add_right_comm _ d,
          Nat.add_lt_add_iff_right]
        split <;> rfl
    unfold answerCut
    simp only [hfilter]
    change (if amount ≤ v.usable then _ else _) = _
    split
    · cases v.lowest?.filter (· < v.start + amount) <;> rfl
    · rfl

/-- What keeps a bank from granting bytes has nothing to do with addresses. -/
theorem grant_error_moved {request : ℕ} {e : Failure} (h : v.grant request = .error e) :
    e.moved d = e := by
  have hround : roundUp (max request v.geometry.minimum) v.geometry.alignment = .error e := by
    unfold View.grant Geometry.grant Geometry.align at h
    cases hr : roundUp (max request v.geometry.minimum) v.geometry.alignment with
    | error e' =>
      rw [hr] at h
      cases h
      rfl
    | ok o =>
      rw [hr] at h
      cases h
  unfold roundUp Address.add at hround
  split at hround
  · cases hround
  · split at hround
    · cases hround
      rfl
    · split at hround <;> cases hround
      rfl

/-- Whatever is made of the bytes that are granted, it is enough to move that. -/
theorem grant_bind_moved {request : ℕ} {f f' : Option ℕ → Except Failure Reply}
    (h : ∀ o, f' o = movedAnswer d (f o)) :
    ((v.moved d).grant request >>= f') = movedAnswer d (v.grant request >>= f) := by
  change (v.grant request >>= f') = _
  cases hg : v.grant request with
  | error e =>
    rw [error_bind, error_bind, movedAnswer, grant_error_moved hg]
  | ok o => exact h o

/-- **By the contract, a moved request to a moved bank has the moved answer.** -/
theorem answer_moved (pick : ℕ → Option Block) (r : Request) :
    (v.moved d).answer pick (r.moved d) = movedAnswer d (v.answer pick r) := by
  cases r with
  | allocate size p =>
    refine grant_bind_moved fun o => ?_
    cases o with
    | none => rfl
    | some n =>
      cases hk : pick n with
      | none => simp only [hk]; rfl
      | some k => simpa only [hk] using answerIn_moved k p
  | allocateAt address size =>
    refine grant_bind_moved fun o => ?_
    cases o with
    | none => rfl
    | some n => exact congrArg Except.ok (answerAt_moved address)
  | deallocate address =>
    have hlive : (∃ r ∈ (v.moved d).live, r.1 = address + d) ↔ ∃ r ∈ v.live, r.1 = address := by
      simp [View.moved]
    simp only [Request.moved, answer, hlive]
    split <;> rfl
  | clear => rfl
  | shrink amount direction =>
    simp only [Request.moved, answer, answerCut_moved]
    split <;> rfl
  | restore => rfl

end View

/-! ## Questions -/

section Questions

variable {g : Geometry} {u : Usage} {k : Block} {b : Bank} {bs : List Block}

theorem Usage.countLargest_moved (ho : k.address + (g.offset + d) < Address.limit) :
    (u.moved d).countLargest (g.moved d) k = (u.countLargest g k).map (·.moved d) := by
  have habs : (g.moved d).toAbsolute k.address = .ok (k.address + g.offset + d) := by
    rw [Geometry.toAbsolute, Geometry.moved, Address.add_of_lt ho, Nat.add_assoc]
  have habs' : g.toAbsolute k.address = .ok (k.address + g.offset) := Address.add_of_lt (by omega)
  unfold Usage.countLargest
  rw [habs, habs']
  by_cases hlt : u.largest < k.size
  · have hlt' : (u.moved d).largest < k.size := hlt
    simp only [if_pos hlt, if_pos hlt']
    rfl
  · have hlt' : ¬(u.moved d).largest < k.size := hlt
    simp only [if_neg hlt, if_neg hlt']
    by_cases heq : k.size = u.largest
    · have heq' : k.size = (u.moved d).largest := heq
      simp only [if_pos heq, if_pos heq', ok_bind]
      simp [Usage.moved, pure, Except.pure, Except.map]
    · have heq' : ¬k.size = (u.moved d).largest := heq
      simp only [if_neg heq, if_neg heq']
      rfl

theorem Usage.count_moved (ho : k.address + (g.offset + d) < Address.limit) :
    (u.moved d).count (g.moved d) k = (u.count g k).map (·.moved d) := by
  unfold Usage.count
  cases hk : k.allocated with
  | true =>
    change (Address.add u.allocated k.size >>= _) =
      Except.map _ (Address.add u.allocated k.size >>= _)
    cases Address.add u.allocated k.size <;> rfl
  | false =>
    change (Address.add u.free k.size >>= _) = Except.map _ (Address.add u.free k.size >>= _)
    cases Address.add u.free k.size with
    | error e => rfl
    | ok free => exact countLargest_moved (u := { u with free }) ho

theorem Usage.counts_moved (ho : ∀ k ∈ bs, k.address + (g.offset + d) < Address.limit) :
    bs.foldlM (Usage.count (g.moved d)) (u.moved d) =
      (bs.foldlM (Usage.count g) u).map (·.moved d) := by
  induction bs generalizing u with
  | nil => rfl
  | cons k bs ih =>
    rw [List.foldlM_cons, List.foldlM_cons, Usage.count_moved (ho k List.mem_cons_self)]
    cases u.count g k with
    | error e => rfl
    | ok u₁ => exact ih fun c hc => ho c (List.mem_cons_of_mem _ hc)

namespace Bank.Holds

/-- All is well with a bank at another place, if it is a place for a bank. -/
theorem moved (h : b.Holds bs) (hg : (b.geometry.moved d).Sound) : (b.moved d).Holds bs :=
  ⟨h.table, h.tiles, h.separated, h.account, hg⟩

theorem lowestOccupied_moved (h : b.Holds bs) (hg : (b.geometry.moved d).Sound) :
    ∃ o, b.lowestOccupied = .ok o ∧ (b.moved d).lowestOccupied = .ok (o.map (· + d)) := by
  refine ⟨_, h.lowestOccupied_eq, ?_⟩
  rw [(h.moved hg).lowestOccupied_eq, Bank.view_moved, View.lowest?_moved]

theorem availableAddresses_moved (h : b.Holds bs) (hg : (b.geometry.moved d).Sound)
    (request : ℕ) : ((b.moved d).availableAddresses request).result =
      (b.availableAddresses request).result.map (·.map (movedRange d)) := by
  have hgrant : (b.moved d).grant request = b.grant request := rfl
  unfold Bank.availableAddresses
  rw [hgrant, Traced.result_bind, Traced.result_bind]
  cases (b.grant request).result with
  | error e => rfl
  | ok o =>
    cases o with
    | none => rfl
    | some n =>
      have hn := h.freeRanges_eq n
      have hn' := (h.moved hg).freeRanges_eq n
      change (b.moved d).freeRanges n = (b.freeRanges n).map _
      rw [hn, hn', Except.map, List.map_map]
      refine congrArg Except.ok (List.map_congr_left fun k _ => ?_)
      simp only [movedRange, Bank.moved, Geometry.moved, Function.comp_apply, Nat.add_assoc]

theorem usage_moved (h : b.Holds bs) (hg : (b.geometry.moved d).Sound) :
    ∃ u, b.usage = .ok u ∧ (b.moved d).usage = .ok (u.moved d) := by
  obtain ⟨u, hu, -⟩ := h.usage_ok
  refine ⟨u, hu, ?_⟩
  have hin : ∀ k ∈ bs, k.address + (b.geometry.offset + d) < Address.limit := by
    intro k hk
    have hr : k.address + k.size + (b.geometry.offset + d) < _ := (h.moved hg).in_range hk
    omega
  rw [h.usage_eq] at hu
  have hcounts := Usage.counts_moved (u := { allocatable := b.usable }) hin
  rw [hu] at hcounts
  rw [(h.moved hg).usage_eq]
  exact hcounts

end Bank.Holds

end Questions

end MemoryBank
