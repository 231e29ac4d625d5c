import MemoryBank.Block

/-!
# Allocated blocks by address

A `LiveIndex` finds the handle of an allocated block by the block's address. Entries are spread
over a fixed number of buckets. Allocated addresses are mostly multiples of some power of two, so
the bucket is taken from the high bits of a product, where low bits have left their mark.

* `LiveIndex.get?` and `LiveIndex.insert` look up and record an address; recording one twice
  fails.
* `LiveIndex.remove?` forgets an address. The last entry of the bucket fills the gap.
* `LiveIndex.clear` empties every bucket.

The entries are counted as they come and go. An index carries the proof that its count is right
(`LiveIndex.length_eq`), so there is no index whose count could fall below zero.
-/

namespace MemoryBank

/-- The number of buckets. -/
def LiveIndex.bucketCount : Nat := 512

/-- Handles of allocated blocks, found by address. -/
structure LiveIndex where
  buckets : Vector (List (Nat × Handle)) LiveIndex.bucketCount
  /-- The number of recorded addresses. -/
  length : Nat
  length_eq : length = buckets.toList.flatten.length
  deriving DecidableEq

namespace LiveIndex

/-- Nothing is recorded. -/
def empty : LiveIndex where
  buckets := Vector.replicate bucketCount []
  length := 0
  length_eq := by
    rw [Vector.toList_replicate, List.flatten_replicate_nil]
    rfl

instance : Inhabited LiveIndex := ⟨empty⟩

/-- The buckets determine the index. -/
@[ext] theorem ext {l m : LiveIndex} (h : l.buckets = m.buckets) : l = m := by
  have hlength : l.length = m.length := by rw [l.length_eq, m.length_eq, h]
  cases l
  cases m
  cases h
  cases hlength
  rfl

/-- The bucket of an address: the nine highest bits of its product with the odd number next to
`Address.limit` divided by the golden ratio. -/
def home (address : Nat) : Fin bucketCount :=
  ⟨(address * 0x9E3779B97F4A7C15 % Address.limit) >>> 55, by
    rw [Nat.shiftRight_eq_div_pow]
    exact Nat.div_lt_of_lt_mul (Nat.mod_lt _ (by decide))⟩

/-- The entries in the bucket of an address. -/
def bucketOf (l : LiveIndex) (address : Nat) : List (Nat × Handle) := l.buckets[home address]

/-! ## Looking up -/

/-- The handle of the block that is allocated at an address. -/
def get? (l : LiveIndex) (address : Nat) : Option Handle :=
  ((l.bucketOf address).find? (·.1 = address)).map (·.2)

/-- Whether a block is allocated at an address. -/
def contains (l : LiveIndex) (address : Nat) : Bool := (l.get? address).isSome

/-- Whether no address is recorded. -/
def isEmpty (l : LiveIndex) : Bool := l.length = 0

/-! ## Changing a bucket -/

/-- Another list in the place of one counts by its own length. -/
theorem length_flatten_set {α : Type} {lists : List (List α)} {k : Nat} (hk : k < lists.length)
    (new : List α) : (lists.set k new).flatten.length + lists[k].length =
      lists.flatten.length + new.length := by
  induction lists generalizing k with
  | nil => cases hk
  | cons first rest ih =>
    cases k with
    | zero =>
      simp only [List.set_cons_zero, List.flatten_cons, List.length_append, List.getElem_cons_zero]
      omega
    | succ k =>
      have hrest := ih (Nat.lt_of_succ_lt_succ hk)
      simp only [List.set_cons_succ, List.flatten_cons, List.length_append,
        List.getElem_cons_succ]
      omega

/-- A bucket counts no more entries than there are. -/
theorem length_bucketOf_le (l : LiveIndex) (address : Nat) :
    (l.bucketOf address).length ≤ l.length := by
  have hk : (home address : Nat) < l.buckets.toList.length := by simp
  have h := length_flatten_set hk []
  rw [Vector.getElem_toList, ← l.length_eq] at h
  change _ + (l.bucketOf address).length = _ at h
  simp only [List.length_nil] at h
  omega

/-- The index with other entries in the bucket of an address, and `n` entries in all. -/
def setBucket (l : LiveIndex) (address : Nat) (entries : List (Nat × Handle)) (n : Nat)
    (h : n + (l.bucketOf address).length = l.length + entries.length) : LiveIndex where
  buckets := l.buckets.set (home address) entries (home address).isLt
  length := n
  length_eq := by
    have hk : (home address : Nat) < l.buckets.toList.length := by simp
    have hset := length_flatten_set hk entries
    rw [Vector.getElem_toList, ← Vector.toList_set (home address).isLt, ← l.length_eq] at hset
    change _ + (l.bucketOf address).length = _ at hset
    omega

@[simp] theorem buckets_setBucket (l : LiveIndex) {address n : Nat} {entries : List (Nat × Handle)}
    (h : n + (l.bucketOf address).length = l.length + entries.length) :
    (l.setBucket address entries n h).buckets =
      l.buckets.set (home address) entries (home address).isLt := rfl

/-- Record the block that is allocated at an address. -/
def insert (l : LiveIndex) (address : Nat) (i : Handle) : Except Failure LiveIndex := do
  ensure (∀ e ∈ l.bucketOf address, e.1 ≠ address) (.addressTaken address)
  return l.setBucket address (l.bucketOf address ++ [(address, i)]) (l.length + 1) (by
    rw [List.length_append, List.length_singleton]
    omega)

/-- A list without the element at `pos`, whose place the last element takes. -/
def fillGap {α : Type} (entries : List α) (pos : Nat) : List α :=
  match entries.getLast? with
  | none => []
  | some last => (entries.set pos last).dropLast

theorem length_fillGap {α : Type} (entries : List α) (pos : Nat) :
    (fillGap entries pos).length = entries.length - 1 := by
  unfold fillGap
  cases h : entries.getLast? with
  | none => rw [List.getLast?_eq_none_iff.1 h]; rfl
  | some last => rw [List.length_dropLast, List.length_set]

/-- Forget an address. The answer is the handle that was recorded for it. -/
def remove? (l : LiveIndex) (address : Nat) : Option (Handle × LiveIndex) :=
  match (l.bucketOf address).findFinIdx? (·.1 = address) with
  | none => none
  | some pos =>
    some ((l.bucketOf address)[pos].2,
      l.setBucket address (fillGap (l.bucketOf address) pos) (l.length - 1) (by
        -- the entry at `pos` was counted
        have := pos.isLt
        have := l.length_bucketOf_le address
        rw [length_fillGap]
        omega))

/-- What is forgotten is the first entry of the address. -/
theorem remove?_eq_some {l : LiveIndex} {address pos : Nat}
    (h : (l.bucketOf address).findIdx? (·.1 = address) = some pos) :
    ∃ (hlt : pos < (l.bucketOf address).length) (l' : LiveIndex),
      l.remove? address = some ((l.bucketOf address)[pos].2, l') ∧
      l'.buckets = l.buckets.set (home address) (fillGap (l.bucketOf address) pos)
        (home address).isLt ∧
      l'.length = l.length - 1 := by
  rw [List.findIdx?_eq_map_findFinIdx?_val, Option.map_eq_some_iff] at h
  obtain ⟨pos, hpos, rfl⟩ := h
  exact ⟨pos.isLt, _, by rw [remove?, hpos]; rfl, rfl, rfl⟩

theorem remove?_eq_none {l : LiveIndex} {address : Nat}
    (h : (l.bucketOf address).findIdx? (·.1 = address) = none) : l.remove? address = none := by
  rw [List.findIdx?_eq_map_findFinIdx?_val, Option.map_eq_none_iff] at h
  rw [remove?, h]

/-- Forget every address. -/
def clear (l : LiveIndex) : LiveIndex where
  buckets := l.buckets.map fun _ => []
  length := 0
  length_eq := by
    rw [Vector.map_const', Vector.toList_replicate, List.flatten_replicate_nil]
    rfl

theorem clear_eq_empty (l : LiveIndex) : l.clear = empty := ext Vector.map_const'

end LiveIndex

end MemoryBank
