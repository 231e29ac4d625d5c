import MemoryBank.Table.Basic
import Mathlib.Data.List.Chain
import Mathlib.Data.List.Nodup
import Mathlib.Data.List.Perm.Subperm
import Mathlib.Data.List.Range

/-!
# Walks along the links

The links of a table may lead anywhere. `Table.Leads t start bs` says that following them up from
`start` leads through the blocks `bs` and comes to an end. There is one such walk at most
(`Leads.unique`), it visits no slot twice (`Leads.nodup`), and so the walk from the head, bounded as
it is, meets all of it (`Leads.blocks_eq`) and does not fail where it ends (`Leads.exhaust_eq`).
Nothing else is asked of the table here; that the links down undo such a walk is `Table.LinksBack`.

The links may also lead to a handle that names no slot (`Table.Strays`). Then, and only then, the
walk past all blocks fails (`Table.exhaust_eq_error_iff`). Bounded as it is, it comes that far: in
the table without such links, `Table.mended`, the same walk comes to an end.
-/

namespace MemoryBank

/-- The handles of a list. -/
def handles (bs : List Block) : List Handle := bs.map (·.index)

@[simp] theorem length_handles (bs : List Block) : (handles bs).length = bs.length :=
  List.length_map ..

/-- The links up lead from `start` through the blocks, and then to nothing. -/
inductive Table.Leads (t : Table) : Option Handle → List Block → Prop
  | stop : t.Leads none []
  | step {i : Handle} {s : Slot} {bs : List Block} (hs : t.slot i = .ok s)
      (h : t.Leads s.next bs) : t.Leads (some i) (s.block i :: bs)

/-- The link down from each block of a walk leads to the block before it. -/
structure Table.LinksBack (t : Table) (bs : List Block) : Prop where
  first : ∀ b ∈ bs.head?, t.prev b.index = .ok none
  next : bs.IsChain fun a b => t.prev b.index = .ok (some a.index)

variable {t : Table} {start : Option Handle} {i : Handle} {b : Block} {bs cs : List Block}

namespace Table.Leads

theorem unique (hb : t.Leads start bs) (hc : t.Leads start cs) : bs = cs := by
  induction hb generalizing cs with
  | stop =>
    cases hc
    rfl
  | step hs _ ih =>
    cases hc with
    | step hs' h' =>
      obtain rfl := Except.ok.inj (hs.symm.trans hs')
      rw [ih h']

/-- From each block on, the walk leads through the rest. -/
theorem suffix (h : t.Leads start bs) (hb : b ∈ bs) :
    ∃ xs ys, bs = xs ++ b :: ys ∧ t.Leads (some b.index) (b :: ys) := by
  induction h with
  | stop => cases hb
  | step hs h ih =>
    rcases List.mem_cons.1 hb with rfl | hb
    · exact ⟨[], _, rfl, .step hs h⟩
    · obtain ⟨xs, ys, rfl, hy⟩ := ih hb
      exact ⟨_ :: xs, ys, rfl, hy⟩

theorem slot_of_mem (h : t.Leads start bs) (hb : b ∈ bs) :
    ∃ s, t.slot b.index = .ok s ∧ s.block b.index = b := by
  induction h with
  | stop => cases hb
  | step hs _ ih =>
    rcases List.mem_cons.1 hb with rfl | hb
    · exact ⟨_, hs, rfl⟩
    · exact ih hb

/-- **A walk that ends visits no slot twice.** After a second visit it would go on as it did after
the first, and never end. -/
theorem nodup (h : t.Leads start bs) : (handles bs).Nodup := by
  induction h with
  | stop => exact .nil
  | @step i s bs hs h ih =>
    refine List.nodup_cons.2 ⟨fun hi => ?_, ih⟩
    obtain ⟨b, hb, hbi⟩ := List.mem_map.1 hi
    obtain ⟨xs, ys, rfl, hy⟩ := h.suffix hb
    rw [show b.index = i from hbi] at hy
    -- the walk from `i` would be a proper part of itself
    have := congrArg List.length (unique (.step hs h) hy)
    simp only [List.length_cons, List.length_append] at this
    omega

/-- There are no more blocks than slots. -/
theorem length_le (h : t.Leads start bs) : bs.length ≤ t.slots.size := by
  have hsub : handles bs ⊆ List.range t.slots.size := by
    intro i hi
    obtain ⟨b, hb, rfl⟩ := List.mem_map.1 hi
    obtain ⟨s, hs, -⟩ := h.slot_of_mem hb
    exact List.mem_range.2 (Array.getElem?_eq_some_iff.1 (slot_eq_ok_iff.1 hs)).1
  simpa using (List.subperm_of_subset h.nodup hsub).length_le

theorem walk_eq {fuel : ℕ} (h : t.Leads start bs) (hf : bs.length ≤ fuel) :
    t.walk fuel start = bs := by
  induction h generalizing fuel with
  | stop => exact walk_none t fuel
  | step hs h ih =>
    obtain ⟨fuel, rfl⟩ : ∃ k, fuel = k + 1 := ⟨fuel - 1, by simp at hf; omega⟩
    rw [walk_some hs, ih (by simpa using hf)]

/-- **The walk from the head** meets all blocks, if it ends at all. -/
theorem blocks_eq (h : t.Leads t.head bs) : t.blocks = bs := h.walk_eq h.length_le

theorem walkOn_eq (h : t.Leads start bs) (fuel : ℕ) : t.walkOn fuel start = .ok () := by
  induction h generalizing fuel with
  | stop => cases fuel <;> rfl
  | step hs _ ih =>
    cases fuel with
    | zero => rfl
    | succ fuel => rw [walkOn, hs, ok_bind, ih]

/-- **A walk that ends** meets no link to a handle that names no slot. -/
theorem exhaust_eq (h : t.Leads t.head bs) : t.exhaust = .ok () := h.walkOn_eq _

end Table.Leads

/-! ## Walks that stray -/

/-- The links up lead from `start` through the blocks, and then to a handle that names no slot. -/
inductive Table.Strays (t : Table) : Option Handle → List Block → Prop
  | lost {i : Handle} (hi : t.slots[i]? = none) : t.Strays (some i) []
  | step {i : Handle} {s : Slot} {bs : List Block} (hs : t.slot i = .ok s)
      (h : t.Strays s.next bs) : t.Strays (some i) (s.block i :: bs)

/-- The table with nothing in the place of links up to handles that name no slot. -/
def Table.mended (t : Table) : Table :=
  { t with slots := t.slots.map fun s => { s with next := s.next.filter (· < t.slots.size) } }

namespace Table.Strays

/-- In the mended table the walk comes to an end. -/
theorem leads_mended (h : t.Strays start bs) :
    t.mended.Leads (start.filter (· < t.slots.size)) bs := by
  induction h with
  | @lost i hi =>
    rw [Option.filter_some_neg (by simpa using hi)]
    exact .stop
  | @step i s bs hs h ih =>
    rw [slot_eq_ok_iff] at hs
    have hi := (Array.getElem?_eq_some_iff.1 hs).1
    rw [Option.filter_some_pos (by simpa using hi)]
    have hs' : t.mended.slot i = .ok { s with next := s.next.filter (· < t.slots.size) } := by
      rw [slot_eq_ok_iff, mended, Array.getElem?_map, hs]
      rfl
    -- a block does not tell its links, so it is the same in both tables
    have hblock := Leads.step hs' ih
    exact hblock

/-- There are no more blocks than slots. -/
theorem length_le (h : t.Strays start bs) : bs.length ≤ t.slots.size := by
  simpa [mended] using h.leads_mended.length_le

theorem walkOn_eq {fuel : ℕ} (h : t.Strays start bs) (hf : bs.length < fuel) :
    t.walkOn fuel start = .error .outOfRange := by
  induction h generalizing fuel with
  | lost hi =>
    obtain ⟨fuel, rfl⟩ : ∃ k, fuel = k + 1 := ⟨fuel - 1, by omega⟩
    rw [walkOn, slot, hi, error_bind]
  | step hs _ ih =>
    rw [List.length_cons] at hf
    obtain ⟨fuel, rfl⟩ : ∃ k, fuel = k + 1 := ⟨fuel - 1, by omega⟩
    rw [walkOn, hs, ok_bind, ih (by omega)]

end Table.Strays

theorem Table.strays_of_walkOn {fuel : ℕ} {e : Failure} (h : t.walkOn fuel start = .error e) :
    e = .outOfRange ∧ ∃ bs, t.Strays start bs := by
  induction fuel generalizing start with
  | zero => cases h
  | succ fuel ih =>
    cases start with
    | none => cases h
    | some i =>
      rw [walkOn] at h
      cases hi : t.slots[i]? with
      | none =>
        rw [slot, hi, error_bind] at h
        exact ⟨(Except.error.inj h).symm, [], .lost hi⟩
      | some s =>
        have hs := slot_eq_ok_iff.2 hi
        rw [hs, ok_bind] at h
        obtain ⟨he, bs, hbs⟩ := ih h
        exact ⟨he, _, .step hs hbs⟩

/-- **Walking past all blocks fails** exactly if the links lead to a handle that names no slot. -/
theorem Table.exhaust_eq_error_iff {e : Failure} :
    t.exhaust = .error e ↔ e = .outOfRange ∧ ∃ bs, t.Strays t.head bs := by
  constructor
  · exact strays_of_walkOn
  · rintro ⟨rfl, bs, h⟩
    exact h.walkOn_eq (Nat.lt_succ_of_le h.length_le)

end MemoryBank
