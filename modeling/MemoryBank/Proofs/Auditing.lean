import MemoryBank.Proofs.Layout
import MemoryBank.Proofs.Walks
import MemoryBank.Table.Audit

/-!
# What an audit of the list says

An audit of any table whose walk ends, however its slots were filled, tells exactly what is wrong
with the list (`Table.Leads.audit_spec`):

* nothing is, if and only if the links down undo the walk, the blocks cover the range (`Covers`),
  and no two free ones are neighbours;
* no overlaps, no disorder and no broken links are counted (`Audit.Orderly`), if and only if the
  links down undo the walk and the blocks ascend (`Ascending`), whatever range was to be covered.

The walk is audited step by step (`auditStep_none`, `auditStep_some`), and `Leads.auditFrom_spec`
follows the walk.
-/

namespace MemoryBank

/-- The blocks follow each other from `start` to `stop` without holes or overlaps. Unlike in a
tiling, some may be empty. -/
structure Covers (start : ℕ) (bs : List Block) (stop : ℕ) : Prop where
  first : ∀ b ∈ bs.head?, b.address = start
  next : bs.IsChain fun a b => a.address + a.size = b.address
  last : ∀ b ∈ bs.getLast?, b.address + b.size = stop
  none : bs = [] → stop ≤ start

/-- Each block ends before the next one starts. -/
def Ascending (bs : List Block) : Prop := bs.IsChain fun a b => a.address + a.size ≤ b.address

/-- Neither overlaps nor disorder nor broken links are counted. There may be gaps, and free
neighbours. -/
def Audit.Orderly (f : Audit) : Prop := f.overlaps = 0 ∧ f.outOfOrder = 0 ∧ f.brokenLinks = 0

theorem Audit.orderly_add_iff {f g : Audit} : (f + g).Orderly ↔ f.Orderly ∧ g.Orderly := by
  change (add f g).Orderly ↔ _
  simp only [add, Orderly]
  omega

theorem Audit.orderly_when_iff {p : Prop} [Decidable p] {f : Audit} :
    (Audit.when p f).Orderly ↔ (p → f.Orderly) := by
  by_cases h : p <;> simp [Audit.when, h]
  simp [Orderly]

theorem Tiles.covers {start stop : ℕ} {bs : List Block} (h : Tiles start bs stop) :
    Covers start bs stop where
  first := h.head_start
  next := by
    rw [List.isChain_iff_forall_rel_of_append_cons_cons]
    rintro a b xs ys rfl
    exact (Tiles.middle_iff.1 h).2.2.head_start b rfl |>.symm
  last := h.last_stop
  none := by
    rintro rfl
    exact h.ge

theorem isChain_and_iff {α : Type} {R S : α → α → Prop} {l : List α} :
    (l.IsChain fun a b => R a b ∧ S a b) ↔ l.IsChain R ∧ l.IsChain S := by
  simp only [List.isChain_iff_forall_rel_of_append_cons_cons]
  grind

/-! ## One step -/

section Steps

variable {t : Table} {a b : Block} {bs : List Block} {link : Option Handle}

theorem Block.stop_of_lt (h : a.address + a.size < Address.limit) :
    a.stop = .ok (a.address + a.size) := Address.add_of_lt h

/-- The order of two blocks is at fault unless they touch, and badly so if the second one starts too
early. -/
theorem Block.relation_spec (ha : a.address + a.size < Address.limit)
    (hb : b.address + b.size < Address.limit) : ∃ r, a.relation b = .ok r ∧
      (r.fault = {} ↔ a.address + a.size = b.address) ∧
      (r.fault.Orderly ↔ a.address + a.size ≤ b.address) := by
  unfold Block.relation
  simp only [stop_of_lt ha, stop_of_lt hb, ok_bind]
  split_ifs with h₁ h₂ h₃ h₄
  all_goals refine ⟨_, rfl, ?_, ?_⟩ <;> simp [Relation.fault, Audit.Orderly] <;> omega

theorem Block.apart_iff : a.Apart b ↔ ¬(a.allocated = false ∧ b.allocated = false) := by
  simp only [Apart, not_and_or, Bool.not_eq_false]

namespace Table

/-- The first step of a walk. -/
theorem auditStep_none (start : ℕ) (hl : t.prev b.index = .ok link) :
    ∃ f, t.auditStep start none b = .ok f ∧
    (f = {} ↔ link = none ∧ b.address = start) ∧ (f.Orderly ↔ link = none) := by
  unfold auditStep
  rw [hl, ok_bind]
  refine ⟨_, rfl, ?_, ?_⟩
  · simp [Audit.add_eq_clean_iff, Audit.when_eq_clean_iff]
  · rw [Audit.orderly_add_iff, Audit.orderly_when_iff, Audit.orderly_when_iff]
    simp [Audit.Orderly]

/-- A step from one block to the next. -/
theorem auditStep_some (start : ℕ) (hl : t.prev b.index = .ok link)
    (ha : a.address + a.size < Address.limit) (hb : b.address + b.size < Address.limit) :
    ∃ f, t.auditStep start (some a) b = .ok f ∧
      (f = {} ↔ link = some a.index ∧ a.address + a.size = b.address ∧ a.Apart b) ∧
      (f.Orderly ↔ link = some a.index ∧ a.address + a.size ≤ b.address) := by
  obtain ⟨r, hr, hclean, horderly⟩ := Block.relation_spec ha hb
  unfold auditStep
  simp only [hl, hr, ok_bind]
  refine ⟨_, rfl, ?_, ?_⟩
  · simp [Audit.add_eq_clean_iff, Audit.when_eq_clean_iff, hclean, Block.apart_iff, and_assoc]
  · rw [Audit.orderly_add_iff, Audit.orderly_add_iff, horderly, Audit.orderly_when_iff,
      Audit.orderly_when_iff]
    simp [Audit.Orderly]

theorem auditEnd_none (start stop : ℕ) :
    ∃ f, auditEnd start stop none = .ok f ∧ (f = {} ↔ stop ≤ start) ∧ f.Orderly := by
  refine ⟨_, rfl, ?_, ?_⟩
  · simp [Audit.when_eq_clean_iff]
  · rw [Audit.orderly_when_iff]
    simp [Audit.Orderly]

theorem auditEnd_some (start stop : ℕ) (ha : a.address + a.size < Address.limit) :
    ∃ f, auditEnd start stop (some a) = .ok f ∧ (f = {} ↔ a.address + a.size = stop) ∧
      f.Orderly := by
  simp only [auditEnd, Block.stop_of_lt ha, ok_bind]
  refine ⟨_, rfl, ?_, ?_⟩
  · simp [Audit.when_eq_clean_iff]
  · rw [Audit.orderly_when_iff]
    simp [Audit.Orderly]

/-! ## The walk -/

/-- The links down can be read, and no block leaves the address space. -/
def Auditable (t : Table) (bs : List Block) : Prop :=
  ∀ b ∈ bs, (∃ link, t.prev b.index = .ok link) ∧ b.address + b.size < Address.limit

/-- The rest of a walk that has come to `a`. -/
theorem auditFrom_spec (start stop : ℕ) (he : t.exhaust = .ok ()) (h : t.Auditable (a :: bs)) :
    ∃ f, t.auditFrom start stop (some a) bs = .ok f ∧
      (f = {} ↔ ((a :: bs).IsChain fun a b => t.prev b.index = .ok (some a.index) ∧
        a.address + a.size = b.address ∧ a.Apart b) ∧
        ∀ l ∈ (a :: bs).getLast?, l.address + l.size = stop) ∧
      (f.Orderly ↔ (a :: bs).IsChain fun a b => t.prev b.index = .ok (some a.index) ∧
        a.address + a.size ≤ b.address) := by
  induction bs generalizing a with
  | nil =>
    obtain ⟨f, hf, hclean, horderly⟩ := auditEnd_some start stop (h a (by simp)).2
    exact ⟨f, by rw [auditFrom, he, ok_bind, hf], by simp [hclean], by simp [horderly]⟩
  | cons b bs ih =>
    obtain ⟨⟨link, hl⟩, hb⟩ := h b (by simp)
    obtain ⟨f, hf, hfclean, hforderly⟩ := auditStep_some start hl (h a (by simp)).2 hb
    obtain ⟨g, hg, hgclean, hgorderly⟩ := ih fun c hc => h c (List.mem_cons_of_mem _ hc)
    refine ⟨f + g, by rw [auditFrom, hf, hg]; rfl, ?_, ?_⟩
    · rw [Audit.add_eq_clean_iff, hfclean, hgclean, List.isChain_cons_cons, hl, Except.ok.injEq,
        List.getLast?_cons_cons]
      exact and_assoc.symm
    · rw [Audit.orderly_add_iff, hforderly, hgorderly, List.isChain_cons_cons, hl, Except.ok.injEq]

/-- **An audit** tells what is wrong with the list. -/
theorem Leads.audit_spec (h : t.Leads t.head bs) (start stop : ℕ)
    (hb : ∀ b ∈ bs, b.address + b.size < Address.limit) :
    ∃ f, t.audit start stop = .ok f ∧
      (f = {} ↔ t.LinksBack bs ∧ Covers start bs stop ∧ Separated bs) ∧
      (f.Orderly ↔ t.LinksBack bs ∧ Ascending bs) := by
  have hau : t.Auditable bs := fun b hm => by
    obtain ⟨s, hs, -⟩ := h.slot_of_mem hm
    exact ⟨⟨_, prev_of_slot hs⟩, hb b hm⟩
  have he := h.exhaust_eq
  rw [audit, h.blocks_eq]
  cases bs with
  | nil =>
    obtain ⟨f, hf, hclean, horderly⟩ := auditEnd_none start stop
    refine ⟨f, by rw [auditFrom, he, ok_bind, hf], hclean.trans ?_, iff_of_true horderly ?_⟩
    · exact ⟨fun he => ⟨⟨by simp, .nil⟩, ⟨by simp, .nil, by simp, fun _ => he⟩, .nil⟩,
        fun hc => hc.2.1.none rfl⟩
    · exact ⟨⟨by simp, .nil⟩, .nil⟩
  | cons b bs =>
    obtain ⟨⟨link, hl⟩, -⟩ := hau b (by simp)
    obtain ⟨f, hf, hfclean, hforderly⟩ := auditStep_none start hl
    obtain ⟨g, hg, hgclean, hgorderly⟩ := auditFrom_spec start stop he hau
    refine ⟨f + g, by rw [auditFrom, hf, hg]; rfl, ?_, ?_⟩
    · rw [Audit.add_eq_clean_iff, hfclean, hgclean, isChain_and_iff, isChain_and_iff]
      constructor
      · rintro ⟨⟨rfl, hs⟩, ⟨hn, ht, hap⟩, hlast⟩
        exact ⟨⟨by simpa using hl, hn⟩, ⟨by simpa using hs, ht, hlast, by simp⟩, hap⟩
      · rintro ⟨⟨hf, hn⟩, ⟨hs, ht, hlast, -⟩, hap⟩
        exact ⟨⟨Except.ok.inj (hl.symm.trans (hf b rfl)), hs b rfl⟩, ⟨hn, ht, hap⟩, hlast⟩
    · rw [Audit.orderly_add_iff, hforderly, hgorderly, isChain_and_iff]
      constructor
      · rintro ⟨rfl, hn, ha⟩
        exact ⟨⟨by simpa using hl, hn⟩, ha⟩
      · rintro ⟨⟨hf, hn⟩, ha⟩
        exact ⟨Except.ok.inj (hl.symm.trans (hf b rfl)), hn, ha⟩

end Table

end Steps

end MemoryBank
