import MemoryBank.Allocator.Indexed
import MemoryBank.Proofs.Auditing
import MemoryBank.Proofs.FiniteMap

/-!
# The verdict of an audit

An indexed allocator is in order (`Indexed.InOrder`) if its blocks are, its free blocks are just
what is filed, and its blocks in use are just what is recorded. By `Indexed.audit_isClean_iff` the
audit tells whether it is, for allocators in any state: faults do not cancel.

* `auditRepeats_eq_clean_iff` and `filed_iff`: among the filed handles nothing is missing, surplus,
  repeated or in the wrong class.
* `LiveIndex.Records.recorded_iff`: where all blocks in use are recorded, a surplus entry shows in
  the length.
-/

namespace MemoryBank

/-- Class and handle of each free block. -/
def SizeClasses.freeEntries (c : SizeClasses) (bs : List Block) : List (ℕ × Handle) :=
  (bs.filter fun b => !b.allocated).map fun b => (c.classOf b.size, b.index)

/-- The blocks, what is filed and what is recorded tell the same. -/
structure Indexed.InOrder (a : Indexed) (bs : List Block) : Prop where
  /-- The blocks follow each other through all that is not cut off, -/
  covers : Covers a.bank.shrunk bs (a.bank.shrunk + a.bank.usable)
  /-- and the links down lead back. -/
  linksBack : a.bank.table.LinksBack bs
  separated : Separated bs
  /-- What is filed are the free blocks, each once and in the class of its size. -/
  filed : a.free.entries.Perm (a.free.classes.freeEntries bs)
  /-- What is recorded are the blocks in use, each once and by its address. -/
  recorded : a.live.entries.Perm (liveEntries bs)

section Lists

variable {c : SizeClasses} {bs : List Block} {es : List (ℕ × Handle)}

theorem SizeClasses.mem_freeEntries {e : ℕ × Handle} : e ∈ c.freeEntries bs ↔
    ∃ b ∈ bs, b.index = e.2 ∧ b.allocated = false ∧ c.classOf b.size = e.1 := by
  simp only [freeEntries, List.mem_map, List.mem_filter, Prod.ext_iff, Bool.not_eq_true']
  exact exists_congr fun b => by tauto

theorem auditRepeats_eq_clean_iff {hs : List Handle} : Indexed.auditRepeats hs = {} ↔ hs.Nodup := by
  induction hs with
  | nil => exact iff_of_true rfl .nil
  | cons i rest ih =>
    rw [Indexed.auditRepeats, Audit.add_eq_clean_iff, Audit.when_eq_clean_iff (by decide), ih,
      List.nodup_cons]

/-- **What is filed are the free blocks**, if it names only free blocks and their classes, repeats
no handle and misses no block. -/
theorem filed_iff (hn : (handles bs).Nodup) : es.Perm (c.freeEntries bs) ↔
    (∀ e ∈ es, ∃ b ∈ bs, b.index = e.2 ∧ b.allocated = false ∧ c.classOf b.size = e.1) ∧
      (es.map (·.2)).Nodup ∧ ∀ b ∈ bs, b.allocated = false → b.index ∈ es.map (·.2) := by
  have hfree : ((c.freeEntries bs).map (·.2)).Nodup := by
    rw [SizeClasses.freeEntries, List.map_map]
    exact hn.sublist (List.filter_sublist.map _)
  constructor
  · intro hp
    refine ⟨fun e he => SizeClasses.mem_freeEntries.1 (hp.mem_iff.1 he),
      (hp.map _).nodup_iff.2 hfree, fun b hb hf => ?_⟩
    have hm : (c.classOf b.size, b.index) ∈ c.freeEntries bs :=
      SizeClasses.mem_freeEntries.2 ⟨b, hb, rfl, hf, rfl⟩
    exact List.mem_map.2 ⟨_, hp.mem_iff.2 hm, rfl⟩
  · rintro ⟨hsound, hnodup, hall⟩
    refine (List.perm_ext_iff_of_nodup (.of_map _ hnodup) (.of_map _ hfree)).2 fun e => ?_
    refine ⟨fun he => SizeClasses.mem_freeEntries.2 (hsound e he), fun he => ?_⟩
    obtain ⟨b, hb, hi, hf, hc⟩ := SizeClasses.mem_freeEntries.1 he
    obtain ⟨e', he', hi'⟩ := List.mem_map.1 (hall b hb hf)
    -- the block that `e'` names is the one that `e` names
    obtain ⟨b', hb', hbi', -, hc'⟩ := hsound e' he'
    obtain rfl : b' = b := List.inj_on_of_nodup_map hn hb' hb (hbi'.trans hi')
    rwa [show e = e' from Prod.ext (hc.symm.trans hc') (hi.symm.trans hbi')]

/-- **What is recorded are the blocks in use**, if these can be found, and are as many. -/
theorem LiveIndex.Records.recorded_iff {l : LiveIndex} (h : l.Records es)
    (hn : (handles bs).Nodup) : l.entries.Perm (liveEntries bs) ↔
      (∀ b ∈ bs, b.allocated = true → l.get? b.address = some b.index) ∧
        l.length ≤ (bs.filter (·.allocated)).length := by
  have hlen : (bs.filter (·.allocated)).length = (liveEntries bs).length := by
    rw [liveEntries, List.length_map]
  have hget : (∀ b ∈ bs, b.allocated = true → l.get? b.address = some b.index) ↔
      liveEntries bs ⊆ es := by
    constructor
    · intro hb e he
      obtain ⟨b, hm, ha, h₁, h₂⟩ := mem_liveEntries.1 he
      rw [show e = (b.address, b.index) from Prod.ext h₁.symm h₂.symm]
      exact h.get?_eq_some_iff.1 (hb b hm ha)
    · intro hsub b hb ha
      exact h.get?_eq_some_iff.2 (hsub (mem_liveEntries.2 ⟨b, hb, ha, rfl, rfl⟩))
  rw [hget, hlen, h.length]
  constructor
  · intro hp
    have hp' := h.entries_perm.symm.trans hp
    exact ⟨hp'.symm.subset, hp'.length_eq.le⟩
  · rintro ⟨hsub, hle⟩
    have hlive : (liveEntries bs).Nodup := by
      refine .of_map (·.2) ?_
      rw [liveEntries, List.map_map]
      exact hn.sublist (List.filter_sublist.map _)
    exact h.entries_perm.trans ((List.subperm_of_subset hlive hsub).perm_of_length_le hle).symm

end Lists

namespace Indexed

variable {a : Indexed} {bs : List Block}

/-- What an audit of the indexes says. -/
theorem auditIndexes_eq_clean_iff (h : a.bank.table.Leads a.bank.table.head bs) :
    a.auditIndexes = {} ↔ a.free.entries.Perm (a.free.classes.freeEntries bs) ∧
      (∀ b ∈ bs, b.allocated = true → a.live.get? b.address = some b.index) ∧
        a.live.length ≤ (bs.filter (·.allocated)).length := by
  have hentries : Audit.sum (a.free.entries.map a.auditEntry) = {} ↔ ∀ e ∈ a.free.entries,
      ∃ b ∈ bs, b.index = e.2 ∧ b.allocated = false ∧ a.free.classes.classOf b.size = e.1 := by
    have hne : ({ misfiled := 1 } : Audit) ≠ {} := by decide
    simp only [Audit.sum_eq_clean_iff, List.forall_mem_map, auditEntry, h.blocks_eq,
      Audit.when_eq_clean_iff hne, not_not]
  have hblock : ∀ b, a.auditBlock (a.free.entries.map (·.2)) b = {} ↔
      (b.allocated = true → a.live.get? b.address = some b.index) ∧
        (b.allocated = false → b.index ∈ a.free.entries.map (·.2)) := by
    intro b
    cases hb : b.allocated <;> simp [auditBlock, hb, Audit.when_eq_clean_iff]
  have hsurplus : ({ unindexed := a.live.length - (bs.filter (·.allocated)).length } : Audit) = {} ↔
      a.live.length ≤ (bs.filter (·.allocated)).length := by
    simp [Nat.sub_eq_zero_iff_le]
  simp only [auditIndexes, h.blocks_eq, Audit.add_eq_clean_iff, hentries, auditRepeats_eq_clean_iff,
    Audit.sum_eq_clean_iff, List.forall_mem_map, hblock, forall_and, hsurplus, filed_iff h.nodup]
  tauto

/-- **An audit** of an allocator whose walk ends finds nothing just if the blocks are in order and
the indexes tell the same as they do. -/
theorem audit_spec (h : a.bank.table.Leads a.bank.table.head bs)
    (hb : ∀ b ∈ bs, b.address + b.size < Address.limit)
    (hs : a.bank.shrunk + a.bank.usable < Address.limit) :
    ∃ f, a.audit = .ok f ∧ (f = {} ↔
      (a.bank.table.LinksBack bs ∧ Covers a.bank.shrunk bs (a.bank.shrunk + a.bank.usable) ∧
        Separated bs) ∧
      a.free.entries.Perm (a.free.classes.freeEntries bs) ∧
        (∀ b ∈ bs, b.allocated = true → a.live.get? b.address = some b.index) ∧
          a.live.length ≤ (bs.filter (·.allocated)).length) := by
  obtain ⟨f, hf, hclean, -⟩ := h.audit_spec a.bank.shrunk (a.bank.shrunk + a.bank.usable) hb
  refine ⟨f + a.auditIndexes, ?_, ?_⟩
  · rw [audit, Bank.audit, Bank.stop, Address.add_of_lt hs, ok_bind, hf]
    rfl
  · rw [Audit.add_eq_clean_iff, hclean, auditIndexes_eq_clean_iff h]

/-- **The audit is sound and complete.** Whatever state an allocator is in, if its walk ends and the
index of its blocks in use is one that can come about, the audit finds nothing if and only if all is
in order. -/
theorem audit_isClean_iff (h : a.bank.table.Leads a.bank.table.head bs)
    (hl : ∃ rs, a.live = (LiveIndex.run rs .empty).2)
    (hb : ∀ b ∈ bs, b.address + b.size < Address.limit)
    (hs : a.bank.shrunk + a.bank.usable < Address.limit) :
    ∃ f, a.audit = .ok f ∧ (f.isClean = true ↔ a.InOrder bs) := by
  obtain ⟨rs, hrs⟩ := hl
  obtain ⟨es, hes, -⟩ := LiveIndex.Reflects.start.run rs
  rw [← hrs] at hes
  obtain ⟨f, hf, hclean⟩ := audit_spec h hb hs
  refine ⟨f, hf, Audit.isClean_iff.trans (hclean.trans ?_)⟩
  rw [← hes.recorded_iff h.nodup]
  constructor
  · rintro ⟨⟨hlinks, hcovers, hsep⟩, hfiled, hrec⟩
    exact ⟨hcovers, hlinks, hsep, hfiled, hrec⟩
  · rintro ⟨hcovers, hlinks, hsep, hfiled, hrec⟩
    exact ⟨⟨hlinks, hcovers, hsep⟩, hfiled, hrec⟩

/-- An allocator whose only block in use is recorded under another block's address: one entry is
missing, and one is surplus. -/
def misrecorded : Indexed where
  bank := ⟨⟨64, 4096, 16, 16⟩, 64, 0,
    ⟨#[⟨0, 16, none, some 1, true⟩, ⟨16, 48, some 0, none, false⟩], [], some 0⟩⟩
  free := ⟨⟨16, 2, by decide, by decide, by decide⟩, [[], [1]], rfl⟩
  live := (LiveIndex.run [.insert 16 0] .empty).2

theorem audit_isClean_iff_of_misrecorded : ∃ f, misrecorded.audit = .ok f ∧
    (f.isClean = true ↔ misrecorded.InOrder [⟨0, 0, 16, true⟩, ⟨1, 16, 48, false⟩]) :=
  audit_isClean_iff (.step (s := ⟨0, 16, none, some 1, true⟩) rfl
      (.step (s := ⟨16, 48, some 0, none, false⟩) rfl .stop))
    ⟨[.insert 16 0], rfl⟩ (by decide) (by decide)

end Indexed

end MemoryBank
