import MemoryBank.Proofs.Runs
import MemoryBank.Proofs.Verdict

/-!
# The three stores of the indexed allocator agree

The indexed allocator keeps its blocks in a linked table, its free blocks in buckets, and its
allocated blocks in an index by address. `Indexed.Consistent` says that the three tell the same.

* `Bank.Holds.audit_eq`, `Indexed.Consistent.audit_eq`: nothing is found wrong.
* `Ledger.Holds.consistent`: a sound ledger, grouped by any classes, is consistent.
* `Indexed.consistent_after`: so is every allocator after any run.
-/

namespace MemoryBank

/-! ## The audit of a sound bank -/

/-- **Nothing is found wrong** with a separated tiling. -/
theorem Table.Holds.audit_eq {t : Table} {bs : List Block} {start stop : ℕ} (h : t.Holds bs)
    (ht : Tiles start bs stop) (hs : Separated bs) (hl : stop < Address.limit) :
    t.audit start stop = .ok {} := by
  obtain ⟨f, hf, hclean, -⟩ := h.leads.audit_spec start stop fun b hb =>
    lt_of_le_of_lt (ht.bounds hb).2.2 hl
  rw [hf, hclean.2 ⟨h.linksBack, ht.covers, hs⟩]

/-- **Nothing is found wrong** with a bank. -/
theorem Bank.Holds.audit_eq {b : Bank} {bs : List Block} (h : b.Holds bs) : b.audit = .ok {} := by
  have hstop : b.shrunk + b.usable < Address.limit := by
    have := h.geometry.stop
    have := h.account
    omega
  rw [Bank.audit, Bank.stop, Address.add_of_lt hstop, ok_bind]
  exact h.table.audit_eq h.tiles h.separated hstop

/-! ## Consistency -/

/-- The stores of an indexed allocator tell the same. -/
structure Indexed.Consistent (a : Indexed) : Prop where
  /-- The links lead up through the blocks, and all other slots wait in the pool. -/
  linked : a.bank.table.Holds a.bank.table.blocks
  /-- The links down undo the links up. -/
  inverse : ∀ b ∈ a.bank.table.blocks, ∀ c ∈ a.bank.table.blocks,
    a.bank.table.next b.index = .ok (some c.index) ↔ a.bank.table.prev c.index = .ok (some b.index)
  /-- The blocks cover what is not cut off, in order, and none is empty. -/
  tiles : Tiles a.bank.shrunk a.bank.table.blocks (a.bank.shrunk + a.bank.usable)
  separated : Separated a.bank.table.blocks
  /-- What is filed are the free blocks, each in the class of its size. -/
  filed : a.free.entries.Perm ((a.bank.table.blocks.filter fun b => !b.allocated).map
    fun b => (a.free.classes.classOf b.size, b.index))
  /-- No handle is filed twice. -/
  once : (a.free.entries.map (·.2)).Nodup
  /-- An address leads to the block in use that begins there. -/
  recorded : ∀ address i, a.live.get? address = some i ↔
    ∃ b ∈ a.bank.table.blocks, b.allocated = true ∧ b.address = address ∧ b.index = i
  /-- What is recorded are the blocks in use. -/
  entries : a.live.entries.Perm
    ((a.bank.table.blocks.filter (·.allocated)).map fun b => (b.address, b.index))
  length : a.live.length = (a.bank.table.blocks.filter (·.allocated)).length
  /-- What is cut off and what is usable make up the bank. -/
  account : a.bank.shrunk + a.bank.usable = a.bank.geometry.size

/-- Whatever the classes, the handles that are filed are the same. -/
theorem Ledger.Holds.handles_perm {c : Ledger} {bs : List Block} (h : c.Holds bs)
    (classes : SizeClasses) :
    ((c.grouped classes).free.entries.map (·.2)).Perm (c.filed.map (·.1)) := by
  have hp : (c.grouped classes).free.entries.Perm _ := FreeIndex.entries_ofEntries h.nodup_filed
  have := hp.map (·.2)
  rwa [List.map_map] at this

/-- A sound ledger is consistent, whatever the classes. -/
theorem Ledger.Sound.consistent {c : Ledger} (h : c.Sound) (classes : SizeClasses) :
    (c.grouped classes).Consistent := by
  have hfiled : (c.grouped classes).free.entries.Perm
      ((c.bank.table.blocks.filter fun b => !b.allocated).map
        fun b => (classes.classOf b.size, b.index)) := by
    refine (FreeIndex.entries_ofEntries h.nodup_filed).trans ?_
    have := h.filed.map fun e => (classes.classOf e.2, e.1)
    rwa [freeEntries, List.map_map] at this
  have hhandles : ((c.grouped classes).free.entries.map (·.2)).Perm (c.filed.map (·.1)) :=
    h.handles_perm classes
  refine ⟨h.bank.table, fun b hb c hc => h.bank.table.next_iff_prev hb hc, h.bank.tiles,
    h.bank.separated, hfiled, hhandles.nodup_iff.2 h.nodup_filed, fun address i => ?_,
    h.live.entries_perm, ?_, h.bank.account⟩
  · rw [live_grouped, h.live.get?_eq_some_iff, mem_liveEntries]
    rfl
  · rw [live_grouped, h.live.length, liveEntries, List.length_map]
    rfl

namespace Indexed

variable {a : Indexed}

/-- **Nothing is found wrong** with a consistent allocator. -/
theorem Consistent.audit_eq (h : a.Consistent) (hg : a.bank.geometry.Sound) :
    a.audit = .ok {} := by
  have hstop : a.bank.shrunk + a.bank.usable < Address.limit := by
    have := hg.stop
    have := h.account
    omega
  have hlive : ∀ b ∈ a.bank.table.blocks, b.allocated = true →
      a.live.get? b.address = some b.index :=
    fun b hb hl => (h.recorded b.address b.index).2 ⟨b, hb, hl, rfl, rfl⟩
  obtain ⟨f, hf, hclean⟩ := audit_spec h.linked.leads
    (fun b hb => lt_of_le_of_lt (h.tiles.bounds hb).2.2 hstop) hstop
  rw [hf, hclean.2 ⟨⟨h.linked.linksBack, h.tiles.covers, h.separated⟩, h.filed, hlive,
    h.length.le⟩]

/-- **After any run, the three stores agree**, and nothing is found wrong. Geometry and classes are
as they were. -/
theorem consistent_after {g : Geometry} (hg : g.validate = .ok ()) {base count : ℕ}
    (hb : 0 < base) (hc : 0 < count) (hl : count < 64) {rs : List Request}
    (hr : ∀ r ∈ rs, r.InRange) :
    ∃ a a', (create g base count).result = .ok a ∧ (serve perform rs a).2 = a' ∧
      a'.Consistent ∧ a'.audit = .ok {} ∧ a'.bank.geometry = g ∧
      a'.free.classes.base = base ∧ a'.free.classes.count = count := by
  have hs := Geometry.validate_eq_ok_iff.1 hg
  obtain ⟨replies, c, hcs, hcg, hrun⟩ := Ledger.serve_spec (Ledger.holds_fresh hs).sound hr
  have hgeo : c.bank.geometry = g := hcg
  have hcons := hcs.consistent ⟨base, count, hb, hc, hl⟩
  refine ⟨_, _, create_spec hg hb hc hl, congrArg Prod.snd (hrun _), hcons, ?_, hgeo, rfl, rfl⟩
  exact hcons.audit_eq (hgeo ▸ hs)

/-- A run with a free that is refused, and a cut that is given back. -/
theorem consistent_after_restore :
    ∃ a a', (create ⟨64, 4096, 16, 16⟩ 16 3).result = .ok a ∧
      (serve perform [.allocate 20 {}, .allocateAt 4144 16, .deallocate 4096, .deallocate 4096,
        .shrink 16 .bottomUp, .restore] a).2 = a' ∧
      a'.Consistent ∧ a'.audit = .ok {} ∧ a'.bank.geometry = ⟨64, 4096, 16, 16⟩ ∧
      a'.free.classes.base = 16 ∧ a'.free.classes.count = 3 :=
  consistent_after (by decide) (by decide) (by decide) (by decide)
    (by simp [Request.InRange, Address.limit])

end Indexed

end MemoryBank
