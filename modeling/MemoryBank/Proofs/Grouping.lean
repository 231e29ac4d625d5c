import MemoryBank.Proofs.Consistency

/-!
# Size classes only speed up the search

Two indexed allocators for the same bank, built with different size classes, answer every request
alike and stay the same in everything but the grouping of their free blocks
(`Indexed.serve_eq_of_classes`). The reason is `Ledger.Holds.search_spec`: the classes are searched
in the order of sizes, so the first one that has a candidate has the best.
-/

namespace MemoryBank.Indexed

/-- Two allocators that differ at most in the grouping of their free blocks. -/
structure SameButGrouping (a b : Indexed) : Prop where
  /-- The block tables agree slot for slot. -/
  bank : a.bank = b.bank
  live : a.live = b.live
  /-- The same blocks are filed. -/
  filed : (a.free.entries.map (·.2)).Perm (b.free.entries.map (·.2))
  usage : a.bank.usage = b.bank.usage
  available : ∀ request, a.bank.availableAddresses request = b.bank.availableAddresses request
  lowest : a.bank.lowestOccupied = b.bank.lowestOccupied
  audit : a.audit = b.audit

end MemoryBank.Indexed

namespace MemoryBank

/-- What classes make of one ledger differs in the grouping alone. -/
theorem Ledger.Sound.sameButGrouping {c : Ledger} (h : c.Sound) (cs ds : SizeClasses) :
    (c.grouped cs).SameButGrouping (c.grouped ds) where
  bank := rfl
  live := rfl
  filed := (h.handles_perm cs).trans (h.handles_perm ds).symm
  usage := rfl
  available _ := rfl
  lowest := rfl
  audit := by
    rw [(h.consistent cs).audit_eq h.bank.geometry, (h.consistent ds).audit_eq h.bank.geometry]

/-- **Size classes are a pure accelerator.** Whatever legal classes two allocators for one bank are
built with, any run gets the same answers from both, and at its end they differ at most in the
grouping of their free blocks. -/
theorem Indexed.serve_eq_of_classes {g : Geometry} (hg : g.validate = .ok ())
    {base₁ count₁ base₂ count₂ : ℕ} (hb₁ : 0 < base₁) (hc₁ : 0 < count₁) (hl₁ : count₁ < 64)
    (hb₂ : 0 < base₂) (hc₂ : 0 < count₂) (hl₂ : count₂ < 64) {rs : List Request}
    (hr : ∀ r ∈ rs, r.InRange) :
    ∃ a b a' b' replies, (create g base₁ count₁).result = .ok a ∧
      (create g base₂ count₂).result = .ok b ∧ serve perform rs a = (replies, a') ∧
      serve perform rs b = (replies, b') ∧ a'.SameButGrouping b' := by
  have hs := Geometry.validate_eq_ok_iff.1 hg
  obtain ⟨replies, c, hcs, -, hrun⟩ := Ledger.serve_spec (Ledger.holds_fresh hs).sound hr
  exact ⟨_, _, _, _, replies, create_spec hg hb₁ hc₁ hl₁, create_spec hg hb₂ hc₂ hl₂, hrun _,
    hrun _, hcs.sameButGrouping _ _⟩

/-- One list of all free blocks does as well as three classes. -/
theorem Indexed.serve_eq_of_one_class :
    ∃ a b a' b' replies, (create ⟨64, 4096, 16, 16⟩ 1 1).result = .ok a ∧
      (create ⟨64, 4096, 16, 16⟩ 16 3).result = .ok b ∧
      serve perform [.allocate 20 {}, .allocateAt 4144 16, .deallocate 4096, .allocate 10 {}] a =
        (replies, a') ∧
      serve perform [.allocate 20 {}, .allocateAt 4144 16, .deallocate 4096, .allocate 10 {}] b =
        (replies, b') ∧ a'.SameButGrouping b' :=
  serve_eq_of_classes (by decide) (by decide) (by decide) (by decide) (by decide) (by decide)
    (by decide) (by simp [Request.InRange, Address.limit])

end MemoryBank
