import MemoryBank.Proofs.Runs

/-!
# Clearing starts afresh

Whatever an allocator has been through, clearing it leads to the very state from which it started.
No request changes the geometry or the design (`Allocator.serve_spec`), and of the rest nothing is
kept (`Allocator.Sound.clear`).

`Allocator.Fresh` tells what that state is, and `Allocator.clear_rebuilds` that it is the one which
the design builds.
-/

namespace MemoryBank

open MemoryBank.Action

/-- The one block of a fresh bank is filed in the class of its size. -/
theorem Ledger.entries_fresh (g : Geometry) (classes : SizeClasses) :
    ((Ledger.fresh g).grouped classes).free.entries =
      if g.size = 0 then [] else [(classes.classOf g.size, 0)] := by
  have hfiled : (Ledger.fresh g).filed = if g.size = 0 then [] else [(0, g.size)] := by
    rw [Ledger.fresh, leftover]
    split <;> rfl
  have hnodup : ((Ledger.fresh g).filed.map (·.1)).Nodup := by
    rw [hfiled]
    split <;> simp
  have hperm : (FreeIndex.ofEntries classes _).entries.Perm _ :=
    FreeIndex.entries_ofEntries hnodup
  rw [Ledger.free_grouped]
  rw [hfiled] at hperm ⊢
  split at hperm
  case isTrue hz =>
    rw [if_pos hz, if_pos hz]
    exact hperm.eq_nil
  case isFalse hz =>
    rw [if_neg hz, if_neg hz]
    exact List.perm_singleton.1 hperm

namespace Allocator

variable {a : Allocator} {d : Design} {g : Geometry}

/-- An allocator of this design that has not been used. -/
structure Fresh (g : Geometry) (d : Design) (a : Allocator) : Prop where
  design : a.design = d
  /-- The block in slot 0 is all there is, no slot waits, and nothing is cut off. -/
  bank : a.bank = ⟨g, g.size, 0, .single 0 g.size⟩
  /-- That block alone is filed, and nothing is recorded. -/
  indexes : ∀ i, a = .indexed i → i.live = .empty ∧
    i.free.entries = if g.size = 0 then [] else [(i.free.classes.classOf g.size, 0)]

/-- A design builds an allocator that has not been used. -/
theorem build_fresh (hd : d.Legal) (hg : g.validate = .ok ()) :
    ∃ a, (d.build g).result = .ok a ∧ a.Sound ∧ a.Fresh g d := by
  have hs := Geometry.validate_eq_ok_iff.1 hg
  cases d with
  | linear policy =>
    exact ⟨_, Design.build_linear hg policy, (Bank.holds_fresh hs).sound, rfl, rfl, nofun⟩
  | indexed base count =>
    refine ⟨_, Design.build_indexed hg ⟨base, count, hd.1, hd.2.1, hd.2.2⟩,
      ⟨_, _, (Ledger.holds_fresh hs).sound, rfl⟩, rfl, rfl, ?_⟩
    rintro i ⟨⟩
    exact ⟨rfl, Ledger.entries_fresh g _⟩

/-- **Clearing leads to what the design builds.** -/
theorem Sound.clear (h : a.Sound) :
    ∃ a₀, (a.design.build a.bank.geometry).result = .ok a₀ ∧
      (perform .clear).effect a = (.ok .done, a₀) := by
  have hg : a.bank.geometry.validate = .ok () := Geometry.validate_eq_ok_iff.2 h.bank.geometry
  cases a with
  | linear a => exact ⟨_, Design.build_linear hg a.policy, effect_linear rfl⟩
  | indexed a =>
    obtain ⟨c, classes, hc, rfl⟩ := h
    have he := Ledger.effect_clear (c.grouped classes) hc.bank.geometry
    refine ⟨_, Design.build_indexed hg classes, effect_indexed ?_⟩
    simp only [Indexed.perform, effect_bind, he, effect_pure]
    rfl

/-- A run changes neither the design nor the geometry. -/
theorem serve_spec (h : a.Sound) {rs : List Request} (hr : ∀ r ∈ rs, r.InRange) :
    ∃ replies a', serve perform rs a = (replies, a') ∧ a'.Sound ∧ a'.design = a.design ∧
      a'.bank.geometry = a.bank.geometry := by
  have hstep : ∀ r ∈ rs, ∀ b : Allocator,
      b.Sound ∧ b.design = a.design ∧ b.bank.geometry = a.bank.geometry →
        ((perform r).effect b).2.Sound ∧ ((perform r).effect b).2.design = a.design ∧
          ((perform r).effect b).2.bank.geometry = a.bank.geometry := by
    rintro r hm b ⟨hs, hd, hg⟩
    obtain ⟨b', he, hs', hv, -⟩ := perform_spec hs (hr r hm)
    rw [he]
    exact ⟨hs', (perform_step hs (hr r hm) he).2.trans hd, (congrArg View.geometry hv).trans hg⟩
  exact ⟨_, _, rfl, serve_keeps hstep ⟨h, rfl, rfl⟩⟩

/-- **Clearing is building anew.** After any run, of which some requests may have failed and some
may have cut the bank, clearing leads to the very state that the design built, in every part. So
whatever is asked from then on is answered as by a new allocator. -/
theorem clear_rebuilds (hd : d.Legal) (hg : g.validate = .ok ()) {rs : List Request}
    (hr : ∀ r ∈ rs, r.InRange) :
    ∃ a replies a', (d.build g).result = .ok a ∧ a.Fresh g d ∧
      serve perform rs a = (replies, a') ∧ (perform .clear).effect a' = (.ok .done, a) ∧
      ∀ later, serve perform (.clear :: later) a' =
        (.ok .done :: (serve perform later a).1, (serve perform later a).2) := by
  obtain ⟨a, hb, hs, hf⟩ := build_fresh hd hg
  obtain ⟨replies, a', hrun, hs', hd', hg'⟩ := serve_spec hs hr
  obtain ⟨a₀, hb', hc⟩ := hs'.clear
  -- what is built then is what was built at first
  have hgeo : a'.bank.geometry = g := hg'.trans (congrArg Bank.geometry hf.bank)
  rw [hd', hf.design, hgeo, hb] at hb'
  obtain rfl := Except.ok.inj hb'
  exact ⟨a, replies, a', hb, hf, hrun, hc, serve_cons hc⟩

/-- A run with blocks in three slots, a cut and a free that is refused. -/
theorem clear_rebuilds_of_cut : ∃ a replies a',
    ((Design.indexed 16 3).build ⟨64, 4096, 16, 16⟩).result = .ok a ∧
      a.Fresh ⟨64, 4096, 16, 16⟩ (.indexed 16 3) ∧
      serve perform [.allocateAt 4128 16, .shrink 16 .bottomUp, .deallocate 4096] a =
        (replies, a') ∧ (perform .clear).effect a' = (.ok .done, a) ∧
      ∀ later, serve perform (.clear :: later) a' =
        (.ok .done :: (serve perform later a).1, (serve perform later a).2) :=
  clear_rebuilds (d := .indexed 16 3) ⟨by decide, by decide, by decide⟩ (by decide)
    (by simp [Request.InRange, Address.limit])

end Allocator

end MemoryBank
