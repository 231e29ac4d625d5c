import MemoryBank.Proofs.MovedSteps
import MemoryBank.Proofs.Runs

/-!
# A bank can be anywhere

Two allocators of one design, for banks that lie `d` bytes apart and else are alike, answer the same
requests alike, when the addresses and limits in these are `d` bytes apart as well
(`Allocator.serve_moved`).

What both answer is told by the contract, which knows where the bank begins (`View.answer_moved`).
Of the states that they leave it tells too little; that these remain alike is
`Allocator.tracks_perform`.
-/

namespace MemoryBank

open MemoryBank.Action

variable {d : ℕ}

theorem Ledger.Sound.moved {c : Ledger} (h : c.Sound) (hg : (c.bank.geometry.moved d).Sound) :
    Sound ⟨c.bank.moved d, c.filed, c.live⟩ :=
  ⟨h.bank.moved hg, h.filed, h.live⟩

namespace Request

/-- What can be asked at the higher place can be asked at the lower one. -/
theorem InRange.of_moved {r : Request} (h : (r.moved d).InRange) : r.InRange := by
  cases r with
  | allocate size p =>
    refine ⟨h.1, fun l hl => ?_⟩
    have hlim := h.2 (l + d) (Option.mem_map_of_mem (· + d) hl)
    omega
  | allocateAt address size => exact ⟨by have := h.1; omega, h.2⟩
  | deallocate address =>
    have hlt : address + d < Address.limit := h
    exact Nat.lt_of_le_of_lt (Nat.le_add_right address d) hlt
  | _ => exact h

end Request

/-- A design leads to the same blocks and indexes at another place. -/
theorem Design.build_moved {dn : Design} (hd : dn.Legal) {g : Geometry} {a : Allocator}
    (h : (dn.build g).result = .ok a) (hg : (g.moved d).validate = .ok ()) :
    (dn.build (g.moved d)).result = .ok (a.moved d) := by
  have hfrom := (build_ok h).1
  cases dn with
  | linear policy =>
    rw [build, Traced.result_bind, Linear.create_spec hfrom] at h
    obtain rfl := Except.ok.inj h
    rw [build, Traced.result_bind, Linear.create_spec hg]
    rfl
  | indexed base count =>
    rw [build, Traced.result_bind, Indexed.create_spec hfrom hd.1 hd.2.1 hd.2.2] at h
    obtain rfl := Except.ok.inj h
    rw [build, Traced.result_bind, Indexed.create_spec hg hd.1 hd.2.1 hd.2.2]
    rfl

namespace Allocator

variable {a : Allocator}

theorem choose?_moved (a : Allocator) : (a.moved d).choose? = a.choose? := by
  cases a <;> rfl

theorem view_moved (a : Allocator) : (a.moved d).view = a.view.moved d := by
  rw [view, bank_moved, Bank.view_moved]
  rfl

theorem listing_moved (a : Allocator) : (a.moved d).listing = a.listing := by
  cases a <;> rfl

/-- All is well with an allocator at another place, if it is a place for a bank. -/
theorem Sound.moved (h : a.Sound) (hg : (a.bank.geometry.moved d).Sound) : (a.moved d).Sound := by
  cases a with
  | linear a => exact h.bank.moved hg
  | indexed a =>
    obtain ⟨c, classes, hc, rfl⟩ := h
    exact ⟨_, classes, hc.moved hg, rfl⟩

/-- **The states of allocators remain alike.** -/
theorem tracks_perform (r : Request) :
    Tracks (moved d) (fun _ _ => True) (perform r) (perform (r.moved d)) := by
  intro a reply t reply' u ht hu
  obtain ⟨hreply, rfl⟩ := Prod.mk.inj ht
  obtain ⟨hreply', rfl⟩ := Prod.mk.inj hu
  refine ⟨trivial, ?_⟩
  cases a with
  | linear a =>
    have hstate := (Linear.tracks_perform r a reply _ reply' _ (Prod.ext hreply rfl)
      (Prod.ext hreply' rfl)).2
    exact congrArg Allocator.linear hstate
  | indexed a =>
    have hstate := (Indexed.tracks_perform r a reply _ reply' _ (Prod.ext hreply rfl)
      (Prod.ext hreply' rfl)).2
    exact congrArg Allocator.indexed hstate

/-- **A step at another place.** The answer is the moved answer, and the state the moved state. -/
theorem Sound.perform_moved (h : a.Sound) (hg : (a.bank.geometry.moved d).Sound) {r : Request}
    (hr : (r.moved d).InRange) :
    ∃ reply a', (perform r).effect a = (reply, a') ∧
      (perform (r.moved d)).effect (a.moved d) = (movedAnswer d reply, a'.moved d) ∧
      a'.Sound ∧ a'.bank.geometry = a.bank.geometry := by
  obtain ⟨a', he, hs, hv, hk⟩ := perform_spec h hr.of_moved
  obtain ⟨b, he', -, -, hk'⟩ := perform_spec (h.moved hg) hr
  rw [view_moved, choose?_moved, View.answer_moved] at he' hk'
  refine ⟨_, a', he, ?_, hs, congrArg View.geometry hv⟩
  suffices hb : b = a'.moved d by rw [he', hb]
  -- a request that fails leaves both allocators alone; only others can be followed step by step
  cases hreply : a.view.answer a.choose? r with
  | error e =>
    rw [hreply] at hk hk'
    rw [hk (refused_error e), hk' (refused_error _)]
  | ok reply =>
    rw [hreply] at he he'
    exact (tracks_perform r a reply a' _ b he he').2

/-! ## Runs -/

/-- An allocator and another one, `d` bytes higher, that are alike: callers are told addresses that
are `d` bytes apart, and nothing else is different. -/
structure Apart (d : ℕ) (a b : Allocator) : Prop where
  /-- The block tables, their pools, the accounts of cuts and the indexes are the same. -/
  state : b = a.moved d
  listing : b.listing = a.listing
  usage : ∃ u, a.bank.usage = .ok u ∧ b.bank.usage = .ok (u.moved d)
  available : ∀ request, (b.bank.availableAddresses request).result =
    (a.bank.availableAddresses request).result.map (·.map (movedRange d))
  lowest : ∃ address?, a.bank.lowestOccupied = .ok address? ∧
    b.bank.lowestOccupied = .ok (address?.map (· + d))

theorem Sound.apart_moved (h : a.Sound) (hg : (a.bank.geometry.moved d).Sound) :
    a.Apart d (a.moved d) where
  state := rfl
  listing := a.listing_moved
  usage := by
    rw [bank_moved]
    exact h.bank.usage_moved hg
  available request := by
    rw [bank_moved]
    exact h.bank.availableAddresses_moved hg request
  lowest := by
    rw [bank_moved]
    exact h.bank.lowestOccupied_moved hg

theorem Sound.serve_apart (h : a.Sound) (hg : (a.bank.geometry.moved d).Sound)
    {rs : List Request} (hr : ∀ r ∈ rs, (r.moved d).InRange) :
    ∃ replies a', serve perform rs a = (replies, a') ∧
      serve perform (rs.map (Request.moved d)) (a.moved d) =
        (replies.map (movedAnswer d), a'.moved d) ∧
      a'.Apart d (a'.moved d) := by
  induction rs generalizing a with
  | nil => exact ⟨[], a, rfl, rfl, h.apart_moved hg⟩
  | cons r rs ih =>
    obtain ⟨reply, a₁, he, he', hs, hgeo⟩ := h.perform_moved hg (hr r List.mem_cons_self)
    obtain ⟨replies, a', hrun, hrun', hap⟩ :=
      ih hs (hgeo ▸ hg) fun r h => hr r (List.mem_cons_of_mem _ h)
    refine ⟨reply :: replies, a', by rw [serve_cons he, hrun], ?_, hap⟩
    rw [List.map_cons, serve_cons he', hrun']
    rfl

/-- **A bank can be anywhere.** Let an allocator of any design be built for a bank, and another one
for the same bank `d` bytes higher. Any requests to the first and, `d` bytes higher, to the second
have answers that are `d` bytes apart, and leave allocators that are. As the first requests of a run
are a run, this is so after each of them. -/
theorem serve_moved {dn : Design} (hd : dn.Legal) {g : Geometry} (hg : g.validate = .ok ())
    (hg' : (g.moved d).validate = .ok ()) {rs : List Request}
    (hr : ∀ r ∈ rs, (r.moved d).InRange) :
    ∃ a b replies a' b', (dn.build g).result = .ok a ∧ (dn.build (g.moved d)).result = .ok b ∧
      serve perform rs a = (replies, a') ∧
      serve perform (rs.map (Request.moved d)) b = (replies.map (movedAnswer d), b') ∧
      a'.Apart d b' := by
  obtain ⟨a, hbuild, hs, hv⟩ := Design.build_spec hd hg
  have hgeo : a.bank.geometry = g := congrArg View.geometry hv
  have hs' := Geometry.validate_eq_ok_iff.1 hg'
  obtain ⟨replies, a', hrun, hrun', hap⟩ := hs.serve_apart (by rwa [hgeo]) hr
  exact ⟨a, a.moved d, replies, a', a'.moved d, hbuild, Design.build_moved hd hbuild hg', hrun,
    hrun', hap⟩

/-- A run with a limit that is refused, a free that is refused, and a cut. -/
theorem serve_moved_of_cut : ∃ a b replies a' b',
    ((Design.indexed 16 3).build ⟨64, 4096, 16, 16⟩).result = .ok a ∧
      ((Design.indexed 16 3).build ⟨64, 4112, 16, 16⟩).result = .ok b ∧
      serve perform [.allocate 20 {}, .allocate 16 ⟨.bottomUp, some 4128⟩, .allocateAt 4144 16,
        .deallocate 4096, .deallocate 4096, .shrink 16 .bottomUp] a = (replies, a') ∧
      serve perform [.allocate 20 {}, .allocate 16 ⟨.bottomUp, some 4144⟩, .allocateAt 4160 16,
        .deallocate 4112, .deallocate 4112, .shrink 16 .bottomUp] b =
          (replies.map (movedAnswer 16), b') ∧
      a'.Apart 16 b' :=
  serve_moved (d := 16) (g := ⟨64, 4096, 16, 16⟩)
    (show Design.Legal (.indexed 16 3) from ⟨by decide, by decide, by decide⟩) (by decide)
    (by decide) (by simp [Request.InRange, Request.moved, Placement.moved, Address.limit])

end Allocator

end MemoryBank
