import MemoryBank.Proofs.FreeBytes
import MemoryBank.Proofs.Placing
import MemoryBank.Proofs.Questions

/-!
# Which free range is taken

A request for memory is answered from the free ranges that could hold it, which callers can ask for.

* `Design.Prefers`: the range that a design takes. `Allocator.Sound.choose?_prefers` says that it
  is taken, wherever there is one.
* `Allocator.PlacedIn`: what becomes of a request that is served from a range.
* `Allocator.Reached.allocates_from_available`: requests are served from that range, whatever the
  direction and the limit are.
-/

namespace MemoryBank

open MemoryBank.Action

/-! ## The choice -/

/-- A range is one of the shortest of some. -/
def Shortest (ranges : List (ℕ × ℕ)) (r : ℕ × ℕ) : Prop :=
  r ∈ ranges ∧ ∀ s ∈ ranges, r.2 - r.1 ≤ s.2 - s.1

/-- The range that a design takes of several: the lowest, or the lowest of the shortest, or one of
the shortest. -/
def Design.Prefers : Design → List (ℕ × ℕ) → ℕ × ℕ → Prop
  | .linear .first, ranges, r => r ∈ ranges ∧ ∀ s ∈ ranges, r.1 ≤ s.1
  | .linear .best, ranges, r => Shortest ranges r ∧ ∀ s, Shortest ranges s → r.1 ≤ s.1
  | .indexed _ _, ranges, r => Shortest ranges r

/-- The bytes of a block, as the callers of a bank that starts at `offset` see them. -/
def Block.range (offset : ℕ) (k : Block) : ℕ × ℕ :=
  (k.address + offset, k.address + k.size + offset)

section Ranges

variable {offset n : ℕ} {k : Block} {ks : List Block}

theorem Block.size_range (offset : ℕ) (k : Block) :
    (k.range offset).2 - (k.range offset).1 = k.size := by
  dsimp only [range]
  omega

theorem shortest_map_range :
    Shortest (ks.map (Block.range offset)) (k.range offset) ↔
      k.range offset ∈ ks.map (Block.range offset) ∧ ∀ c ∈ ks, k.size ≤ c.size := by
  unfold Shortest
  simp only [List.forall_mem_map, Block.size_range]

/-- Where a request begins in a range from which it is served. -/
def Direction.addressIn (r : ℕ × ℕ) (n : ℕ) : Direction → ℕ
  | .bottomUp => r.1
  | .topDown => r.2 - n

theorem Block.addressIn_range (offset : ℕ) (h : n ≤ k.size) (d : Direction) :
    d.addressIn (k.range offset) n = k.address + k.inset n d + offset := by
  cases d <;> simp only [Direction.addressIn, range, inset] <;> omega

end Ranges

theorem Linear.choose?_prefers {a : Linear} (h : a.bank.Sound) (n offset : ℕ) :
    (a.choose? n = none ∧ a.bank.candidates n = []) ∨
      ∃ k ∈ a.bank.candidates n, a.choose? n = some k ∧ (Design.linear a.policy).Prefers
        ((a.bank.candidates n).map (Block.range offset)) (k.range offset) := by
  have hpair : (a.bank.candidates n).Pairwise fun b c => b.address ≤ c.address :=
    (h.tiles.pairwise.sublist List.filter_sublist).imp fun h => by omega
  unfold choose?
  cases a.policy with
  | first =>
    cases hk : a.bank.candidates n with
    | nil => exact .inl ⟨rfl, rfl⟩
    | cons k ks =>
      rw [hk] at hpair
      refine .inr ⟨k, List.mem_cons_self, rfl, List.mem_map_of_mem List.mem_cons_self, ?_⟩
      rw [List.forall_mem_map]
      intro c hc
      rcases List.mem_cons.1 hc with rfl | hc
      · exact le_rfl
      · exact Nat.add_le_add_right ((List.pairwise_cons.1 hpair).1 c hc) offset
  | best =>
    cases hk : smallest? (a.bank.candidates n) with
    | none => exact .inl ⟨rfl, smallest?_eq_none.1 hk⟩
    | some k =>
      obtain ⟨hmem, hmin⟩ := smallest?_spec hk
      have hshort := shortest_map_range.2 ⟨List.mem_map_of_mem (f := Block.range offset) hmem, hmin⟩
      refine .inr ⟨k, hmem, rfl, hshort, fun s hs => ?_⟩
      obtain ⟨c, hc, rfl⟩ := List.mem_map.1 hs.1
      have hle := (shortest_map_range.1 hs).2 k hmem
      have hge := hmin c hc
      exact Nat.add_le_add_right (smallest?_first hk hpair c hc (by omega)) offset

theorem Ledger.Sound.choose?_shortest {c : Ledger} (h : c.Sound) (n offset : ℕ) :
    (c.choose? n = none ∧ c.bank.candidates n = []) ∨
      ∃ k ∈ c.bank.candidates n, c.choose? n = some k ∧
        Shortest ((c.bank.candidates n).map (Block.range offset)) (k.range offset) := by
  rcases h.choose?_least n with ⟨k, hk, hchoose, hleast⟩ | hnone
  · exact .inr ⟨k, hk, hchoose, shortest_map_range.2 ⟨List.mem_map_of_mem hk, hleast⟩⟩
  · exact .inl hnone

namespace Allocator

variable {a : Allocator} {n size : ℕ} {k : Block} {p : Placement}

/-- **Of the free ranges that are large enough the preferred one is taken**, if there is one. -/
theorem Sound.choose?_prefers (h : a.Sound) (n offset : ℕ) :
    (a.choose? n = none ∧ a.bank.candidates n = []) ∨
      ∃ k ∈ a.bank.candidates n, a.choose? n = some k ∧
        a.design.Prefers ((a.bank.candidates n).map (Block.range offset)) (k.range offset) := by
  cases a with
  | linear a => exact Linear.choose?_prefers h n offset
  | indexed a =>
    obtain ⟨c, classes, hc, rfl⟩ := h
    have hpick : (Allocator.indexed (c.grouped classes)).choose? = c.choose? :=
      Ledger.Holds.choose?_grouped hc classes
    rw [hpick]
    exact hc.choose?_shortest n offset

/-! ## Requests -/

/-- A request is served from the range `r`: it gets the `n` bytes at the end that it names, unless
they begin beyond its limit. Then nothing changes. -/
structure PlacedIn (a : Allocator) (size n : ℕ) (r : ℕ × ℕ) (p : Placement) : Prop where
  limited : ∀ limit ∈ p.limit, limit ≤ p.direction.addressIn r n →
    (perform (.allocate size p)).effect a =
      (.error (.misuse (.addressLimitExceeded limit (p.direction.addressIn r n))), a)
  placed : (∀ limit ∈ p.limit, p.direction.addressIn r n < limit) → ∃ a',
    (perform (.allocate size p)).effect a = (.ok (.placed (p.direction.addressIn r n)), a') ∧
      a.bank.Takes (p.direction.addressIn r n) n a'.bank

theorem Sound.placedIn (h : a.Sound) (hr : (Request.allocate size p).InRange)
    (hg : a.view.grant size = .ok (some n)) (hc : a.choose? n = some k) (hn : n ≤ k.size) :
    a.PlacedIn size n (k.range a.bank.geometry.offset) p := by
  have hanswer : a.view.answer a.choose? (.allocate size p) = a.view.answerIn k n p := by
    rw [View.answer_allocate_of_some hg, hc]
  have haddress := Block.addressIn_range a.bank.geometry.offset hn p.direction
  have hgeo : a.view.geometry = a.bank.geometry := rfl
  constructor
  · intro limit hl hle
    refine h.refuses hr ?_ (refused_error _)
    rw [hanswer, View.answerIn, Option.mem_def.1 hl, haddress, hgeo]
    exact if_neg (by omega)
  · intro hbelow
    have hin : a.view.answerIn k n p =
        .ok (.placed (p.direction.addressIn (k.range a.bank.geometry.offset) n)) := by
      rw [View.answerIn, haddress, hgeo]
      cases hl : p.limit with
      | none => rfl
      | some limit =>
        have := hbelow limit hl
        exact if_pos (by omega)
    obtain ⟨a', he, -⟩ := perform_spec h hr
    rw [hanswer, hin] at he
    exact ⟨a', he, (perform_step h hr he).1.takes hg⟩

/-- Requests for `size` bytes are served from the range that the design prefers of these, the same
one for all directions and limits. -/
structure AllocatesFrom (a : Allocator) (size : ℕ) (ranges : List (ℕ × ℕ)) : Prop where
  noRoom : ∀ p, (Request.allocate size p).InRange →
    (((perform (.allocate size p)).effect a).1 = .ok .noRoom ↔ ranges = [])
  kept : ranges = [] → ∀ p, (Request.allocate size p).InRange →
    ((perform (.allocate size p)).effect a).2 = a
  chosen : ranges ≠ [] → ∃ n r, a.bank.geometry.grant size = .ok (some n) ∧
    a.design.Prefers ranges r ∧ ∀ p, (Request.allocate size p).InRange → a.PlacedIn size n r p

/-- Where the answer is that there is no room, no range could hold the request. -/
theorem Sound.allocatesFrom_nil (h : a.Sound)
    (ha : ∀ p, a.view.answer a.choose? (.allocate size p) = .ok .noRoom) :
    a.AllocatesFrom size [] where
  noRoom p hr := by
    rw [h.refuses hr (ha p) refused_noRoom]
    exact iff_of_true rfl rfl
  kept _ p hr := by rw [h.refuses hr (ha p) refused_noRoom]
  chosen hne := absurd rfl hne

theorem Sound.allocatesFrom (h : a.Sound) (hg : a.view.grant size = .ok (some n)) :
    a.AllocatesFrom size
      ((a.bank.candidates n).map (Block.range a.bank.geometry.offset)) := by
  rcases h.choose?_prefers n a.bank.geometry.offset with ⟨hc, hnil⟩ | ⟨k, hk, hc, hprefers⟩
  · rw [hnil]
    refine h.allocatesFrom_nil fun p => ?_
    rw [View.answer_allocate_of_some hg, hc]
  · have hne : (a.bank.candidates n).map (Block.range a.bank.geometry.offset) ≠ [] :=
      List.ne_nil_of_mem (List.mem_map_of_mem hk)
    refine ⟨fun p hr => iff_of_false (fun hno => ?_) hne, fun hnil => absurd hnil hne, fun _ => ?_⟩
    · obtain ⟨a', he, -⟩ := perform_spec h hr
      rw [he, View.answer_allocate_of_some hg, hc] at hno
      exact View.answerIn_ne_noRoom hno
    · exact ⟨n, _, (View.grant_some hg).1, hprefers,
        fun p hr => h.placedIn hr hg hc (Bank.mem_candidates.1 hk).2.2⟩

/-- **Requests for memory are served from the free ranges that callers can ask for**, wherever a run
has led. There is no room exactly if there is no range. Otherwise one of the ranges is taken by the
design's preference alone: the direction tells which end of it, and the limit whether that is
admitted. -/
theorem Reached.allocates_from_available {g : Geometry} {log : Log} (h : Reached g log a)
    (hm : g.minimum < Address.limit) (hs : size < Address.limit) :
    ∃ ranges, (a.bank.availableAddresses size).result = .ok ranges ∧
      a.AllocatesFrom size ranges := by
  have hb := h.sound.bank
  have hmin : a.view.geometry.minimum < Address.limit := by rwa [h.view_eq]
  obtain ⟨o, ho⟩ := View.grant_ok hb.geometry hmin hs
  cases o with
  | none => exact ⟨[], hb.availableAddresses_of_none ho,
      h.sound.allocatesFrom_nil fun p => View.answer_allocate_of_none ho⟩
  | some n => exact ⟨_, hb.availableAddresses_of_some ho, h.sound.allocatesFrom ho⟩

/-- Three free ranges, of which two are the shortest. -/
theorem allocates_from_lowest_of_shortest : ∃ log a, Reached ⟨128, 4096, 16, 16⟩ log a ∧
    (a.bank.availableAddresses 10).result = .ok [(4096, 4112), (4128, 4144), (4176, 4224)] ∧
    a.AllocatesFrom 10 [(4096, 4112), (4128, 4144), (4176, 4224)] := by
  have h := Reached.of_serve (Design.build_linear (g := ⟨128, 4096, 16, 16⟩) (by decide) .best)
    [.allocateAt 4112 16, .allocateAt 4144 32] (by simp [Request.InRange, Address.limit]) rfl
  have hsize : 10 < Address.limit := by decide
  obtain ⟨ranges, hranges, hfrom⟩ := h.allocates_from_available (by decide) hsize
  obtain rfl : ranges = [(4096, 4112), (4128, 4144), (4176, 4224)] :=
    Except.ok.inj (hranges.symm.trans rfl)
  exact ⟨_, _, h, hranges, hfrom⟩

end Allocator

end MemoryBank
