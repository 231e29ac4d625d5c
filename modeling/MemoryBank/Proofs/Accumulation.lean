import MemoryBank.Proofs.Cutting
import MemoryBank.Proofs.RetiredSteps

/-!
# Cuts add up

A cut of some bytes and one of some more after it are one cut of both. They may retire the lowest
block in one step or shorten it in two, and an index of the free blocks may file it once or twice:
neither shows.

* `View.answer_cut_add`: two cuts are made just where one is.
* `Bank.Step.cut_add` and `Ledger.Follows.cut_add`: they lead to the same blocks, the same links and
  the same indexes.
* `Allocator.Reached.cuts_accumulate`: so nothing tells them apart later on.
-/

namespace MemoryBank

/-! ## When cuts are made -/

namespace View

variable {v : View} {x y amount : ℕ}

/-- A cut is made if it stays within what can be used, and below the lowest allocation. -/
theorem answer_cut_iff {pick : ℕ → Option Block} :
    v.answer pick (.shrink amount .bottomUp) = .ok .done ↔
      amount = 0 ∨ amount ≤ v.usable ∧ ∀ a ∈ v.lowest?, v.start + amount ≤ a := by
  rw [answer]
  split
  case isTrue hz => simp [hz]
  case isFalse hz =>
    rw [or_iff_right hz, answerCut]
    split
    case isFalse hle => simp [hle]
    case isTrue hle =>
      rw [and_iff_right hle]
      cases v.lowest? with
      | none => simp
      | some a =>
        rcases Nat.lt_or_ge a (v.start + amount) with hlt | hge
        · rw [Option.filter_some_pos (by simpa using hlt)]
          simpa using hlt
        · rw [Option.filter_some_neg (by simpa using hge)]
          simpa using hge

/-- **Two cuts are made just where one is.** -/
theorem answer_cut_add {pick pick' : ℕ → Option Block} :
    v.answer pick (.shrink (x + y) .bottomUp) = .ok .done ↔
      v.answer pick (.shrink x .bottomUp) = .ok .done ∧
        (v.after (.shrink x .bottomUp) (.ok .done)).answer pick' (.shrink y .bottomUp) =
          .ok .done := by
  have hlowest : (v.after (.shrink x .bottomUp) (.ok .done)).lowest? = v.lowest? := rfl
  have husable : (v.after (.shrink x .bottomUp) (.ok .done)).usable =
      v.geometry.size - (v.shrunk + x) := rfl
  have hstart : (v.after (.shrink x .bottomUp) (.ok .done)).start =
      v.geometry.offset + (v.shrunk + x) := rfl
  rw [answer_cut_iff, answer_cut_iff, answer_cut_iff, hlowest, husable, hstart, usable, start]
  cases v.lowest? with
  | none =>
    simp only [Option.mem_def, reduceCtorEq, false_implies, implies_true, and_true]
    omega
  | some a =>
    simp only [Option.mem_def, Option.some.injEq, forall_eq']
    omega

end View

/-! ## What cuts lead to -/

/-- What two cuts leave of a block, one leaves. -/
theorem shortened_add (k : Block) {x y : ℕ} (hx : x < k.size) :
    shortened ⟨k.index, k.address + x, k.size - x, k.allocated⟩ y = shortened k (x + y) := by
  have hiff : y = k.size - x ↔ x + y = k.size := by omega
  simp only [shortened, hiff, Nat.add_assoc, Nat.sub_sub]

/-- What a second cut leaves free was free before the first just if it was free between. A block
that is cut twice has three sizes, and is not filed under the last before. -/
theorem Table.Holds.mem_freeEntries_between {t t₁ : Table} {k : Block} {ys : List Block} {x m : ℕ}
    (h : t.Holds (k :: ys))
    (h₁ : t₁.Holds (⟨k.index, k.address + x, k.size - x, k.allocated⟩ :: ys)) (hx : 0 < x)
    (hm : x < m) (hle : m ≤ k.size) {e : Handle × ℕ} (he : e ∈ freeEntries (shortened k m ++ ys)) :
    e ∈ freeEntries (k :: ys) ↔
      e ∈ freeEntries (⟨k.index, k.address + x, k.size - x, k.allocated⟩ :: ys) := by
  rw [freeEntries_append, List.mem_append] at he
  rcases he with he | he
  · obtain ⟨d, hd, -, hi, hs⟩ := mem_freeEntries.1 he
    obtain ⟨-, rfl⟩ := mem_shortened.1 hd
    obtain rfl : (k.index, k.size - m) = e := Prod.ext hi hs
    refine iff_of_false (fun hmem => ?_) fun hmem => ?_
    · have := (h.of_mem_freeEntries List.mem_cons_self hmem).2
      omega
    · have := (h₁.of_mem_freeEntries List.mem_cons_self hmem).2
      dsimp only at this
      omega
  · have hrest : ∀ d : Block, e ∈ freeEntries (d :: ys) := fun d => by
      rw [← List.singleton_append, freeEntries_append]
      exact List.mem_append_right _ he
    exact iff_of_true (hrest _) (hrest _)

namespace Bank

variable {b b₁ b₂ b' : Bank} {x y amount : ℕ}

/-- A cut shortens the lowest block, or retires it. -/
theorem Step.shortens (hpos : 0 < amount)
    (hs : b.Step (.shrink amount .bottomUp) (.ok .done) b') : ∃ k ys, b.Holds (k :: ys) ∧
      amount ≤ k.size ∧ b'.Holds (shortened k amount ++ ys) ∧
      b'.table.pool = (if amount = k.size then [k.index] else []) ++ b.table.pool ∧
      b'.geometry = b.geometry ∧ b'.shrunk = b.shrunk + amount := by
  cases hs with
  | refused hr => exact absurd hr not_refused_done
  | uncut => omega
  | @cut _ ys k o t b' _ h hf ha hc hh =>
    obtain ⟨t', b'', hc', hh', hb, ht, hv⟩ := h.cut hf ha
    obtain ⟨rfl, rfl⟩ := ok_pair_unique hc' hc
    obtain rfl := Except.ok.inj (hh'.symm.trans hh)
    have hr := h.in_range (k := k) List.mem_cons_self
    have hk : b.table.Holds ([] ++ k :: ys) := h.table
    obtain ⟨t, hc'', -, hp⟩ := hk.truncateFront ha (by omega)
    obtain ⟨-, rfl⟩ := ok_pair_unique hc'' hc
    exact ⟨k, ys, h, ha, hb, ht ▸ hp, congrArg View.geometry hv, congrArg View.shrunk hv⟩

/-- **Two cuts leave the blocks that one leaves**, in the same slots. Between the two, the lowest
block is filed under a size of its own. -/
theorem Step.cut_add (hx : 0 < x) (hy : 0 < y)
    (h₁ : b.Step (.shrink x .bottomUp) (.ok .done) b₁)
    (h₂ : b₁.Step (.shrink y .bottomUp) (.ok .done) b₂)
    (h' : b.Step (.shrink (x + y) .bottomUp) (.ok .done) b') :
    b'.SameButRetired b₂ ∧ ∀ e ∈ freeEntries b'.table.blocks,
      e ∈ freeEntries b.table.blocks ↔ e ∈ freeEntries b₁.table.blocks := by
  obtain ⟨k, ys, hb, hle, hb', hp', hg', hs'⟩ := h'.shortens (by omega)
  obtain ⟨k₀, ys₀, hb₀, -, hb₁, hp₁, hg₁, hs₁⟩ := h₁.shortens hx
  obtain ⟨rfl, rfl⟩ := List.cons.inj (hb.table.blocks_eq.symm.trans hb₀.table.blocks_eq)
  -- the first cut does not use the block up
  have hlt : x < k.size := by omega
  have hshort : shortened k x = [⟨k.index, k.address + x, k.size - x, k.allocated⟩] :=
    if_neg hlt.ne
  rw [hshort] at hb₁
  obtain ⟨k₁, ys₁, hb₁', -, hb₂, hp₂, hg₂, hs₂⟩ := h₂.shortens hy
  obtain ⟨rfl, rfl⟩ := List.cons.inj (hb₁.table.blocks_eq.symm.trans hb₁'.table.blocks_eq)
  rw [shortened_add k hlt] at hb₂
  have hpool : b'.table.pool = b₂.table.pool := by
    have hiff : y = k.size - x ↔ x + y = k.size := by omega
    rw [hp', hp₂, hp₁, if_neg hlt.ne, List.nil_append]
    simp only [hiff]
  refine ⟨hb'.sameButRetired hb₂ hpool (hg'.trans (hg₂.trans hg₁).symm) (by omega), fun e he => ?_⟩
  rw [hb'.table.blocks_eq] at he
  rw [hb.table.blocks_eq, hb₁.table.blocks_eq]
  exact hb.table.mem_freeEntries_between hb₁.table hx (by omega) hle he

end Bank

/-- **Two cuts leave the indexes that one leaves.** -/
theorem Ledger.Follows.cut_add {c c₁ c₂ c' : Ledger} {x y : ℕ} (h : c.Sound) (hx : 0 < x)
    (hy : 0 < y) (h₁ : c.Follows (.shrink x .bottomUp) (.ok .done) c₁)
    (h₂ : c₁.Follows (.shrink y .bottomUp) (.ok .done) c₂)
    (h' : c.Follows (.shrink (x + y) .bottomUp) (.ok .done) c') : c'.SameButRetired c₂ := by
  obtain ⟨hbank, hentries⟩ := h₁.step.cut_add hx hy h₂.step h'.step
  refine ⟨hbank, ?_, ?_⟩
  · rw [h'.filed, h₂.filed, h₁.filed, ← hbank.table.blocks, refiled_refiled]
    intro e he
    rw [← hentries e he]
    exact h.filed.mem_iff
  · have hone : some c.live = some c'.live := h'.live
    have htwo : some c.live = some c₂.live := h₁.live.trans (h₂.live)
    exact Option.some.inj (hone.symm.trans htwo)

/-! ## Allocators of any design -/

namespace Allocator

variable {a a₁ a₂ a' : Allocator} {x y : ℕ}

theorem SameButRetired.refl (a : Allocator) : a.SameButRetired a := by
  cases a with
  | linear a => exact .linear (.refl a.bank)
  | indexed a => exact .indexed (.refl a.bank)

/-- **Two cuts lead to what one leads to**, but for what is left in retired slots. -/
theorem Sound.cut_add (h : a.Sound) (hlt : x + y < Address.limit)
    (h₁ : (perform (.shrink x .bottomUp)).effect a = (.ok .done, a₁))
    (h₂ : (perform (.shrink y .bottomUp)).effect a₁ = (.ok .done, a₂))
    (h' : (perform (.shrink (x + y) .bottomUp)).effect a = (.ok .done, a')) :
    a'.SameButRetired a₂ := by
  have hrx : (Request.shrink x .bottomUp).InRange := show x < Address.limit by omega
  have hry : (Request.shrink y .bottomUp).InRange := show y < Address.limit by omega
  have hrxy : (Request.shrink (x + y) .bottomUp).InRange := hlt
  rcases Nat.eq_zero_or_pos x with rfl | hx
  · rw [shrink_zero] at h₁
    obtain ⟨-, rfl⟩ := Prod.ext_iff.1 h₁
    rw [Nat.zero_add, h₂] at h'
    obtain ⟨-, rfl⟩ := Prod.ext_iff.1 h'
    exact .refl _
  rcases Nat.eq_zero_or_pos y with rfl | hy
  · rw [shrink_zero] at h₂
    obtain ⟨-, rfl⟩ := Prod.ext_iff.1 h₂
    rw [Nat.add_zero, h₁] at h'
    obtain ⟨-, rfl⟩ := Prod.ext_iff.1 h'
    exact .refl _
  cases a with
  | linear l =>
    obtain ⟨l₁, rfl, hf₁⟩ := follows_linear h h₁
    obtain ⟨l₂, rfl, hf₂⟩ := follows_linear hf₁.sound h₂
    obtain ⟨l', rfl, hf'⟩ := follows_linear h h'
    have hpolicy : l'.policy = l₂.policy := hf'.policy.trans (hf₂.policy.trans hf₁.policy).symm
    have hbank := (hf₁.step.cut_add hx hy hf₂.step hf'.step).1
    obtain ⟨b', policy⟩ := l'
    obtain ⟨b₂, policy₂⟩ := l₂
    obtain rfl : policy = policy₂ := hpolicy
    exact .linear hbank
  | indexed i =>
    obtain ⟨c, classes, hc, rfl⟩ := h
    obtain ⟨c₁, rfl, hf₁⟩ := follows_indexed hc hrx h₁
    obtain ⟨c₂, rfl, hf₂⟩ := follows_indexed hf₁.sound hry h₂
    obtain ⟨c', rfl, hf'⟩ := follows_indexed hc hrxy h'
    exact .grouped (hf₁.cut_add hc hx hy hf₂ hf') classes

/-- A cut at the low end: its answer, and what it leads to. -/
def cut (a : Allocator) (amount : ℕ) : Except Failure Reply × Allocator :=
  (perform (.shrink amount .bottomUp)).effect a

/-- A cut of `x + y` bytes is a cut of `x` bytes and one of `y` bytes after it. It is made if those
two are, and what it leads to differs from what they lead to in nothing but what is left in retired
slots. That is never told later on, whatever is requested and whatever is asked. -/
structure CutsAccumulate (a : Allocator) (x y : ℕ) : Prop where
  done_iff : (a.cut (x + y)).1 = .ok .done ↔
    (a.cut x).1 = .ok .done ∧ ((a.cut x).2.cut y).1 = .ok .done
  same : (a.cut (x + y)).1 = .ok .done → (a.cut (x + y)).2.SameButRetired ((a.cut x).2.cut y).2
  later : (a.cut (x + y)).1 = .ok .done → ∀ rs : List Request, (∀ r ∈ rs, r.InRange) →
    ∃ replies b c, serve perform rs (a.cut (x + y)).2 = (replies, b) ∧
      serve perform rs ((a.cut x).2.cut y).2 = (replies, c) ∧
      b.SameButRetired c ∧ b.AnswersAlike c

theorem Sound.cutsAccumulate (h : a.Sound) (hlt : x + y < Address.limit) :
    a.CutsAccumulate x y := by
  have hrx : (Request.shrink x .bottomUp).InRange := show x < Address.limit by omega
  have hry : (Request.shrink y .bottomUp).InRange := show y < Address.limit by omega
  have hrxy : (Request.shrink (x + y) .bottomUp).InRange := hlt
  obtain ⟨a₁, he₁, hs₁, hv₁, -⟩ := perform_spec h hrx
  obtain ⟨a₂, he₂, hs₂, -⟩ := perform_spec hs₁ hry
  obtain ⟨a', he', hs', -⟩ := perform_spec h hrxy
  have hone : a.cut x = _ := he₁
  have htwo : a₁.cut y = _ := he₂
  have hboth : a.cut (x + y) = _ := he'
  have hiff : (a.cut (x + y)).1 = .ok .done ↔
      (a.cut x).1 = .ok .done ∧ ((a.cut x).2.cut y).1 = .ok .done := by
    rw [hone, htwo, hboth, View.answer_cut_add]
    refine and_congr_right fun hdone => ?_
    rw [hv₁, hdone]
  have hsame : (a.cut (x + y)).1 = .ok .done →
      (a.cut (x + y)).2.SameButRetired ((a.cut x).2.cut y).2 := by
    intro hdone
    obtain ⟨hdone₁, hdone₂⟩ := hiff.1 hdone
    rw [hone] at hdone₁ hdone₂ ⊢
    rw [htwo] at hdone₂ ⊢
    rw [hboth] at hdone ⊢
    dsimp only at hdone hdone₁ hdone₂
    rw [hdone₁] at he₁
    rw [hdone₂] at he₂
    rw [hdone] at he'
    exact h.cut_add hlt he₁ he₂ he'
  refine ⟨hiff, hsame, fun hdone rs hr => ?_⟩
  have hsound : (a.cut (x + y)).2.Sound := by rwa [hboth]
  have hsound₂ : ((a.cut x).2.cut y).2.Sound := by rwa [hone, htwo]
  obtain ⟨replies, b, c, hb, hc, hsb, hsc, hbc⟩ := (hsame hdone).serve hsound hsound₂ hr
  exact ⟨replies, b, c, hb, hc, hbc, hbc.answersAlike hsb hsc⟩

/-- **Cuts add up**, wherever a run has led. -/
theorem Reached.cuts_accumulate {g : Geometry} {log : Log} (h : Reached g log a)
    (hlt : x + y < Address.limit) : a.CutsAccumulate x y :=
  h.sound.cutsAccumulate hlt

/-- The first of two cuts shortens the lowest block and the second retires it, where one cut retires
it at once. What is left in the slot is another address then. -/
theorem cuts_accumulate_up_to_allocation : ∃ log a, Reached ⟨64, 4096, 16, 16⟩ log a ∧
    (a.cut (16 + 16)).1 = .ok .done ∧ (a.cut (16 + 16)).2.bank ≠ ((a.cut 16).2.cut 16).2.bank ∧
    a.CutsAccumulate 16 16 := by
  have h := Reached.of_serve (Design.build_indexed (g := ⟨64, 4096, 16, 16⟩) (by decide) .standard)
    [.allocateAt 4128 16] (by simp [Request.InRange, Address.limit]) rfl
  exact ⟨_, _, h, rfl, by decide, h.cuts_accumulate (by decide)⟩

end Allocator

end MemoryBank
