import MemoryBank.Proofs.Questions
import MemoryBank.Proofs.Runs

/-!
# The indexed allocator agrees with the walk for the best fit

An indexed allocator and a linear one with the best-fit policy are `Related` if as much is cut off
both and their blocks lie alike, whatever slots hold them. From then on they can only come apart
where two free blocks of the same size are the smallest that are large enough.

* `Bank.Interchangeable`: the answers to all questions are the same.
* `TieFreeRun`: a run that meets no tie, with a lemma for each kind of first request.
* `AgreesUpToTies`: what is claimed of related allocators.
* `Paired`: what is true of such a pair, and is true again after a request answered alike.
* `indexed_agrees_with_bestFit`: the claim holds of any related allocators that runs can lead to.
-/

namespace MemoryBank

open MemoryBank.Action

/-! ## Questions do not see handles -/

section Handles

variable {b c : Bank} {bs cs : List Block} {k : Block}

/-- A block without its handle. -/
def Block.bare (k : Block) : Block := { k with index := 0 }

theorem bare_of_layout (h : layout bs = layout cs) : bs.map Block.bare = cs.map Block.bare := by
  have key : ∀ bs : List Block,
      bs.map Block.bare = (layout bs).map fun e => ⟨0, e.1, e.2.1, e.2.2⟩ := fun bs => by
    rw [layout, List.map_map]
    rfl
  rw [key, key, h]

theorem exists_of_layout (h : layout bs = layout cs) (hk : k ∈ bs) : ∃ k' ∈ cs,
    k'.address = k.address ∧ k'.size = k.size ∧ k'.allocated = k.allocated := by
  have hm : (k.address, k.size, k.allocated) ∈ layout cs := h ▸ List.mem_map_of_mem hk
  obtain ⟨k', hk', he⟩ := List.mem_map.1 hm
  simp only [Prod.mk.injEq] at he
  exact ⟨k', hk', he⟩

theorem Bank.Holds.usage_eq_bare (h : b.Holds bs) :
    b.usage = (bs.map Block.bare).foldlM (Usage.count b.geometry) { allocatable := b.usable } := by
  rw [h.usage_eq, List.foldlM_map]
  rfl

theorem Bank.Holds.freeRanges_eq_bare (h : b.Holds bs) (n : ℕ) :
    b.freeRanges n =
      ((b.table.blocks.map Block.bare).filter fun k => !k.allocated && n ≤ k.size).mapM fun k =>
        return (← b.geometry.toAbsolute k.address, ← b.geometry.toAbsolute (← k.stop)) := by
  rw [Bank.freeRanges, h.table.exhaust_eq, List.filter_map, List.mapM_map]
  exact bind_pure _

/-- Where one bank has a free block, a bank whose blocks lie alike has one too. -/
theorem Bank.exists_candidate (h : layout b.table.blocks = layout c.table.blocks) {n : ℕ}
    (hk : k ∈ b.candidates n) :
    ∃ k' ∈ c.candidates n, k'.address = k.address ∧ k'.size = k.size := by
  obtain ⟨hm, hf, hn⟩ := Bank.mem_candidates.1 hk
  obtain ⟨k', hk', ha, hs, hf'⟩ := exists_of_layout h hm
  exact ⟨k', Bank.mem_candidates.2 ⟨hk', hf'.trans hf, hs ▸ hn⟩, ha, hs⟩

/-- Two banks that give the same answers to all questions. -/
structure Bank.Interchangeable (b c : Bank) : Prop where
  usable : b.usable = c.usable
  shrunk : b.shrunk = c.shrunk
  usage : b.usage = c.usage
  available : ∀ request, b.availableAddresses request = c.availableAddresses request
  lowest : b.lowestOccupied = c.lowestOccupied

/-- What callers can tell of two banks being the same, all questions are answered alike. -/
theorem Bank.interchangeable (hb : b.Sound) (hc : c.Sound) (h : b.view = c.view) :
    b.Interchangeable c := by
  have hbare := bare_of_layout (hb.layout_eq hc h)
  have hg : b.geometry = c.geometry := congrArg View.geometry h
  have hs : b.shrunk = c.shrunk := congrArg View.shrunk h
  have hu : b.usable = c.usable := by
    have := hb.account
    have := hc.account
    rw [← hg] at this
    omega
  refine ⟨hu, hs, ?_, fun request => ?_, ?_⟩
  · rw [hb.usage_eq_bare, hc.usage_eq_bare, hbare, hg, hu]
  · have hgrant : b.grant request = c.grant request := by
      simp only [Bank.grant, hg, hu]
    have hfree : ∀ n, b.freeRanges n = c.freeRanges n := fun n => by
      rw [hb.freeRanges_eq_bare, hc.freeRanges_eq_bare, hbare, hg]
    simp only [Bank.availableAddresses, hgrant, hfree]
  · have hfind : (b.table.blocks.find? (·.allocated)).map Block.bare =
        (c.table.blocks.find? (·.allocated)).map Block.bare := by
      have := congrArg (List.find? (·.allocated)) hbare
      rwa [List.find?_map, List.find?_map] at this
    rw [Bank.lowestOccupied, Bank.lowestOccupied, hb.table.exhaust_eq, hc.table.exhaust_eq]
    cases hfb : b.table.blocks.find? (·.allocated) with
    | none =>
      rw [hfb] at hfind
      rw [Option.map_eq_none_iff.1 hfind.symm]
    | some k =>
      rw [hfb] at hfind
      obtain ⟨k', hfc, hk⟩ := Option.map_eq_some_iff.1 hfind.symm
      have ha : k'.bare.address = k.bare.address := congrArg Block.address hk
      change k'.address = k.address at ha
      simp only [hfc, ha, hg]

end Handles

/-! ## Related allocators -/

/-- A run for this geometry leads to the indexed allocator. -/
def Indexed.Reachable (g : Geometry) (a : Indexed) : Prop :=
  ∃ base count rs a₀, (∀ r ∈ rs, r.InRange) ∧ (Indexed.create g base count).result = .ok a₀ ∧
    (serve Indexed.perform rs a₀).2 = a

/-- A run for this geometry leads to the linear allocator. -/
def Linear.Reachable (g : Geometry) (policy : Policy) (a : Linear) : Prop :=
  ∃ rs a₀, (∀ r ∈ rs, r.InRange) ∧ (Linear.create g policy).result = .ok a₀ ∧
    (serve Linear.perform rs a₀).2 = a

/-- As much is cut off both allocators, and their blocks lie alike. -/
def Related (a : Indexed) (l : Linear) : Prop :=
  a.bank.shrunk = l.bank.shrunk ∧ layout a.bank.table.blocks = layout l.bank.table.blocks

/-- The same answer, and related allocators after it. -/
def Alike (x : Except Failure Reply × Indexed) (y : Except Failure Reply × Linear) : Prop :=
  x.1 = y.1 ∧ Related x.2 y.2

/-- Among the free blocks of at least `n` bytes, no two are the smallest. -/
def Bank.TieFree (b : Bank) (n : ℕ) : Prop :=
  ∀ k ∈ b.candidates n, (∀ c ∈ b.candidates n, k.size ≤ c.size) →
    ∀ k' ∈ b.candidates n, k'.size = k.size → k' = k

/-- Wherever the run looks for memory, there is no tie. -/
def TieFreeRun : List Request → Linear → Prop
  | [], _ => True
  | r :: rs, l =>
    (∀ size p n, r = .allocate size p → (l.bank.grant size).result = .ok (some n) →
      l.bank.TieFree n) ∧ TieFreeRun rs ((Linear.perform r).effect l).2

instance (b : Bank) (n : ℕ) : Decidable (b.TieFree n) :=
  inferInstanceAs (Decidable (∀ k ∈ b.candidates n, (∀ c ∈ b.candidates n, k.size ≤ c.size) →
    ∀ k' ∈ b.candidates n, k'.size = k.size → k' = k))

section TieFreeRun

variable {r : Request} {rs : List Request} {l : Linear}

theorem TieFreeRun.allocate {size n : ℕ} {p : Placement}
    (hn : (l.bank.grant size).result = .ok (some n)) (h : l.bank.TieFree n)
    (hrs : TieFreeRun rs ((Linear.perform (.allocate size p)).effect l).2) :
    TieFreeRun (.allocate size p :: rs) l := by
  refine ⟨fun size' p' n' hr hn' => ?_, hrs⟩
  cases hr
  obtain rfl : n = n' := Option.some.inj (Except.ok.inj (hn.symm.trans hn'))
  exact h

theorem TieFreeRun.other (hr : ∀ size p, r ≠ .allocate size p)
    (hrs : TieFreeRun rs ((Linear.perform r).effect l).2) : TieFreeRun (r :: rs) l :=
  ⟨fun size p _ he => absurd he (hr size p), hrs⟩

end TieFreeRun

/-- The two allocators agree, unless a tie makes the difference. -/
structure AgreesUpToTies (a : Indexed) (l : Linear) : Prop where
  /-- Requests that do not look for memory are served alike. -/
  other : ∀ r, r.InRange → (∀ size p, r ≠ .allocate size p) →
    Alike ((Indexed.perform r).effect a) ((Linear.perform r).effect l)
  /-- Either both have room or neither has. -/
  noRoom : ∀ size p, ((Indexed.perform (.allocate size p)).effect a).1 = .ok .noRoom ↔
    ((Linear.perform (.allocate size p)).effect l).1 = .ok .noRoom
  /-- If there is room, both pick free blocks of one size, and answer with an address in these. -/
  picks : ∀ size p n k, (a.bank.grant size).result = .ok (some n) → a.choose? n = some k →
    ∃ k', l.choose? n = some k' ∧ k ∈ a.bank.candidates n ∧ k' ∈ l.bank.candidates n ∧
      k.size = k'.size ∧
      ((Indexed.perform (.allocate size p)).effect a).1 = a.bank.view.answerIn k n p ∧
      ((Linear.perform (.allocate size p)).effect l).1 = l.bank.view.answerIn k' n p
  /-- If only one free block has that size, or none is picked, the request is served alike. -/
  unique : ∀ size p, (∀ n k, (a.bank.grant size).result = .ok (some n) →
      a.choose? n = some k →
        ∀ c ∈ a.bank.table.blocks, c.allocated = false → c.size = k.size → c = k) →
    Alike ((Indexed.perform (.allocate size p)).effect a)
      ((Linear.perform (.allocate size p)).effect l)
  /-- A run without ties gets the same answers, to requests and to questions. -/
  runs : ∀ rs, (∀ r ∈ rs, r.InRange) → TieFreeRun rs l →
    (serve Indexed.perform rs a).1 = (serve Linear.perform rs l).1 ∧
      (serve Indexed.perform rs a).2.bank.Interchangeable (serve Linear.perform rs l).2.bank

/-- Sound allocators for one bank, of which callers can tell the same. -/
structure Paired (c : Ledger) (l : Linear) : Prop where
  left : c.Sound
  right : l.bank.Sound
  policy : l.policy = .best
  view : c.bank.view = l.bank.view

namespace Paired

variable {c : Ledger} {l : Linear}

theorem layout_eq (h : Paired c l) : layout c.bank.table.blocks = layout l.bank.table.blocks :=
  h.left.bank.layout_eq h.right h.view

theorem related (h : Paired c l) (classes : SizeClasses) : Related (c.grouped classes) l :=
  ⟨congrArg View.shrunk h.view, h.layout_eq⟩

/-- Both pick free blocks of one size, or neither finds one. -/
theorem choice (h : Paired c l) (n : ℕ) :
    (∃ k k', c.choose? n = some k ∧ l.choose? n = some k' ∧ k ∈ c.bank.candidates n ∧
      k' ∈ l.bank.candidates n ∧ k.size = k'.size ∧ ∀ d ∈ l.bank.candidates n, k'.size ≤ d.size) ∨
    (c.choose? n = none ∧ l.choose? n = none) := by
  have hbest : l.choose? n = Linear.smallest? (l.bank.candidates n) := by
    rw [Linear.choose?, h.policy]
  rw [hbest]
  rcases h.left.choose?_least n with ⟨k, hkc, hc, hleast⟩ | ⟨hc, hnil⟩
  · obtain ⟨d, hd, hdk⟩ := Bank.exists_candidate h.layout_eq hkc
    cases hs : Linear.smallest? (l.bank.candidates n) with
    | none =>
      rw [Linear.smallest?_eq_none.1 hs] at hd
      cases hd
    | some k' =>
      obtain ⟨hk', hmin⟩ := Linear.smallest?_spec hs
      obtain ⟨d', hd', hdk'⟩ := Bank.exists_candidate h.layout_eq.symm hk'
      have := hmin d hd
      have := hleast d' hd'
      exact .inl ⟨k, k', hc, rfl, hkc, hk', by omega, hmin⟩
  · refine .inr ⟨hc, ?_⟩
    rw [Linear.smallest?_eq_none, List.eq_nil_iff_forall_not_mem]
    intro k' hk'
    obtain ⟨d, hd, -⟩ := Bank.exists_candidate h.layout_eq.symm hk'
    rw [hnil] at hd
    cases hd

/-- If both pick blocks at one address, they answer alike. -/
theorem answer_allocate (h : Paired c l) {size : ℕ} {p : Placement}
    (hp : ∀ n k k', c.bank.view.grant size = .ok (some n) → c.choose? n = some k →
      l.choose? n = some k' → k.address = k'.address) :
    c.bank.view.answer c.choose? (.allocate size p) =
      l.bank.view.answer l.choose? (.allocate size p) := by
  rw [← h.view]
  cases hg : c.bank.view.grant size with
  | error e => rw [View.answer_allocate_of_error hg, View.answer_allocate_of_error hg]
  | ok o =>
    cases o with
    | none => rw [View.answer_allocate_of_none hg, View.answer_allocate_of_none hg]
    | some n =>
      rw [View.answer_allocate_of_some hg, View.answer_allocate_of_some hg]
      rcases h.choice n with ⟨k, k', hk, hk', -, -, hs, -⟩ | ⟨hk, hk'⟩
      · rw [hk, hk']
        exact View.answerIn_congr (hp n k k' hg hk hk') hs
      · rw [hk, hk']

/-- The same answer to a request leads to such a pair again. -/
theorem step (h : Paired c l) {r : Request} (hr : c.Serves r)
    (ha : c.bank.view.answer c.choose? r = l.bank.view.answer l.choose? r) :
    ∃ reply c' l', Paired c' l' ∧ (Linear.perform r).effect l = (reply, l') ∧
      ∀ classes, (Indexed.perform r).effect (c.grouped classes) = (reply, c'.grouped classes) := by
  obtain ⟨c', hc, hec⟩ := hr
  obtain ⟨l', hel, hl⟩ := Linear.perform_spec h.right r
  refine ⟨_, c', l', ⟨hc.sound, hl.sound, hl.policy.trans h.policy, ?_⟩, hel, fun classes => ?_⟩
  · rw [hc.view, hl.view, ha, h.view]
  · rw [hec, ha]

theorem alike (h : Paired c l) {r : Request} (hr : c.Serves r)
    (ha : c.bank.view.answer c.choose? r = l.bank.view.answer l.choose? r) (classes : SizeClasses) :
    Alike ((Indexed.perform r).effect (c.grouped classes)) ((Linear.perform r).effect l) := by
  obtain ⟨reply, c', l', hp, hel, hec⟩ := h.step hr ha
  rw [hel, hec]
  exact ⟨rfl, hp.related classes⟩

theorem answer_other (h : Paired c l) {r : Request} (hr : ∀ size p, r ≠ .allocate size p) :
    c.bank.view.answer c.choose? r = l.bank.view.answer l.choose? r := by
  rw [h.view]
  exact View.answer_congr hr

/-- Without a tie, the blocks that are picked lie at one address. -/
theorem address_of_tieFree (h : Paired c l) {n : ℕ} (ht : l.bank.TieFree n) {k k' : Block}
    (hk : c.choose? n = some k) (hk' : l.choose? n = some k') : k.address = k'.address := by
  rcases h.choice n with ⟨d, d', hd, hd', hdc, hdl, hs, hmin⟩ | ⟨hd, -⟩
  · obtain rfl := Option.some.inj (hk.symm.trans hd)
    obtain rfl := Option.some.inj (hk'.symm.trans hd')
    obtain ⟨e, he, hea, hes⟩ := Bank.exists_candidate h.layout_eq hdc
    rw [← hea, ht k' hdl hmin e he (hes.trans hs)]
  · rw [hd] at hk
    cases hk

/-- A run without ties gets the same answers. -/
theorem serve (h : Paired c l) {rs : List Request} (hr : ∀ r ∈ rs, r.InRange)
    (ht : TieFreeRun rs l) : ∃ replies c' l', Paired c' l' ∧
      serve Linear.perform rs l = (replies, l') ∧
      ∀ classes, serve Indexed.perform rs (c.grouped classes) = (replies, c'.grouped classes) := by
  induction rs generalizing c l with
  | nil => exact ⟨[], c, l, h, rfl, fun _ => rfl⟩
  | cons r rs ih =>
    obtain ⟨hnow, hlater⟩ := ht
    have ha : c.bank.view.answer c.choose? r = l.bank.view.answer l.choose? r := by
      cases r with
      | allocate size p =>
        refine h.answer_allocate fun n k k' hg hk hk' => h.address_of_tieFree ?_ hk hk'
        exact hnow size p n rfl (by rw [h.right.grant, ← h.view, hg])
      | _ => exact h.answer_other fun _ _ => nofun
    obtain ⟨reply, c₁, l₁, hp, hel, hec⟩ :=
      h.step (Ledger.perform_spec h.left (hr r List.mem_cons_self)) ha
    rw [hel] at hlater
    obtain ⟨replies, c₂, l₂, hp₂, hrl, hrc⟩ :=
      ih hp (fun r h => hr r (List.mem_cons_of_mem _ h)) hlater
    exact ⟨reply :: replies, c₂, l₂, hp₂, by rw [serve_cons hel, hrl],
      fun classes => by rw [serve_cons (hec classes), hrc]⟩

/-- Either both have room or neither has. -/
theorem noRoom_iff (h : Paired c l) {size : ℕ} {p : Placement} :
    c.bank.view.answer c.choose? (.allocate size p) = .ok .noRoom ↔
      l.bank.view.answer l.choose? (.allocate size p) = .ok .noRoom := by
  rw [← h.view]
  cases hg : c.bank.view.grant size with
  | error e => rw [View.answer_allocate_of_error hg, View.answer_allocate_of_error hg]
  | ok o =>
    cases o with
    | none => rw [View.answer_allocate_of_none hg, View.answer_allocate_of_none hg]
    | some n =>
      rw [View.answer_allocate_of_some hg, View.answer_allocate_of_some hg]
      rcases h.choice n with ⟨k, k', hk, hk', -⟩ | ⟨hk, hk'⟩
      · rw [hk, hk']
        exact iff_of_false View.answerIn_ne_noRoom View.answerIn_ne_noRoom
      · rw [hk, hk']

/-- If the block that is picked is the only free one of its size, both pick blocks at one
address. -/
theorem address_of_unique (h : Paired c l) {n : ℕ} {k k' : Block} (hk : c.choose? n = some k)
    (hk' : l.choose? n = some k')
    (hu : ∀ d ∈ c.bank.table.blocks, d.allocated = false → d.size = k.size → d = k) :
    k.address = k'.address := by
  rcases h.choice n with ⟨d, d', hd, hd', -, hdl, hs, -⟩ | ⟨hd, -⟩
  · obtain rfl := Option.some.inj (hk.symm.trans hd)
    obtain rfl := Option.some.inj (hk'.symm.trans hd')
    obtain ⟨e, he, hea, hes⟩ := Bank.exists_candidate h.layout_eq.symm hdl
    obtain ⟨hem, hef, -⟩ := Bank.mem_candidates.1 he
    rw [← hea, hu e hem hef (hes.trans hs.symm)]
  · rw [hd] at hk
    cases hk

theorem agreesUpToTies (h : Paired c l) (classes : SizeClasses) :
    AgreesUpToTies (c.grouped classes) l := by
  have hchoose : (c.grouped classes).choose? = c.choose? := h.left.choose?_grouped classes
  have hgrant : ∀ size, ((c.grouped classes).bank.grant size).result = c.bank.view.grant size :=
    h.left.bank.grant
  refine ⟨fun r hr hno => ?_, fun size p => ?_, fun size p n k hg hk => ?_,
    fun size p hu => ?_, fun rs hr ht => ?_⟩
  · exact h.alike (Ledger.perform_spec h.left hr) (h.answer_other hno) classes
  · obtain ⟨c', -, hec⟩ := Ledger.serves_allocate h.left size p
    obtain ⟨l', hel, -⟩ := Linear.serves_allocate h.right size p
    rw [hec, hel]
    exact h.noRoom_iff
  · obtain ⟨c', -, hec⟩ := Ledger.serves_allocate h.left size p
    obtain ⟨l', hel, -⟩ := Linear.serves_allocate h.right size p
    rw [hchoose] at hk
    rw [hgrant] at hg
    rcases h.choice n with ⟨d, k', hd, hk', hkc, hkl, hs, -⟩ | ⟨hd, -⟩
    · obtain rfl := Option.some.inj (hk.symm.trans hd)
      refine ⟨k', hk', hkc, hkl, hs, ?_, ?_⟩
      · rw [hec, View.answer_allocate_of_some hg, hk]
        rfl
      · rw [h.view] at hg
        rw [hel, View.answer_allocate_of_some hg, hk']
    · rw [hd] at hk
      cases hk
  · refine h.alike (Ledger.serves_allocate h.left size p) ?_ classes
    refine h.answer_allocate fun n k k' hg hk hk' => h.address_of_unique hk hk' ?_
    exact hu n k (by rw [hgrant, hg]) (by rw [hchoose, hk])
  · obtain ⟨replies, c', l', hp, hrl, hrc⟩ := h.serve hr ht
    rw [hrl, hrc]
    exact ⟨rfl, Bank.interchangeable hp.left.bank hp.right hp.view⟩

end Paired

/-! ## Reachable allocators -/

theorem Indexed.Reachable.ledger {g : Geometry} {a : Indexed} (h : a.Reachable g) :
    ∃ c classes, Ledger.Sound c ∧ c.bank.geometry = g ∧ a = c.grouped classes := by
  obtain ⟨base, count, rs, a₀, hr, hcreate, rfl⟩ := h
  obtain ⟨hg, classes, rfl⟩ := Indexed.create_ok hcreate
  have hs := (Ledger.holds_fresh (Geometry.validate_eq_ok_iff.1 hg)).sound
  obtain ⟨replies, c, hc, hcg, hrun⟩ := Ledger.serve_spec hs hr
  exact ⟨c, classes, hc, hcg, by rw [hrun]⟩

theorem Linear.Reachable.sound {g : Geometry} {policy : Policy} {l : Linear}
    (h : l.Reachable g policy) : l.bank.Sound ∧ l.bank.geometry = g ∧ l.policy = policy := by
  obtain ⟨rs, l₀, hr, hcreate, rfl⟩ := h
  obtain ⟨hg, rfl⟩ := Linear.create_ok hcreate
  have hs := (Bank.holds_fresh (Geometry.validate_eq_ok_iff.1 hg)).sound
  obtain ⟨replies, l, hrun, hl, hlg, hlp⟩ := Linear.serve_spec (a := ⟨.fresh g, policy⟩) hs rs
  rw [hrun]
  exact ⟨hl, hlg, hlp⟩

/-- Reachable allocators that are related show callers the same. -/
theorem Related.paired {c : Ledger} {l : Linear} {classes : SizeClasses}
    (h : Related (c.grouped classes) l) (hc : c.Sound) (hl : l.bank.Sound)
    (hg : c.bank.geometry = l.bank.geometry) (hp : l.policy = .best) : Paired c l := by
  refine ⟨hc, hl, hp, ?_⟩
  have hlive : liveRanges c.bank.table.blocks = liveRanges l.bank.table.blocks :=
    liveRanges_of_layout h.2
  simp only [Bank.view, hg, allocations, hlive, View.mk.injEq, true_and, and_true]
  exact h.1

/-- **The indexed allocator agrees with the walk for the best fit, up to ties.** Allocators that
runs for one geometry lead to agree once they are related. Freshly created ones are related, so any
run without ties gets the same answers from both, to requests and to questions. -/
theorem indexed_agrees_with_bestFit {g : Geometry} (hg : g.validate = .ok ()) :
    (∀ a l, Indexed.Reachable g a → Linear.Reachable g .best l → Related a l →
      AgreesUpToTies a l) ∧
    ∀ base count, 0 < base → 0 < count → count < 64 → ∃ a l,
      (Indexed.create g base count).result = .ok a ∧ (Linear.create g .best).result = .ok l ∧
      Related a l ∧ ∀ rs, (∀ r ∈ rs, r.InRange) → TieFreeRun rs l →
        (serve Indexed.perform rs a).1 = (serve Linear.perform rs l).1 ∧
        (serve Indexed.perform rs a).2.bank.Interchangeable (serve Linear.perform rs l).2.bank := by
  constructor
  · intro a l ha hl h
    obtain ⟨c, classes, hc, hcg, rfl⟩ := ha.ledger
    obtain ⟨hls, hlg, hlp⟩ := hl.sound
    exact (h.paired hc hls (hcg.trans hlg.symm) hlp).agreesUpToTies classes
  · intro base count hb hc hl
    have hs := Geometry.validate_eq_ok_iff.1 hg
    have hp : Paired (.fresh g) ⟨.fresh g, .best⟩ :=
      ⟨(Ledger.holds_fresh hs).sound, (Bank.holds_fresh hs).sound, rfl, rfl⟩
    refine ⟨_, _, Indexed.create_spec hg hb hc hl, Linear.create_spec hg .best, hp.related _, ?_⟩
    exact (hp.agreesUpToTies _).runs

/-- A run without ties gets the same answers from two new allocators. When it looks for memory the
last time, two free blocks are large enough, and one of them is smaller than the other. The
allocators agree at that point as well as in the beginning. -/
theorem indexed_agrees_with_bestFit_of_two_free : ∃ a l,
    (Indexed.create ⟨64, 4096, 16, 16⟩ 16 3).result = .ok a ∧
      (Linear.create ⟨64, 4096, 16, 16⟩ .best).result = .ok l ∧ AgreesUpToTies a l ∧
      AgreesUpToTies
        (serve Indexed.perform [.allocate 16 {}, .allocate 16 {}, .deallocate 4096] a).2
        (serve Linear.perform [.allocate 16 {}, .allocate 16 {}, .deallocate 4096] l).2 ∧
      (serve Indexed.perform
          [.allocate 16 {}, .allocate 16 {}, .deallocate 4096, .allocate 16 {}] a).1 =
        (serve Linear.perform
          [.allocate 16 {}, .allocate 16 {}, .deallocate 4096, .allocate 16 {}] l).1 := by
  have hg : (⟨64, 4096, 16, 16⟩ : Geometry).validate = .ok () := by decide
  obtain ⟨agree, runs⟩ := indexed_agrees_with_bestFit hg
  obtain ⟨a, l, ha, hl, hrel, hruns⟩ := runs 16 3 (by decide) (by decide) (by decide)
  have hagree : AgreesUpToTies a l :=
    agree a l ⟨16, 3, [], a, by simp, ha, rfl⟩ ⟨[], l, by simp, hl, rfl⟩ hrel
  have hr : ∀ r ∈ ([.allocate 16 {}, .allocate 16 {}, .deallocate 4096] : List Request),
      r.InRange := by
    simp [Request.InRange, Address.limit]
  have hlater := agree _ _ ⟨16, 3, _, a, hr, ha, rfl⟩ ⟨_, l, hr, hl, rfl⟩
  have hsame := hruns [.allocate 16 {}, .allocate 16 {}, .deallocate 4096, .allocate 16 {}]
    (by simp [Request.InRange, Address.limit])
  -- with both states at hand, what the run makes of them can be computed
  obtain rfl := Except.ok.inj
    ((Indexed.create_spec hg (by decide) (by decide) (by decide)).symm.trans ha)
  obtain rfl := Except.ok.inj ((Linear.create_spec hg .best).symm.trans hl)
  have htie : TieFreeRun [.allocate 16 {}, .allocate 16 {}, .deallocate 4096, .allocate 16 {}]
      ⟨.fresh ⟨64, 4096, 16, 16⟩, .best⟩ :=
    .allocate (n := 16) (by decide) (by decide)
      (.allocate (n := 16) (by decide) (by decide)
        (.other (by simp) (.allocate (n := 16) (by decide) (by decide) trivial)))
  exact ⟨_, _, ha, hl, hagree, hlater ⟨by decide +kernel, by decide +kernel⟩, (hsame htie).1⟩

end MemoryBank
