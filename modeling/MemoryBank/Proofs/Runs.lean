import MemoryBank.Proofs.IndexedSteps
import MemoryBank.Proofs.LinearSteps

/-!
# Runs

Requests served one after the other, whatever each is answered.

* `serve` gives the answers and the last state.
* `Allocator.follows_linear` and `Allocator.follows_indexed`: what an allocator of either kind does
  is what its contract asks.
* `Allocator.perform_spec`: an allocator of any design keeps the contract.
* `Allocator.perform_step`: a request changes the bank by a step, and never the design.
* `Ledger.serve_spec`: a run of the indexed allocator is the same run for all classes.
* `Design.build_spec` and `Design.build_ok`: where runs begin.
-/

namespace MemoryBank

open MemoryBank.Action

/-- The answers to requests served one after the other, and the state after the last. A request
that fails is followed by the next all the same. -/
def serve {σ : Type} (perform : Request → Action σ Reply) :
    List Request → σ → List (Except Failure Reply) × σ
  | [], s => ([], s)
  | r :: rs, s =>
    let step := (perform r).effect s
    let rest := serve perform rs step.2
    (step.1 :: rest.1, rest.2)

theorem serve_cons {σ : Type} {perform : Request → Action σ Reply} {r : Request} {s t : σ}
    {reply : Except Failure Reply} (h : (perform r).effect s = (reply, t)) (rs : List Request) :
    serve perform (r :: rs) s = (reply :: (serve perform rs t).1, (serve perform rs t).2) := by
  simp only [serve, h]

/-- What each request keeps, a run keeps. -/
theorem serve_keeps {σ : Type} {perform : Request → Action σ Reply} {P : σ → Prop}
    {rs : List Request} (hstep : ∀ r ∈ rs, ∀ s, P s → P ((perform r).effect s).2) {s : σ}
    (h : P s) : P (serve perform rs s).2 := by
  induction rs generalizing s with
  | nil => exact h
  | cons r rs ih =>
    exact ih (fun r hr => hstep r (List.mem_cons_of_mem _ hr)) (hstep r List.mem_cons_self s h)

/-! ## Where runs begin -/

theorem Bank.create_spec {g : Geometry} (hg : g.validate = .ok ()) :
    (Bank.create g).result = .ok (.fresh g) := by
  rw [Bank.create, hg]
  rfl

theorem Linear.create_spec {g : Geometry} (hg : g.validate = .ok ()) (policy : Policy) :
    (Linear.create g policy).result = .ok ⟨.fresh g, policy⟩ := by
  rw [Linear.create, Traced.result_bind, Bank.create_spec hg]
  rfl

theorem Indexed.create_spec {g : Geometry} (hg : g.validate = .ok ()) {base count : ℕ}
    (hb : 0 < base) (hc : 0 < count) (hl : count < 64) : (Indexed.create g base count).result =
      .ok ((Ledger.fresh g).grouped ⟨base, count, hb, hc, hl⟩) := by
  have hcount : SizeClasses.ofCount base count = .ok ⟨base, count, hb, hc, hl⟩ := by
    rw [SizeClasses.ofCount, dif_pos hb, dif_pos ⟨hc, hl⟩]
  have hclear := Ledger.effect_clear ⟨.fresh g, .empty ⟨base, count, hb, hc, hl⟩, .empty⟩
    (Geometry.validate_eq_ok_iff.1 hg)
  have hresult := congrArg Prod.fst hclear
  have hstate := congrArg Prod.snd hclear
  simp only [Action.effect] at hresult hstate
  simp only [Indexed.create, Traced.result_bind, Bank.create_spec hg, Traced.result_lift, hcount,
    ok_bind, Action.exec, hresult, hstate]
  rfl

theorem Bank.create_ok {g : Geometry} {b : Bank} (h : (Bank.create g).result = .ok b) :
    g.validate = .ok () := by
  unfold Bank.create at h
  cases hg : g.validate with
  | ok u => rfl
  | error m =>
    rw [hg] at h
    cases h

/-- A linear allocator comes of a sound bank. -/
theorem Linear.create_ok {g : Geometry} {policy : Policy} {a : Linear}
    (h : (Linear.create g policy).result = .ok a) :
    g.validate = .ok () ∧ a = ⟨.fresh g, policy⟩ := by
  have hsteps := h
  rw [Linear.create, Traced.result_bind, bind_eq_ok_iff] at hsteps
  obtain ⟨b, hb, -⟩ := hsteps
  have hg := Bank.create_ok hb
  rw [Linear.create_spec hg] at h
  exact ⟨hg, (Except.ok.inj h).symm⟩

/-- An indexed allocator comes of a sound bank and legal classes. -/
theorem Indexed.create_ok {g : Geometry} {base count : ℕ} {a : Indexed}
    (h : (Indexed.create g base count).result = .ok a) :
    g.validate = .ok () ∧ ∃ classes, a = (Ledger.fresh g).grouped classes := by
  have hsteps := h
  rw [Indexed.create, Traced.result_bind, bind_eq_ok_iff] at hsteps
  obtain ⟨b, hb, hrest⟩ := hsteps
  rw [Traced.result_bind, Traced.result_lift, bind_eq_ok_iff] at hrest
  obtain ⟨classes, hc, -⟩ := hrest
  have hg := Bank.create_ok hb
  refine ⟨hg, ?_⟩
  unfold SizeClasses.ofCount at hc
  split at hc
  case isFalse => cases hc
  case isTrue hbase =>
    split at hc
    case isFalse => cases hc
    case isTrue hcount =>
      rw [Indexed.create_spec hg hbase hcount.1 hcount.2] at h
      exact ⟨_, (Except.ok.inj h).symm⟩

/-- The ways to build an allocator: with a policy for the walk, or with the base and the number of
size classes. -/
inductive Design
  | linear (policy : Policy)
  | indexed (base count : ℕ)
  deriving DecidableEq

namespace Design

/-- There are size classes as the design wants them. -/
def Legal : Design → Prop
  | .linear _ => True
  | .indexed base count => 0 < base ∧ 0 < count ∧ count < 64

/-- The allocator for a fresh bank. -/
def build (g : Geometry) : Design → Traced Allocator
  | .linear policy => do return .linear (← Linear.create g policy)
  | .indexed base count => do return .indexed (← Indexed.create g base count)

variable {g : Geometry}

theorem build_linear (hg : g.validate = .ok ()) (policy : Policy) :
    ((linear policy).build g).result = .ok (.linear ⟨.fresh g, policy⟩) := by
  rw [build, Traced.result_bind, Linear.create_spec hg]
  rfl

theorem build_indexed (hg : g.validate = .ok ()) (classes : SizeClasses) :
    ((indexed classes.base classes.count).build g).result =
      .ok (.indexed ((Ledger.fresh g).grouped classes)) := by
  rw [build, Traced.result_bind,
    Indexed.create_spec hg classes.base_pos classes.count_pos classes.count_lt]
  rfl

end Design

/-! ## One step of an allocator of any design -/

namespace Allocator

/-- All is well with an allocator. -/
def Sound : Allocator → Prop
  | .linear a => a.bank.Sound
  | .indexed a => ∃ c classes, Ledger.Sound c ∧ a = c.grouped classes

/-- The free block that is taken for a number of bytes. -/
def choose? : Allocator → ℕ → Option Block
  | .linear a => a.choose?
  | .indexed a => a.choose?

/-- What callers can tell of an allocator. -/
def view (a : Allocator) : View := a.bank.view

theorem Sound.bank {a : Allocator} (h : a.Sound) : a.bank.Sound := by
  cases a with
  | linear a => exact h
  | indexed a =>
    obtain ⟨c, classes, hc, rfl⟩ := h
    exact hc.bank

section Variants

variable {r : Request} {reply : Except Failure Reply}

theorem effect_linear {a a' : Linear} (h : (Linear.perform r).effect a = (reply, a')) :
    (perform r).effect (.linear a) = (reply, .linear a') := by
  have hresult := congrArg Prod.fst h
  have hstate := congrArg Prod.snd h
  exact Prod.ext hresult (congrArg Allocator.linear hstate)

theorem effect_indexed {a a' : Indexed} (h : (Indexed.perform r).effect a = (reply, a')) :
    (perform r).effect (.indexed a) = (reply, .indexed a') := by
  have hresult := congrArg Prod.fst h
  have hstate := congrArg Prod.snd h
  exact Prod.ext hresult (congrArg Allocator.indexed hstate)

/-- What a linear allocator does is what the contract asks of it. -/
theorem follows_linear {l : Linear} {a' : Allocator} (h : l.bank.Sound)
    (hs : (perform r).effect (.linear l) = (reply, a')) :
    ∃ l', a' = .linear l' ∧ l.Follows r reply l' := by
  obtain ⟨l', he, hf⟩ := Linear.perform_spec h r
  obtain ⟨rfl, rfl⟩ := Prod.ext_iff.1 ((effect_linear he).symm.trans hs)
  exact ⟨l', rfl, hf⟩

/-- What an indexed allocator does is what the contract asks of its ledger. -/
theorem follows_indexed {c : Ledger} {classes : SizeClasses} {a' : Allocator} (h : c.Sound)
    (hr : r.InRange) (hs : (perform r).effect (.indexed (c.grouped classes)) = (reply, a')) :
    ∃ c', a' = .indexed (c'.grouped classes) ∧ c.Follows r reply c' := by
  obtain ⟨c', hf, he⟩ := Ledger.perform_spec h hr
  obtain ⟨rfl, rfl⟩ := Prod.ext_iff.1 ((effect_indexed (he classes)).symm.trans hs)
  exact ⟨c', rfl, hf⟩

end Variants

/-- **An allocator of any design keeps the contract.** -/
theorem perform_spec {a : Allocator} (h : a.Sound) {r : Request} (hr : r.InRange) :
    ∃ a', (perform r).effect a = (a.view.answer a.choose? r, a') ∧ a'.Sound ∧
      a'.view = a.view.after r (a.view.answer a.choose? r) ∧
      (Refused (a.view.answer a.choose? r) → a' = a) := by
  cases a with
  | linear a =>
    obtain ⟨a', he, hf⟩ := Linear.perform_spec h r
    exact ⟨.linear a', effect_linear he, hf.sound, hf.view,
      fun h => congrArg Allocator.linear (hf.kept h)⟩
  | indexed a =>
    obtain ⟨c, classes, hc, rfl⟩ := h
    obtain ⟨c', hf, he⟩ := Ledger.perform_spec hc hr
    have hpick : (Allocator.indexed (c.grouped classes)).choose? = c.choose? :=
      Ledger.Holds.choose?_grouped hc classes
    rw [hpick]
    refine ⟨.indexed (c'.grouped classes), effect_indexed (he classes),
      ⟨c', classes, hf.sound, rfl⟩, hf.view, fun h => ?_⟩
    rw [hf.kept h]

/-- What is refused leaves an allocator as it was. -/
theorem Sound.refuses {a : Allocator} (h : a.Sound) {r : Request} (hr : r.InRange)
    {reply : Except Failure Reply} (ha : a.view.answer a.choose? r = reply) (hn : Refused reply) :
    (perform r).effect a = (reply, a) := by
  obtain ⟨a', he, -, -, hk⟩ := perform_spec h hr
  rw [ha] at he hk
  rw [he, hk hn]

/-- The design that an allocator follows. -/
def design : Allocator → Design
  | .linear a => .linear a.policy
  | .indexed a => .indexed a.free.classes.base a.free.classes.count

/-- **A request changes the bank by a step**, and never the design. -/
theorem perform_step {a a' : Allocator} (h : a.Sound) {r : Request} (hr : r.InRange)
    {reply : Except Failure Reply} (hs : (perform r).effect a = (reply, a')) :
    a.bank.Step r reply a'.bank ∧ a'.design = a.design := by
  cases a with
  | linear a =>
    obtain ⟨a', rfl, hf⟩ := follows_linear h hs
    exact ⟨hf.step, congrArg Design.linear hf.policy⟩
  | indexed a =>
    obtain ⟨c, classes, hc, rfl⟩ := h
    obtain ⟨c', rfl, hf⟩ := follows_indexed hc hr hs
    exact ⟨hf.step, rfl⟩

end Allocator

/-- A design leads to a sound allocator of which nothing is cut off or allocated. -/
theorem Design.build_spec {d : Design} (hd : d.Legal) {g : Geometry} (hg : g.validate = .ok ()) :
    ∃ a, (d.build g).result = .ok a ∧ a.Sound ∧ a.view = ⟨g, 0, ∅⟩ := by
  have hs := Geometry.validate_eq_ok_iff.1 hg
  cases d with
  | linear policy =>
    exact ⟨_, build_linear hg policy, (Bank.holds_fresh hs).sound, Bank.view_fresh hs⟩
  | indexed base count =>
    exact ⟨_, build_indexed hg ⟨base, count, hd.1, hd.2.1, hd.2.2⟩,
      ⟨_, _, (Ledger.holds_fresh hs).sound, rfl⟩, Bank.view_fresh hs⟩

/-- Whatever a design leads to is sound, and its bank is fresh. -/
theorem Design.build_ok {d : Design} {g : Geometry} {a : Allocator}
    (h : (d.build g).result = .ok a) : g.validate = .ok () ∧ a.Sound ∧ a.bank = .fresh g := by
  cases d with
  | linear policy =>
    rw [build, Traced.result_bind, bind_eq_ok_iff] at h
    obtain ⟨l, hl, h⟩ := h
    obtain ⟨hg, rfl⟩ := Linear.create_ok hl
    obtain rfl := Except.ok.inj h
    exact ⟨hg, (Bank.holds_fresh (Geometry.validate_eq_ok_iff.1 hg)).sound, rfl⟩
  | indexed base count =>
    rw [build, Traced.result_bind, bind_eq_ok_iff] at h
    obtain ⟨a, ha, h⟩ := h
    obtain ⟨hg, classes, rfl⟩ := Indexed.create_ok ha
    obtain rfl := Except.ok.inj h
    have hs := Geometry.validate_eq_ok_iff.1 hg
    exact ⟨hg, ⟨_, classes, (Ledger.holds_fresh hs).sound, rfl⟩, rfl⟩

/-! ## Runs of either allocator -/

theorem Linear.serve_spec {a : Linear} (h : a.bank.Sound) (rs : List Request) :
    ∃ replies a', serve Linear.perform rs a = (replies, a') ∧ a'.bank.Sound ∧
      a'.bank.geometry = a.bank.geometry ∧ a'.policy = a.policy := by
  have hstep : ∀ r ∈ rs, ∀ l : Linear,
      l.bank.Sound ∧ l.bank.geometry = a.bank.geometry ∧ l.policy = a.policy →
        ((perform r).effect l).2.bank.Sound ∧
          ((perform r).effect l).2.bank.geometry = a.bank.geometry ∧
          ((perform r).effect l).2.policy = a.policy := by
    rintro r - l ⟨hs, hg, hp⟩
    obtain ⟨l', he, hf⟩ := Linear.perform_spec hs r
    rw [he]
    exact ⟨hf.sound, (congrArg View.geometry hf.view).trans hg, hf.policy.trans hp⟩
  exact ⟨_, _, rfl, serve_keeps hstep ⟨h, rfl, rfl⟩⟩

/-- **A run of the indexed allocator is the same run for all classes**: the same answers, and the
same ledger at the end. -/
theorem Ledger.serve_spec {c : Ledger} (h : c.Sound) {rs : List Request}
    (hr : ∀ r ∈ rs, r.InRange) :
    ∃ (replies : List (Except Failure Reply)) (c' : Ledger), c'.Sound ∧
      c'.bank.geometry = c.bank.geometry ∧
      ∀ classes, serve Indexed.perform rs (c.grouped classes) = (replies, c'.grouped classes) := by
  induction rs generalizing c with
  | nil => exact ⟨[], c, h, rfl, fun _ => rfl⟩
  | cons r rs ih =>
    obtain ⟨c₁, hf, he⟩ := Ledger.perform_spec h (hr r List.mem_cons_self)
    obtain ⟨replies, c₂, hs, hg, hrun⟩ := ih hf.sound fun r h => hr r (List.mem_cons_of_mem _ h)
    have hg₁ : c₁.bank.geometry = c.bank.geometry := congrArg View.geometry hf.view
    refine ⟨c.bank.view.answer c.choose? r :: replies, c₂, hs, hg.trans hg₁, fun classes => ?_⟩
    rw [serve_cons (he classes), hrun]

end MemoryBank
