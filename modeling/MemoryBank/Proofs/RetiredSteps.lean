import MemoryBank.Proofs.Questions
import MemoryBank.Proofs.Retired
import MemoryBank.Proofs.Runs

/-!
# Nothing tells what retired slots hold

Two allocators that differ in nothing but what is left in retired slots answer every request and
every question alike, and go on to differ in nothing else.

* `Ledger.SameButRetired.perform` and `Allocator.SameButRetired.perform`: one request.
* `Allocator.SameButRetired.serve`: a run.
* `Allocator.SameButRetired.answersAlike`: the questions.
-/

namespace MemoryBank

open MemoryBank.Action

/-! ## The indexed allocator without its classes -/

namespace Ledger

variable {c d : Ledger}

/-- Two ledgers differ in nothing but what is left in retired slots. -/
structure SameButRetired (c d : Ledger) : Prop where
  bank : c.bank.SameButRetired d.bank
  filed : c.filed = d.filed
  live : c.live = d.live

/-- What is filed, and the blocks, determine which block is taken. -/
theorem SameButRetired.choose?_eq (hc : c.Sound) (hd : d.Sound) (h : c.SameButRetired d) :
    c.choose? = d.choose? := by
  funext n
  rcases hc.choose?_spec n with ⟨k, hk, -, hbest, hck, -⟩ | ⟨hno, hck, -⟩
  · rcases hd.choose?_spec n with ⟨k', hk', -, hbest', hdk, -⟩ | ⟨hno', -⟩
    · rw [← h.filed] at hbest'
      rw [← h.bank.table.blocks] at hk'
      have hi : k.index = k'.index := congrArg Prod.fst (hbest.unique hbest')
      rw [hck, hdk, hc.bank.table.eq_of_index hk hk' hi]
    · have := hno' _ (h.filed ▸ hbest.mem)
      have := hbest.fits
      omega
  · rcases hd.choose?_spec n with ⟨k', -, -, hbest', -⟩ | ⟨-, hdk, -⟩
    · have := hno _ (h.filed ▸ hbest'.mem)
      have := hbest'.fits
      omega
    · rw [hck, hdk]

/-- **A request makes the same of both ledgers**: the blocks that it leads to determine both
indexes. -/
theorem SameButRetired.perform (hc : c.Sound) (hd : d.Sound) (h : c.SameButRetired d) {r : Request}
    (hr : r.InRange) : ∃ (reply : Except Failure Reply) (c' d' : Ledger), c'.Sound ∧ d'.Sound ∧
    c'.SameButRetired d' ∧ ∀ classes,
      (Indexed.perform r).effect (c.grouped classes) = (reply, c'.grouped classes) ∧
        (Indexed.perform r).effect (d.grouped classes) = (reply, d'.grouped classes) := by
  obtain ⟨c', hfc, hec⟩ := perform_spec hc hr
  obtain ⟨d', hfd, hed⟩ := perform_spec hd hr
  rw [← h.bank.view, ← h.choose?_eq hc hd] at hfd hed
  have hbank := hfc.step.sameButRetired hc.bank hd.bank h.bank hfd.step
  refine ⟨_, c', d', hfc.sound, hfd.sound, ⟨hbank, ?_, ?_⟩,
    fun classes => ⟨hec classes, hed classes⟩⟩
  · rw [hfc.filed, hfd.filed, h.filed, hbank.table.blocks]
  · have hlive := hfd.live
    rw [← h.live, ← h.bank.geometry, ← hbank.table.blocks, hfc.live] at hlive
    exact Option.some.inj hlive

end Ledger

/-! ## Allocators of any design -/

namespace Allocator

/-- Two allocators differ in nothing but what is left in retired slots. -/
inductive SameButRetired : Allocator → Allocator → Prop
  | linear {b c : Bank} {policy : Policy} (h : b.SameButRetired c) :
      SameButRetired (.linear ⟨b, policy⟩) (.linear ⟨c, policy⟩)
  | indexed {b c : Bank} {free : FreeIndex} {live : LiveIndex} (h : b.SameButRetired c) :
      SameButRetired (.indexed ⟨b, free, live⟩) (.indexed ⟨c, free, live⟩)

/-- No question tells two allocators apart. -/
structure AnswersAlike (a b : Allocator) : Prop where
  lowestOccupied : a.bank.lowestOccupied = b.bank.lowestOccupied
  availableAddresses : ∀ request,
    a.bank.availableAddresses request = b.bank.availableAddresses request
  usage : a.bank.usage = b.bank.usage
  audit : a.audit = b.audit
  listing : a.listing = b.listing

namespace SameButRetired

variable {a b : Allocator}

theorem bank (h : a.SameButRetired b) : a.bank.SameButRetired b.bank := by
  cases h with
  | linear h => exact h
  | indexed h => exact h

/-- **Questions are answered alike.** -/
theorem answersAlike (h : a.SameButRetired b) (ha : a.Sound) (hb : b.Sound) :
    a.AnswersAlike b where
  lowestOccupied := h.bank.lowestOccupied ha.bank hb.bank
  availableAddresses := h.bank.availableAddresses ha.bank hb.bank
  usage := h.bank.usage ha.bank hb.bank
  audit := ha.audit_eq.trans hb.audit_eq.symm
  listing := by
    cases h with
    | linear h =>
      unfold listing Linear.listing
      dsimp only
      rw [h.table.listing]
    | indexed h =>
      unfold listing Indexed.listing
      dsimp only
      rw [h.table.listing, h.table.pool]

/-- Two sound allocators with size classes are ledgers that differ in nothing else either. -/
theorem exists_ledgers {b c : Bank} {free : FreeIndex} {live : LiveIndex}
    (h : b.SameButRetired c) (hb : Sound (.indexed ⟨b, free, live⟩))
    (hc : Sound (.indexed ⟨c, free, live⟩)) : ∃ (l m : Ledger) (classes : SizeClasses),
      l.Sound ∧ m.Sound ∧ l.SameButRetired m ∧
        ⟨b, free, live⟩ = l.grouped classes ∧ ⟨c, free, live⟩ = m.grouped classes := by
  have hcb : c.Sound := hc.bank
  obtain ⟨l, classes, hl, he⟩ := hb
  cases he
  refine ⟨l, ⟨c, l.filed, l.live⟩, classes, hl, ⟨hcb, ?_, ?_⟩, ⟨h, rfl, rfl⟩, rfl, rfl⟩
  · exact h.table.blocks ▸ hl.filed
  · exact h.table.blocks ▸ hl.live

/-- Ledgers that differ in nothing else are grouped alike by the same classes. -/
theorem grouped {c d : Ledger} (h : c.SameButRetired d) (classes : SizeClasses) :
    SameButRetired (.indexed (c.grouped classes)) (.indexed (d.grouped classes)) := by
  have hd : d.grouped classes = ⟨d.bank, .ofEntries classes c.filed, c.live⟩ := by
    rw [Ledger.grouped, h.filed, h.live]
  rw [hd]
  exact .indexed h.bank

/-- **A request is answered alike**, and makes the same of both. -/
theorem perform (h : a.SameButRetired b) (ha : a.Sound) (hb : b.Sound) {r : Request}
    (hr : r.InRange) : ∃ reply a' b', (Allocator.perform r).effect a = (reply, a') ∧
      (Allocator.perform r).effect b = (reply, b') ∧
      a'.Sound ∧ b'.Sound ∧ a'.SameButRetired b' := by
  cases h with
  | @linear b c policy h =>
    obtain ⟨⟨b', pb⟩, heb, hfb⟩ := Linear.perform_spec (a := ⟨b, policy⟩) ha r
    obtain ⟨⟨c', pc⟩, hec, hfc⟩ := Linear.perform_spec (a := ⟨c, policy⟩) hb r
    have hpb : pb = policy := hfb.policy
    have hpc : pc = policy := hfc.policy
    rw [hpb] at heb
    rw [hpc] at hec
    have hcandidates : b.candidates = c.candidates := by
      funext n
      rw [Bank.candidates, Bank.candidates, h.table.blocks]
    have hchoose : Linear.choose? ⟨b, policy⟩ = Linear.choose? ⟨c, policy⟩ := by
      funext n
      unfold Linear.choose?
      dsimp only
      rw [hcandidates]
    dsimp only at heb hec hfb hfc
    rw [← h.view, ← hchoose] at hec hfc
    exact ⟨_, _, _, effect_linear heb, effect_linear hec, hfb.sound, hfc.sound,
      .linear (hfb.step.sameButRetired ha hb h hfc.step)⟩
  | @indexed b c free live h =>
    obtain ⟨l, m, classes, hl, hm, hlm, hel, hem⟩ := exists_ledgers h ha hb
    rw [hel, hem]
    obtain ⟨reply, l', m', hl', hm', hlm', he⟩ := hlm.perform hl hm hr
    obtain ⟨hel, hem⟩ := he classes
    exact ⟨reply, _, _, effect_indexed hel, effect_indexed hem, ⟨l', classes, hl', rfl⟩,
      ⟨m', classes, hm', rfl⟩, grouped hlm' classes⟩

/-- **A run is answered alike**, and makes the same of both. -/
theorem serve (h : a.SameButRetired b) (ha : a.Sound) (hb : b.Sound) {rs : List Request}
    (hr : ∀ r ∈ rs, r.InRange) : ∃ replies a' b',
      MemoryBank.serve Allocator.perform rs a = (replies, a') ∧
        MemoryBank.serve Allocator.perform rs b = (replies, b') ∧
        a'.Sound ∧ b'.Sound ∧ a'.SameButRetired b' := by
  induction rs generalizing a b with
  | nil => exact ⟨[], a, b, rfl, rfl, ha, hb, h⟩
  | cons r rs ih =>
    obtain ⟨reply, a₁, b₁, hea, heb, ha₁, hb₁, h₁⟩ := h.perform ha hb (hr r List.mem_cons_self)
    obtain ⟨replies, a', b', hsa, hsb, hlast⟩ :=
      ih h₁ ha₁ hb₁ fun r hm => hr r (List.mem_cons_of_mem _ hm)
    refine ⟨reply :: replies, a', b', ?_, ?_, hlast⟩
    · rw [serve_cons hea, hsa]
    · rw [serve_cons heb, hsb]

end SameButRetired

end Allocator

end MemoryBank
