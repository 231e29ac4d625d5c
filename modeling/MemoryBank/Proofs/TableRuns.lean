import MemoryBank.Proofs.Auditing
import MemoryBank.Proofs.TableSteps

/-!
# Runs of the block table

What is true of a block table by itself, whoever calls its operations and in whatever order:
`Table.Reached.intact`. Callers may name any block of the list, and may leave gaps, empty blocks and
free neighbours; a call that fails does not count.

The invariant is `Table.Stacked`: the table holds a list of blocks that ascend. Each call leads from
such a list to another one (`Stacked.call`), and adds no slot while one waits in the pool
(`Table.Becomes`).
-/

namespace MemoryBank

namespace Table

/-- A call of one of the operations on a table that is in use. -/
inductive Call
  | setAllocated (i : Handle) (allocated : Bool)
  | carve (i : Handle) (offset size : ℕ)
  | mergeNext (i : Handle)
  | coalesce (i : Handle)
  | truncateFront (i : Handle) (amount : ℕ)
  | pushFront (address size : ℕ) (allocated : Bool)
  deriving DecidableEq

/-- The table after a call. -/
def call (t : Table) : Call → Except Failure Table
  | .setAllocated i allocated => t.setAllocated i allocated
  | .carve i offset size => return (← (t.carve i offset size).result).2
  | .mergeNext i => return (← (t.mergeNext i).result).2
  | .coalesce i => return (← (t.coalesce i).result).2
  | .truncateFront i amount => return (← t.truncateFront i amount).2
  | .pushFront address size allocated => return (← t.pushFront address size allocated).2

/-- The block that is named is in the list; the bytes that are added lie in the address space. -/
def Call.Proper (t : Table) : Call → Prop
  | .setAllocated i _ | .carve i _ _ | .mergeNext i | .coalesce i | .truncateFront i _ =>
    i ∈ handles t.blocks
  | .pushFront address size _ => address + size < Address.limit

instance (t : Table) : (c : Call) → Decidable (c.Proper t)
  | .setAllocated i _ | .carve i _ _ | .mergeNext i | .coalesce i | .truncateFront i _ =>
    inferInstanceAs (Decidable (i ∈ handles t.blocks))
  | .pushFront address size _ => inferInstanceAs (Decidable (address + size < Address.limit))

/-- A run leads to the table. The tables since it was new or last reset are `since`, the latest
first. -/
inductive Reached : List Table → Table → Prop
  | created {address size : ℕ} (h : address + size < Address.limit) :
      Reached [single address size] (single address size)
  | reset {since : List Table} {t : Table} {address size : ℕ} (ht : Reached since t)
      (h : address + size < Address.limit) : Reached [single address size] (single address size)
  | called {since : List Table} {t t' : Table} {c : Call} (ht : Reached since t) (hc : c.Proper t)
      (h : t.call c = .ok t') : Reached (t' :: since) t'

end Table

/-! ## Ascending blocks -/

/-- The first block ends before the second one starts. -/
def Block.Below (a b : Block) : Prop := a.address + a.size ≤ b.address

/-- The blocks ascend, and none leaves the address space. -/
structure Stack (bs : List Block) : Prop where
  ascending : bs.Pairwise Block.Below
  bounded : ∀ b ∈ bs, b.address + b.size < Address.limit

section Stacks

variable {b n : Block} {bs xs ys ks ms : List Block}

theorem Stack.chain (h : Stack bs) : Ascending bs := h.ascending.isChain

/-- Blocks that reach neither below nor above some blocks can take their place. -/
theorem Stack.replace (h : Stack (xs ++ ks ++ ys)) (hm : ms.Pairwise Block.Below)
    (hl : ∀ m ∈ ms, ∃ k ∈ ks, k.address ≤ m.address)
    (hr : ∀ m ∈ ms, ∃ k ∈ ks, m.address + m.size ≤ k.address + k.size) :
    Stack (xs ++ ms ++ ys) := by
  obtain ⟨ha, hb⟩ := h
  rw [List.pairwise_append, List.pairwise_append] at ha
  obtain ⟨⟨hx, -, hxk⟩, hy, hky⟩ := ha
  have hxm : ∀ a ∈ xs, ∀ m ∈ ms, a.Below m := fun a hax m hmm => by
    obtain ⟨k, hk, hkm⟩ := hl m hmm
    exact (hxk a hax k hk).trans hkm
  have hmy : ∀ m ∈ ms, ∀ c ∈ ys, m.Below c := fun m hmm c hc => by
    obtain ⟨k, hk, hmk⟩ := hr m hmm
    exact hmk.trans (hky k (List.mem_append_right xs hk) c hc)
  refine ⟨?_, fun c hc => ?_⟩
  · rw [List.pairwise_append, List.pairwise_append]
    refine ⟨⟨hx, hm, hxm⟩, hy, fun a hax c hc => ?_⟩
    rcases List.mem_append.1 hax with hax | hmm
    · exact hky a (List.mem_append_left ks hax) c hc
    · exact hmy a hmm c hc
  · simp only [List.mem_append] at hb hc
    rcases hc with (hc | hc) | hc
    · exact hb c (.inl (.inl hc))
    · obtain ⟨k, hk, hck⟩ := hr c hc
      exact lt_of_le_of_lt hck (hb k (.inl (.inr hk)))
    · exact hb c (.inr hc)

/-- Blocks within a block can take its place. -/
theorem Stack.replace_block (h : Stack (xs ++ b :: ys)) (hm : ms.Pairwise Block.Below)
    (hin : ∀ m ∈ ms, b.address ≤ m.address ∧ m.address + m.size ≤ b.address + b.size) :
    Stack (xs ++ ms ++ ys) := by
  rw [List.append_cons] at h
  exact h.replace hm (fun m hmm => ⟨b, by simp, (hin m hmm).1⟩) fun m hmm =>
    ⟨b, by simp, (hin m hmm).2⟩

theorem pairwise_carved {offset size : ℕ} {i j : Handle} (h : offset + size ≤ b.size) :
    (carved b offset size i j).Pairwise Block.Below ∧
      ∀ m ∈ carved b offset size i j, b.address ≤ m.address ∧
        m.address + m.size ≤ b.address + b.size := by
  unfold carved leftover
  split_ifs <;> simp [Block.Below] <;> omega

end Stacks

/-! ## One call -/

namespace Table

/-- The table holds a list of blocks that ascend. -/
structure Stacked (t : Table) (bs : List Block) : Prop where
  holds : t.Holds bs
  stack : Stack bs

/-- One table came of another. It holds blocks that ascend, and has got new slots only for blocks
that found none in the pool. -/
def Becomes (t t' : Table) : Prop :=
  ∃ bs, t'.Stacked bs ∧ t'.slots.size = max t.slots.size bs.length

variable {t t' : Table} {b n : Block} {bs cs xs ys : List Block} {i : Handle}

/-- Every slot holds a block or waits. -/
theorem Holds.slots_size (h : t.Holds bs) : t.slots.size = bs.length + t.pool.length := by
  simpa [handles] using h.slots.length_eq.symm

theorem stacked_single {address size : ℕ} (h : address + size < Address.limit) :
    (single address size).Stacked (leftover 0 address size) := by
  refine ⟨holds_single address size, ?_, ?_⟩ <;> unfold leftover <;> split_ifs <;> simp [h]

theorem pool_single (address size : ℕ) : (single address size).pool = [] := by
  unfold single
  split <;> rfl

namespace Stacked

theorem becomes (h : t.Stacked bs) (h' : t'.Stacked cs)
    (hp : t'.pool.length = bs.length + t.pool.length - cs.length) : t.Becomes t' := by
  have := h.holds.slots_size
  have := h'.holds.slots_size
  exact ⟨cs, h', by omega⟩

/-- A table that has got no new slot. -/
theorem becomes_of_size (h : t'.Stacked cs) (hs : t'.slots.size = t.slots.size) : t.Becomes t' := by
  have := h.holds.slots_size
  exact ⟨cs, h, by omega⟩

theorem setAllocated (h : t.Stacked bs) (hi : i ∈ handles bs) (allocated : Bool) :
    ∃ t' cs, t.setAllocated i allocated = .ok t' ∧ t'.Stacked cs ∧ handles cs = handles bs ∧
      t'.pool = t.pool := by
  obtain ⟨b, hb, rfl⟩ := List.mem_map.1 hi
  obtain ⟨xs, ys, rfl⟩ := List.append_of_mem hb
  obtain ⟨t', ht', h', hp⟩ := h.holds.update (f := fun s => { s with allocated })
    (c := ⟨b.index, b.address, b.size, allocated⟩) rfl fun _ _ => rfl
  have hs : Stack (xs ++ [⟨b.index, b.address, b.size, allocated⟩] ++ ys) :=
    h.stack.replace_block (by simp) (by simp)
  exact ⟨t', _, ht', ⟨h', by simpa using hs⟩, by simp, hp⟩

theorem carve (h : t.Stacked bs) (hi : i ∈ handles bs) {offset size : ℕ} {r : Carving × Table}
    (hr : (t.carve i offset size).result = .ok r) : t.Becomes r.2 := by
  obtain ⟨b, hb, rfl⟩ := List.mem_map.1 hi
  obtain ⟨xs, ys, rfl⟩ := List.append_of_mem hb
  -- the assertions that the call has passed
  have hinv := hr
  unfold Table.carve at hinv
  simp only [Traced.result_bind, Traced.result_lift, h.holds.slot, ok_bind, bind_eq_ok_iff,
    ensure_eq_ok_iff, Address.add_eq_ok_iff] at hinv
  obtain ⟨_, ⟨rfl, -⟩, -, hle, -, hf, -⟩ := hinv
  obtain ⟨c, t', k, ht', -, h', hp⟩ := h.holds.carve hf hle (h.stack.bounded b hb)
  obtain rfl := Except.ok.inj (ht'.symm.trans hr)
  obtain ⟨hpair, hin⟩ := pairwise_carved (i := t.fresh) (j := k) hle
  have hpos : 0 < (carved b offset size t.fresh k).length := by
    simp only [carved, List.length_append, List.length_cons]
    omega
  refine h.becomes ⟨h', h.stack.replace_block hpair hin⟩ ?_
  rw [hp, List.length_drop]
  simp only [List.length_append, List.length_cons]
  omega

theorem mergeNext (h : t.Stacked bs) (hi : i ∈ handles bs) {r : Handle × Table}
    (hr : (t.mergeNext i).result = .ok r) :
    ∃ cs, r.2.Stacked cs ∧ i ∈ handles cs ∧ r.2.slots.size = t.slots.size := by
  obtain ⟨b, hb, rfl⟩ := List.mem_map.1 hi
  obtain ⟨xs, ys, rfl⟩ := List.append_of_mem hb
  have hinv := hr
  unfold Table.mergeNext at hinv
  simp only [Traced.result_bind, Traced.result_lift] at hinv
  cases ys with
  | nil =>
    rw [Table.follower, h.holds.next, ok_bind] at hinv
    cases hinv
  | cons n ys =>
    have hn : n ∈ xs ++ b :: n :: ys := by simp
    have hbl := h.stack.bounded b hb
    have hnl := h.stack.bounded n hn
    have hf : t.follower b.index = .ok n.index := by
      rw [Table.follower, h.holds.next]
      rfl
    have hstop : t.stop b.index = .ok (b.address + b.size) := by
      rw [Table.stop, h.holds.block hb, ok_bind, Block.stop_of_lt hbl]
    simp only [hf, hstop, h.holds.address hn, ok_bind, bind_eq_ok_iff (x := ensure _ _),
      ensure_eq_ok_iff] at hinv
    obtain ⟨_, htouch, -⟩ := hinv
    obtain ⟨t', ht', h', hp⟩ := h.holds.mergeNext htouch hnl
    obtain rfl := Except.ok.inj (ht'.symm.trans hr)
    have hs : Stack (xs ++ [b, n] ++ ys) := by simpa using h.stack
    have hs' : Stack (xs ++ [⟨b.index, b.address, b.size + n.size, b.allocated⟩] ++ ys) := by
      refine hs.replace (by simp) (by simp) fun m hm => ⟨n, by simp, ?_⟩
      obtain rfl := List.mem_singleton.1 hm
      dsimp only
      omega
    refine ⟨_, ⟨h', by simpa using hs'⟩, by simp, ?_⟩
    rw [h'.slots_size, h.holds.slots_size, hp]
    simp only [List.length_append, List.length_cons]
    omega

end Stacked

/-- A free neighbour is the neighbour that was asked about. -/
theorem freeNeighbour_handle {o : Option Handle} {e : Handle × ℕ}
    (h : t.freeNeighbour o = .ok (some e)) : o = some e.1 := by
  cases o with
  | none => cases h
  | some n =>
    simp only [freeNeighbour, bind_eq_ok_iff] at h
    obtain ⟨allocated, -, h⟩ := h
    split at h
    · cases h
    · obtain ⟨size, -, h⟩ := bind_eq_ok_iff.1 h
      cases h
      rfl

namespace Stacked

theorem mergeDown (h : t.Stacked bs) (hi : i ∈ handles bs) {r : Merging × Table}
    (hr : (t.mergeDown i).result = .ok r) :
    ∃ cs, r.2.Stacked cs ∧ r.1.merged ∈ handles cs ∧ r.2.slots.size = t.slots.size := by
  obtain ⟨b, hb, rfl⟩ := List.mem_map.1 hi
  obtain ⟨xs, ys, rfl⟩ := List.append_of_mem hb
  unfold Table.mergeDown at hr
  simp only [Traced.result_bind, Traced.result_lift, h.holds.prev, ok_bind] at hr
  obtain ⟨e, he, hr⟩ := bind_eq_ok_iff.1 hr
  cases e with
  | none =>
    cases hr
    exact ⟨_, h, hi, rfl⟩
  | some e =>
    have hp : e.1 ∈ handles (xs ++ b :: ys) := by
      rw [handles_append]
      exact List.mem_append_left _ (mem_handles_of_lastHandle (freeNeighbour_handle he))
    simp only [Traced.result_bind] at hr
    obtain ⟨m, hm, hr⟩ := bind_eq_ok_iff.1 hr
    cases hr
    exact h.mergeNext hp hm

theorem mergeUp (h : t.Stacked bs) (hi : i ∈ handles bs) {r : List (Handle × ℕ) × Table}
    (hr : (t.mergeUp i).result = .ok r) :
    ∃ cs, r.2.Stacked cs ∧ r.2.slots.size = t.slots.size := by
  unfold Table.mergeUp at hr
  simp only [Traced.result_bind, Traced.result_lift] at hr
  obtain ⟨n, -, hr⟩ := bind_eq_ok_iff.1 hr
  obtain ⟨e, he, hr⟩ := bind_eq_ok_iff.1 hr
  cases e with
  | none =>
    cases hr
    exact ⟨_, h, rfl⟩
  | some e =>
    simp only [Traced.result_bind] at hr
    obtain ⟨m, hm, hr⟩ := bind_eq_ok_iff.1 hr
    cases hr
    obtain ⟨cs, hs, -, hsize⟩ := h.mergeNext hi hm
    exact ⟨cs, hs, hsize⟩

theorem coalesce (h : t.Stacked bs) (hi : i ∈ handles bs) {r : Merging × Table}
    (hr : (t.coalesce i).result = .ok r) : t.Becomes r.2 := by
  obtain ⟨t₀, bs₀, ht₀, h₀, hh₀, hp₀⟩ := h.setAllocated hi false
  unfold Table.coalesce at hr
  simp only [Traced.result_bind, Traced.result_lift, ht₀, ok_bind] at hr
  obtain ⟨down, hd, hr⟩ := bind_eq_ok_iff.1 hr
  obtain ⟨up, hu, hr⟩ := bind_eq_ok_iff.1 hr
  cases hr
  obtain ⟨bs₁, h₁, hi₁, hs₁⟩ := h₀.mergeDown (hh₀ ▸ hi) hd
  obtain ⟨bs₂, h₂, hs₂⟩ := h₁.mergeUp hi₁ hu
  refine becomes_of_size h₂ ?_
  have hlen : bs₀.length = bs.length := by simpa using congrArg List.length hh₀
  rw [hs₂, hs₁, h₀.holds.slots_size, h.holds.slots_size, hp₀, hlen]

theorem truncateFront (h : t.Stacked bs) (hi : i ∈ handles bs) {amount : ℕ}
    {r : Option Handle × Table} (hr : t.truncateFront i amount = .ok r) : t.Becomes r.2 := by
  obtain ⟨b, hb, rfl⟩ := List.mem_map.1 hi
  obtain ⟨xs, ys, rfl⟩ := List.append_of_mem hb
  have hle : amount ≤ b.size := by
    unfold Table.truncateFront at hr
    simp only [h.holds.size hb, ok_bind, bind_eq_ok_iff (x := ensure _ _), ensure_eq_ok_iff] at hr
    obtain ⟨_, hle, -⟩ := hr
    exact hle
  obtain ⟨t', ht', h', hp⟩ := h.holds.truncateFront hle (h.stack.bounded b hb)
  obtain rfl := Except.ok.inj (ht'.symm.trans hr)
  have hs : Stack (xs ++ shortened b amount ++ ys) := by
    unfold shortened
    split_ifs
    · exact h.stack.replace_block .nil (by simp)
    · refine h.stack.replace_block (by simp) fun m hm => ?_
      obtain rfl := List.mem_singleton.1 hm
      dsimp only
      omega
  refine h.becomes ⟨h', hs⟩ ?_
  rw [hp]
  unfold shortened
  split_ifs
  · simp
    omega
  · simp

theorem pushFront (h : t.Stacked bs) {address size : ℕ} {allocated : Bool}
    (hl : address + size < Address.limit) {r : Handle × Table}
    (hr : t.pushFront address size allocated = .ok r) : t.Becomes r.2 := by
  have hle : ∀ b ∈ bs.head?, address + size ≤ b.address := by
    intro b hb
    obtain ⟨ys, rfl⟩ := List.head?_eq_some_iff.1 hb
    unfold Table.pushFront at hr
    simp only [h.holds.head, firstHandle_cons, Address.add_of_lt hl,
      h.holds.address (b := b) (by simp), ok_bind, bind_eq_ok_iff (x := ensure _ _),
      ensure_eq_ok_iff] at hr
    obtain ⟨_, hle, -⟩ := hr
    exact hle
  obtain ⟨t', ht', h', hp⟩ := h.holds.pushFront allocated hle hl
  obtain rfl := Except.ok.inj (ht'.symm.trans hr)
  refine h.becomes ⟨h', ?_, ?_⟩ ?_
  · refine List.pairwise_cons.2 ⟨fun c hc => ?_, h.stack.ascending⟩
    cases bs with
    | nil => cases hc
    | cons b ys =>
      have hb : address + size ≤ b.address := hle b rfl
      rcases List.mem_cons.1 hc with rfl | hc
      · exact hb
      · have hbc : b.address + b.size ≤ c.address :=
          (List.pairwise_cons.1 h.stack.ascending).1 c hc
        exact (hb.trans (Nat.le_add_right _ _)).trans hbc
  · exact List.forall_mem_cons.2 ⟨hl, h.stack.bounded⟩
  · rw [hp, List.length_tail, List.length_cons]
    omega

/-- **One call.** -/
theorem call (h : t.Stacked bs) {c : Call} (hc : c.Proper t) (ht : t.call c = .ok t') :
    t.Becomes t' := by
  cases c with
  | setAllocated i allocated =>
    have hi : i ∈ handles bs := h.holds.blocks_eq ▸ hc
    obtain ⟨t₁, cs, ht₁, h₁, hh, hp⟩ := h.setAllocated hi allocated
    obtain rfl := Except.ok.inj (ht₁.symm.trans ht)
    have hlen : cs.length = bs.length := by simpa using congrArg List.length hh
    exact h.becomes h₁ (by rw [hp, hlen]; omega)
  | carve i offset size =>
    obtain ⟨r, hr, e⟩ := bind_eq_ok_iff.1 ht
    cases e
    exact h.carve (h.holds.blocks_eq ▸ hc) hr
  | mergeNext i =>
    obtain ⟨r, hr, e⟩ := bind_eq_ok_iff.1 ht
    cases e
    obtain ⟨cs, hs, -, hsize⟩ := h.mergeNext (h.holds.blocks_eq ▸ hc) hr
    exact becomes_of_size hs hsize
  | coalesce i =>
    obtain ⟨r, hr, e⟩ := bind_eq_ok_iff.1 ht
    cases e
    exact h.coalesce (h.holds.blocks_eq ▸ hc) hr
  | truncateFront i amount =>
    obtain ⟨r, hr, e⟩ := bind_eq_ok_iff.1 ht
    cases e
    exact h.truncateFront (h.holds.blocks_eq ▸ hc) hr
  | pushFront address size allocated =>
    obtain ⟨r, hr, e⟩ := bind_eq_ok_iff.1 ht
    cases e
    exact h.pushFront hc hr

end Stacked

/-! ## Runs -/

/-- A table in good order. The tables since it was new or last reset are `since`. -/
structure Intact (t : Table) (since : List Table) : Prop where
  /-- The links up lead through the blocks, to an end, -/
  walk : t.Leads t.head t.blocks
  once : (handles t.blocks).Nodup
  /-- and the links down undo them. -/
  linksBack : t.LinksBack t.blocks
  inverse : ∀ b ∈ t.blocks, ∀ c ∈ t.blocks,
    t.next b.index = .ok (some c.index) ↔ t.prev c.index = .ok (some b.index)
  /-- A slot holds a block or waits in the pool, and none does both. -/
  slots : (handles t.blocks ++ t.pool).Perm (List.range t.slots.size)
  length : t.length = .ok t.blocks.length
  isEmpty : t.isEmpty = true ↔ t.blocks.length = 0
  ascending : Ascending t.blocks
  /-- Whatever range they should cover, the blocks are found to be in order. -/
  audit : ∀ start stop, ∃ f, t.audit start stop = .ok f ∧ f.Orderly
  /-- There are as many slots as there ever were blocks at one time, -/
  highest : ∃ u ∈ since, u.length = .ok t.slots.size
  bounded : ∀ u ∈ since, ∃ n ≤ t.slots.size, u.length = .ok n
  /-- and a call adds a slot only when it leaves none in the pool. -/
  growth : ∀ c t', c.Proper t → t.call c = .ok t' → t.slots.size < t'.slots.size → t'.pool = []

theorem Holds.length_eq (h : t.Holds bs) : t.length = .ok bs.length := by
  rw [length, h.slots_size, Address.sub_of_le (Nat.le_add_left _ _), Nat.add_sub_cancel]

/-- **A run** keeps the blocks stacked, and makes no more slots than there were blocks. -/
theorem Reached.stacked {since : List Table} (h : Reached since t) : ∃ bs, t.Stacked bs ∧
    (∃ u ∈ since, u.length = .ok t.slots.size) ∧
      ∀ u ∈ since, ∃ n ≤ t.slots.size, u.length = .ok n := by
  have fresh : ∀ {address size : ℕ}, address + size < Address.limit →
      ∃ bs, (single address size).Stacked bs ∧
        (∃ u ∈ [single address size], u.length = .ok (single address size).slots.size) ∧
          ∀ u ∈ [single address size], ∃ n ≤ (single address size).slots.size,
            u.length = .ok n := by
    intro address size hl
    have hs := stacked_single hl
    have hlen : (single address size).length = .ok (single address size).slots.size := by
      rw [hs.holds.length_eq, hs.holds.slots_size, pool_single, List.length_nil, Nat.add_zero]
    exact ⟨_, hs, ⟨_, by simp, hlen⟩,
      fun u hu => ⟨_, Nat.le_refl _, List.mem_singleton.1 hu ▸ hlen⟩⟩
  induction h with
  | created hl => exact fresh hl
  | reset _ hl _ => exact fresh hl
  | @called since t t' c _ hc ht ih =>
    obtain ⟨bs, hs, ⟨u, hu, hmax⟩, hbound⟩ := ih
    obtain ⟨cs, hs', hsize⟩ := hs.call hc ht
    have hlen := hs'.holds.length_eq
    refine ⟨cs, hs', ?_, ?_⟩
    · rcases Nat.le_total t.slots.size cs.length with hle | hle
      · exact ⟨t', by simp, by rw [hlen, hsize, max_eq_right hle]⟩
      · exact ⟨u, by simp [hu], by rw [hmax, hsize, max_eq_left hle]⟩
    · intro v hv
      rcases List.mem_cons.1 hv with rfl | hv
      · exact ⟨cs.length, hsize ▸ Nat.le_max_right _ _, hlen⟩
      · obtain ⟨n, hn, hvn⟩ := hbound v hv
        exact ⟨n, hsize ▸ hn.trans (Nat.le_max_left _ _), hvn⟩

/-- **After any run of its operations, a block table is in good order.** -/
theorem Reached.intact {since : List Table} (h : Reached since t) : t.Intact since := by
  obtain ⟨bs, hs, hmax, hbound⟩ := h.stacked
  obtain rfl := hs.holds.blocks_eq
  exact {
    walk := hs.holds.leads
    once := hs.holds.nodup
    linksBack := hs.holds.linksBack
    inverse := fun b hb c hc => hs.holds.next_iff_prev hb hc
    slots := hs.holds.slots
    length := hs.holds.length_eq
    isEmpty := by
      rw [isEmpty, hs.holds.head, firstHandle, Option.isNone_iff_eq_none, Option.map_eq_none_iff,
        List.head?_eq_none_iff, List.length_eq_zero_iff]
    ascending := hs.stack.chain
    audit := by
      intro start stop
      obtain ⟨f, hf, -, horderly⟩ := hs.holds.leads.audit_spec start stop hs.stack.bounded
      exact ⟨f, hf, horderly.2 ⟨hs.holds.linksBack, hs.stack.chain⟩⟩
    highest := hmax
    bounded := hbound
    growth := by
      intro c t' hc ht hlt
      obtain ⟨cs, hs', hsize⟩ := hs.call hc ht
      have := hs'.holds.slots_size
      exact List.length_eq_zero_iff.1 (by omega) }

/-- A table of one free block, of which the middle is carved out. -/
def threeBlocks : Table where
  slots := #[⟨16, 16, some 1, some 2, true⟩, ⟨0, 16, none, some 0, false⟩,
    ⟨32, 32, some 0, none, false⟩]
  head := some 1

/-- The same table after everything was merged. Two slots wait. -/
def oneBlock : Table where
  slots := #[⟨16, 0, none, none, false⟩, ⟨0, 64, none, none, false⟩, ⟨32, 0, none, none, false⟩]
  pool := [2, 0]
  head := some 1

theorem intact_oneBlock : oneBlock.Intact [oneBlock, threeBlocks, single 0 64] :=
  have carved : Reached [threeBlocks, single 0 64] threeBlocks :=
    .called (c := .carve 0 16 16) (.created (by decide)) (by decide) rfl
  Reached.intact (.called (c := .coalesce 0) carved (by decide) rfl)

end Table

end MemoryBank
