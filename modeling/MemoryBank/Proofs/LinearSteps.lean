import MemoryBank.Proofs.BankSteps
import MemoryBank.Proofs.Effect

/-!
# The linear allocator keeps the contract

`Linear.perform_spec`: from a sound bank, a request is answered as the contract says, with the block
that the policy chooses, and leads to a sound bank with the view that the contract says. What is
refused changes nothing. Before that come the walks: `Linear.search_eq` for the block that the
policy chooses, and `Linear.findAllocated_spec` for the block in use at an address.
-/

namespace MemoryBank

namespace Linear

open MemoryBank.Action

variable {a : Linear} {n : ℕ} {k : Block} {bs : List Block}

/-! ## The choice of a block -/

theorem smallest?_eq_none : smallest? bs = none ↔ bs = [] := by
  cases bs with
  | nil => simp [smallest?]
  | cons b bs =>
    simp only [smallest?, reduceCtorEq, iff_false]
    split
    · simp
    · split <;> simp

/-- The smallest block is one of them, and none is smaller. -/
theorem smallest?_spec (h : smallest? bs = some k) : k ∈ bs ∧ ∀ c ∈ bs, k.size ≤ c.size := by
  induction bs generalizing k with
  | nil => cases h
  | cons b bs ih =>
    rw [smallest?] at h
    cases hs : smallest? bs with
    | none =>
      rw [hs] at h
      obtain rfl := Option.some.inj h
      simp [smallest?_eq_none.1 hs]
    | some c =>
      obtain ⟨hc, hmin⟩ := ih hs
      rw [hs] at h
      dsimp only at h
      split at h
      · obtain rfl := Option.some.inj h
        refine ⟨List.mem_cons_self, fun d hd => ?_⟩
        rcases List.mem_cons.1 hd with rfl | hd
        · exact le_rfl
        · have := hmin d hd
          omega
      · obtain rfl := Option.some.inj h
        refine ⟨List.mem_cons_of_mem _ hc, fun d hd => ?_⟩
        rcases List.mem_cons.1 hd with rfl | hd
        · omega
        · exact hmin d hd

/-- Of several smallest blocks it is the first. -/
theorem smallest?_first (h : smallest? bs = some k)
    (ha : bs.Pairwise fun b c => b.address ≤ c.address) :
    ∀ c ∈ bs, c.size = k.size → k.address ≤ c.address := by
  induction bs generalizing k with
  | nil => cases h
  | cons b bs ih =>
    obtain ⟨hb, hbs⟩ := List.pairwise_cons.1 ha
    rw [smallest?] at h
    intro d hd hsize
    cases hs : smallest? bs with
    | none =>
      rw [hs] at h
      obtain rfl := Option.some.inj h
      simp only [smallest?_eq_none.1 hs, List.mem_singleton] at hd
      rw [hd]
    | some c =>
      rw [hs] at h
      dsimp only at h
      split at h
      · obtain rfl := Option.some.inj h
        rcases List.mem_cons.1 hd with rfl | hd
        · exact le_rfl
        · exact hb d hd
      · obtain rfl := Option.some.inj h
        rcases List.mem_cons.1 hd with rfl | hd
        · omega
        · exact ih hs hbs d hd hsize

/-- What the policy chooses is a free block that is large enough. -/
theorem choose?_mem (h : a.choose? n = some k) :
    k ∈ a.bank.table.blocks ∧ k.allocated = false ∧ n ≤ k.size := by
  rw [← Bank.mem_candidates]
  unfold choose? at h
  split at h
  · exact List.mem_of_head? h
  · exact (smallest?_spec h).1

/-- The walk for a block comes to an end, and answers with the block that the policy chooses. -/
theorem search_eq (h : a.bank.Sound) (n : ℕ) : a.search n = .ok (a.choose? n) := by
  simp only [search, h.table.exhaust_eq, ok_bind]
  split <;> rfl

/-- The walk finds the block in use that begins at an address. -/
theorem findAllocated_spec (h : a.bank.Holds bs) (address : ℕ) :
    (∃ k ∈ bs, k.allocated = true ∧ k.address + a.bank.geometry.offset = address ∧
      a.findAllocated address = .ok (some k)) ∨
    (a.findAllocated address = .ok none ∧
      ¬∃ k ∈ bs, k.allocated = true ∧ k.address + a.bank.geometry.offset = address) := by
  unfold findAllocated
  cases hr : a.bank.geometry.toRelative? address with
  | none =>
    refine .inr ⟨rfl, fun ⟨k, _, _, hk⟩ => ?_⟩
    have := Address.sub?_eq_none_iff.1 hr
    omega
  | some i =>
    have hi : a.bank.geometry.offset + i = address := Address.sub?_eq_some_iff.1 hr
    rcases h.table.findUpTo h.tiles (f := fun b => return decide (b.address = i ∧ b.allocated))
      (fun _ _ => rfl) i with ⟨k, hk, -, hpass, hfound⟩ | ⟨hno, hnone⟩
    · obtain ⟨hka, hl⟩ := of_decide_eq_true hpass
      exact .inl ⟨k, hk, hl, by omega, hfound⟩
    · refine .inr ⟨hnone, fun ⟨k, hk, hl, ha⟩ => ?_⟩
      have := of_decide_eq_false (hno k hk (by omega))
      exact this ⟨by omega, hl⟩

/-! ## Requests -/

/-- What the contract asks of a request with this answer. -/
structure Follows (r : Request) (reply : Except Failure Reply) (a a' : Linear) : Prop
    extends a.bank.Follows r reply a'.bank where
  step : a.bank.Step r reply a'.bank
  policy : a'.policy = a.policy
  kept : Refused reply → a' = a

/-- A request is answered as the contract says, and leads to what the contract says. -/
def Serves (r : Request) (a : Linear) : Prop :=
  ∃ a', (perform r).effect a = (a.bank.view.answer a.choose? r, a') ∧
    a.Follows r (a.bank.view.answer a.choose? r) a'

/-- A request that is refused has to leave everything as it was. -/
theorem Serves.refuses (h : a.bank.Sound) {r : Request} {reply : Except Failure Reply}
    (hr : Refused reply) (ha : a.bank.view.answer a.choose? r = reply)
    (he : (perform r).effect a = (reply, a)) : a.Serves r := by
  subst ha
  exact ⟨a, he, h.follows_self hr, .refused hr, rfl, fun _ => rfl⟩

/-- A request that is done has to change the bank by a step, and nothing else. -/
theorem Serves.changes (h : a.bank.Sound) {r : Request} {reply : Except Failure Reply} (b : Bank)
    (hn : ¬Refused reply) (hs : a.bank.Step r reply b)
    (ha : a.bank.view.answer a.choose? r = reply)
    (he : (perform r).effect a = (reply, { a with bank := b })) : a.Serves r := by
  subst ha
  exact ⟨_, he, hs.follows h, hs, rfl, fun h => absurd h hn⟩

theorem serves_allocate (h : a.bank.Sound) (size : ℕ) (p : Placement) :
    a.Serves (.allocate size p) := by
  cases hg : a.bank.view.grant size with
  | error e =>
    apply Serves.refuses h (refused_error e)
    · exact View.answer_allocate_of_error hg
    · simp only [perform, allocate, effect_bind, effect_get, effect_lift, h.grant, hg]
  | ok o =>
    cases o with
    | none =>
      apply Serves.refuses h refused_noRoom
      · exact View.answer_allocate_of_none hg
      · simp only [perform, allocate, effect_bind, effect_get, effect_lift, h.grant, hg,
          effect_pure, Reply.ofAddress?]
    | some n =>
      cases hk : a.choose? n with
      | none =>
        apply Serves.refuses h refused_noRoom
        · rw [View.answer_allocate_of_some hg, hk]
        · simp only [perform, allocate, effect_bind, effect_get, effect_lift, h.grant, hg,
            effect_lift_except, search_eq h, hk, effect_note, effect_pure, Reply.ofAddress?]
      | some k =>
        obtain ⟨hkm, hkf, hkn⟩ := choose?_mem hk
        rcases h.placeIn hkm hkn p with ⟨hp, hans⟩ | ⟨e, hp, hans⟩
        · obtain ⟨xs, ys, hbs⟩ := List.append_of_mem hkm
          have h' : a.bank.Holds (xs ++ k :: ys) := hbs ▸ h
          have hi := Block.inset_add_le hkn p.direction
          have hr := h.in_range hkm
          obtain ⟨c, t, j, hc, -⟩ := h'.carve hkf (h.grant_bounds hg).1 hi
          apply Serves.changes h _ not_refused_placed (.placed h' hkf hg hkn hc)
          · rw [View.answer_allocate_of_some hg, hk]
            exact hans
          · simp only [perform, allocate, effect_bind, effect_get, effect_lift, h.grant, hg,
              effect_lift_except, search_eq h, hk, hp, hc, setTable, effect_modify,
              Geometry.toAbsolute,
              Address.add_of_lt (show k.address + k.inset n p.direction < _ by omega),
              Address.add_of_lt (show k.address + k.inset n p.direction +
                a.bank.geometry.offset < _ by omega), effect_note, effect_pure, Reply.ofAddress?]
        · apply Serves.refuses h (refused_error e)
          · rw [View.answer_allocate_of_some hg, hk]
            exact hans
          · simp only [perform, allocate, effect_bind, effect_get, effect_lift, h.grant, hg,
              effect_lift_except, search_eq h, hk, hp]

theorem serves_allocateAt (h : a.bank.Sound) (address size : ℕ) :
    a.Serves (.allocateAt address size) := by
  cases hg : a.bank.view.grant size with
  | error e =>
    apply Serves.refuses h (refused_error e)
    · exact View.answer_allocateAt_of_error hg
    · simp only [perform, allocateAt, effect_bind, effect_get, effect_lift, h.grant, hg]
  | ok o =>
    cases o with
    | none =>
      apply Serves.refuses h refused_noRoom
      · exact View.answer_allocateAt_of_none hg
      · simp only [perform, allocateAt, effect_bind, effect_get, effect_lift, h.grant, hg,
          effect_pure, Reply.ofAddress?]
    | some n =>
      have hn := (h.grant_bounds hg).1
      rcases h.locate hn address with ⟨k, hk, i, hf, hka, hak, hi, hl, hans⟩ | ⟨hl, hans⟩
      · obtain ⟨xs, ys, hbs⟩ := List.append_of_mem hk
        have h' : a.bank.Holds (xs ++ k :: ys) := hbs ▸ h
        have hfit : i - k.address + n ≤ k.size := by omega
        obtain ⟨c, t, j, hc, -⟩ := h'.carve hf hn hfit
        apply Serves.changes h _ not_refused_placed (.placedAt h' hf hg hfit (by omega) hc)
        · rw [View.answer_allocateAt_of_some hg, hans]
        · simp only [perform, allocateAt, effect_bind, effect_get, effect_lift, h.grant, hg, hl,
            effect_lift_except, Address.sub_of_le hka, hc, setTable, effect_modify, effect_note,
            effect_pure, Reply.ofAddress?]
      · apply Serves.refuses h refused_noRoom
        · rw [View.answer_allocateAt_of_some hg, hans]
        · simp only [perform, allocateAt, effect_bind, effect_get, effect_lift, h.grant, hg, hl,
            effect_pure, Reply.ofAddress?]

theorem serves_deallocate (h : a.bank.Sound) (address : ℕ) : a.Serves (.deallocate address) := by
  rcases findAllocated_spec h address with ⟨k, hk, hl, hka, hfound⟩ | ⟨hnone, hno⟩
  · obtain ⟨xs, ys, hbs⟩ := List.append_of_mem hk
    have h' : a.bank.Holds (xs ++ k :: ys) := hbs ▸ h
    obtain ⟨us, vs, ls, rs, m, t, hc, -⟩ := h'.coalesce
    apply Serves.changes h _ not_refused_done (.freed h' hl hka hc)
    · exact if_pos (h.exists_live_iff.2 ⟨k, hk, hl, hka⟩)
    · simp only [perform, deallocate, effect_bind, effect_get, effect_lift_except, hfound,
        effect_lift, hc, setTable, effect_modify, effect_note, effect_pure]
  · apply Serves.refuses h (refused_error (.misuse (.invalidDeallocation address)))
    · exact if_neg (mt h.exists_live_iff.1 hno)
    · simp only [perform, deallocate, effect_bind, effect_get, effect_lift_except, hnone,
        effect_refuse]

theorem serves_clear (h : a.bank.Sound) : a.Serves .clear :=
  .changes h a.bank.reset not_refused_done .cleared rfl rfl

theorem serves_shrink (h : a.bank.Sound) (amount : ℕ) (d : Direction) :
    a.Serves (.shrink amount d) := by
  rcases Nat.eq_zero_or_pos amount with rfl | hpos
  · exact .changes h a.bank not_refused_done .uncut rfl rfl
  have hz : amount ≠ 0 := by omega
  rcases h.shrinkTarget hpos d with ⟨k, ys, hbs, hf, ha, hst, hans⟩ | ⟨e, hst, hans⟩
  · have h' : a.bank.Holds (k :: ys) := hbs ▸ h
    obtain rfl := View.bottomUp_of_answerCut hans
    obtain ⟨t, b, hcut, hhold, -⟩ := h'.cut hf ha
    apply Serves.changes h b not_refused_done (.cut hpos h' hf ha hcut hhold)
    · simp only [View.answer, if_neg hz, hans]
    · simp only [perform, shrink, if_neg hz, effect_bind, effect_get, effect_lift, hst,
        effect_lift_except, hcut, hhold, setBank, effect_modify, effect_note, effect_pure]
  · apply Serves.refuses h (refused_error e)
    · simp only [View.answer, if_neg hz, hans]
    · simp only [perform, shrink, if_neg hz, effect_bind, effect_get, effect_lift, hst]

theorem serves_restore (h : a.bank.Sound) : a.Serves .restore := by
  rcases Nat.eq_zero_or_pos a.bank.shrunk with hz | hpos
  · apply Serves.changes h a.bank not_refused_done (.whole hz) rfl
    simp only [perform, restore, effect_bind, effect_get, if_pos hz, effect_pure]
  · have hz : a.bank.shrunk ≠ 0 := by omega
    obtain ⟨t, b, hpush, hgive, hb, -⟩ := h.pushed hpos
    have hb' : b.Holds ([] ++ ⟨a.bank.table.fresh, 0, a.bank.shrunk, true⟩ ::
      a.bank.table.blocks) := hb
    obtain ⟨us, vs, ls, rs, m, t', hc, -⟩ := hb'.coalesce
    apply Serves.changes h _ not_refused_done (.restored hpos hpush hgive hc) rfl
    simp only [perform, restore, effect_bind, effect_get, if_neg hz, effect_lift_except, hpush,
      hgive, effect_lift, hc, setBank, effect_modify, effect_note, effect_pure]

/-- **The linear allocator keeps the contract**, with either policy. -/
theorem perform_spec (h : a.bank.Sound) (r : Request) : a.Serves r := by
  cases r with
  | allocate size p => exact serves_allocate h size p
  | allocateAt address size => exact serves_allocateAt h address size
  | deallocate address => exact serves_deallocate h address
  | clear => exact serves_clear h
  | shrink amount d => exact serves_shrink h amount d
  | restore => exact serves_restore h

end Linear

end MemoryBank
