import MemoryBank.Proofs.Placing
import MemoryBank.Proofs.Rounding

/-!
# Which addresses are aligned

The alignment is the granularity of all addresses and sizes, but any number of bytes can be cut off.
A cut between multiples of the alignment moves the low end of the bank there, and the next
allocation at the low end begins there.

* `granted_of_mem_history`: what is live was placed, and its size granted; so all sizes are aligned,
  also after such a cut.
* `Reached.dvd_of_placed`: one step. Among aligned allocations, only the start of what is usable can
  be handed out unaligned.
* `Reached.placed_aligned`: the same of runs, which keep all addresses aligned if they cut aligned
  amounts.
* `not_always_aligned`: a run that hands out an unaligned address.
-/

namespace MemoryBank

open MemoryBank.Action

/-! ## What logs tell -/

section Logs

variable {g : Geometry} {log : Log} {s : ℕ × ℕ}

/-- A live allocation was there before, or it is the one that was just placed. -/
theorem mem_liveAfter {live : Finset (ℕ × ℕ)} {r : Request} {reply : Except Failure Reply}
    (h : s ∈ liveAfter g live r reply) :
    s ∈ live ∨ (reply = .ok (.placed s.1) ∧ ∃ request, g.grant request = .ok (some s.2)) := by
  have hwith : ∀ {size a}, s ∈ liveWith g live size a →
      s ∈ live ∨ ((.ok (.placed a) : Except Failure Reply) = .ok (.placed s.1) ∧
        ∃ request, g.grant request = .ok (some s.2)) := fun {size a} h => by
    unfold liveWith at h
    split at h
    case h_1 n hn =>
      rcases Finset.mem_insert.1 h with rfl | h
      · exact .inr ⟨rfl, size, hn⟩
      · exact .inl h
    case h_2 => exact .inl h
  unfold liveAfter at h
  split at h
  · exact hwith h
  · exact hwith h
  · exact .inl (Finset.mem_filter.1 h).1
  · simp at h
  · exact .inl h

/-- What is live was placed, and its size was granted. -/
theorem granted_of_mem_history (h : s ∈ history g log) :
    (∃ r, (r, .ok (.placed s.1)) ∈ log) ∧ ∃ request, g.grant request = .ok (some s.2) := by
  induction log using List.reverseRecOn with
  | nil => simp at h
  | append_singleton log entry ih =>
    obtain ⟨r, reply⟩ := entry
    rw [history_concat] at h
    rcases mem_liveAfter h with h | ⟨rfl, hn⟩
    · obtain ⟨⟨r', hr'⟩, hn⟩ := ih h
      exact ⟨⟨r', List.mem_append_left _ hr'⟩, hn⟩
    · exact ⟨⟨r, List.mem_append_right _ List.mem_cons_self⟩, hn⟩

/-- Cuts of multiples add up to a multiple. -/
theorem dvd_cutOff {m : ℕ} (h : ∀ amount d, (.shrink amount d, .ok .done) ∈ log → m ∣ amount) :
    m ∣ cutOff log := by
  induction log using List.reverseRecOn with
  | nil => exact Nat.dvd_zero m
  | append_singleton log entry ih =>
    obtain ⟨r, reply⟩ := entry
    have hlog := ih fun amount d hm => h amount d (List.mem_append_left _ hm)
    rw [cutOff_concat]
    unfold shrunkAfter
    split
    · exact Nat.dvd_zero m
    · exact Nat.dvd_add hlog (h _ _ (List.mem_append_right _ List.mem_cons_self))
    · exact Nat.dvd_zero m
    · exact hlog

end Logs

namespace Allocator

variable {g : Geometry} {log : Log} {a a' : Allocator} {r : Request} {address : ℕ}

/-! ## Free blocks between aligned allocations -/

/-- If the allocations are aligned, a free block ends aligned, and it begins aligned or where what
is cut off ends. -/
theorem Reached.free_aligned (h : Reached g log a)
    (hlive : ∀ s ∈ history g log, g.alignment ∣ s.1) {k : Block}
    (hk : k ∈ a.bank.table.blocks) (hf : k.allocated = false) :
    g.alignment ∣ k.address + k.size ∧ (k.address = cutOff log ∨ g.alignment ∣ k.address) := by
  have hb := h.sound.bank
  have hg := Geometry.validate_eq_ok_iff.1 h.valid
  have hused : ∀ c ∈ a.bank.table.blocks, c.allocated = true →
      g.alignment ∣ c.address ∧ g.alignment ∣ c.size := fun c hc hl => by
    have hm : (c.address + g.offset, c.size) ∈ history g log := by
      rw [← h.live, ← h.geometry]
      exact mem_allocations.2 ⟨c, hc, hl, rfl, rfl⟩
    obtain ⟨-, request, hn⟩ := granted_of_mem_history hm
    exact ⟨(Nat.dvd_add_left (Nat.dvd_of_mod_eq_zero hg.offset)).1 (hlive _ hm),
      Geometry.grant_dvd hn⟩
  -- no two neighbours are free, so a free block lies between two that are in use, or at an end
  constructor
  · rcases hb.tiles.after_free hb.separated hk hf with he | ⟨c, hc, hl, he⟩
    · rw [he, hb.account, h.geometry]
      exact Nat.dvd_of_mod_eq_zero hg.size
    · rw [← he]
      exact (hused c hc hl).1
  · rcases hb.tiles.before_free hb.separated hk hf with he | ⟨c, hc, hl, he⟩
    · exact .inl (he.trans h.shrunk)
    · obtain ⟨ha, hs⟩ := hused c hc hl
      exact .inr (he ▸ Nat.dvd_add ha hs)

/-- An address of the caller's choice is aligned. -/
theorem Reached.dvd_of_chosen (h : Reached g log a) {b size : ℕ}
    (hr : (Request.allocateAt b size).InRange)
    (hs : (perform (.allocateAt b size)).effect a = (.ok (.placed address), a')) :
    g.alignment ∣ address := by
  have hg := Geometry.validate_eq_ok_iff.1 h.valid
  obtain ⟨k, -, -, n, hp⟩ := h.places hr hs
  have hge : k.address + g.offset ≤ address := hp.start_le
  have ho : g.offset ≤ address := by omega
  rcases hp.place with ⟨size, p, he, -⟩ | ⟨size, -, hal⟩
  · cases he
  · rw [← Nat.sub_add_cancel ho]
    exact Nat.dvd_add (Nat.dvd_of_mod_eq_zero hal) (Nat.dvd_of_mod_eq_zero hg.offset)

/-- **Among aligned allocations, an address is aligned**, unless it is the start of what is usable
and the cut before it is not aligned. -/
theorem Reached.dvd_of_placed (h : Reached g log a)
    (hlive : ∀ s ∈ history g log, g.alignment ∣ s.1) (hr : r.InRange)
    (hs : (perform r).effect a = (.ok (.placed address), a')) :
    g.alignment ∣ address ∨ ∃ size p, r = .allocate size p ∧ p.direction = .bottomUp ∧
      address = cutOff log + g.offset ∧ ¬g.alignment ∣ cutOff log := by
  have hg := Geometry.validate_eq_ok_iff.1 h.valid
  have hoffset := Nat.dvd_of_mod_eq_zero hg.offset
  obtain ⟨k, hk, hf, n, hp⟩ := h.places hr hs
  obtain ⟨hend, hbegin⟩ := h.free_aligned hlive hk hf
  have hle : address + n ≤ k.address + k.size + g.offset := hp.le_stop
  obtain ⟨request, hn⟩ : ∃ request, g.grant request = .ok (some n) := hp.granted
  rcases hp.place with ⟨size, p, rfl, haddress⟩ | ⟨size, rfl, -⟩
  · cases hd : p.direction with
    | bottomUp =>
      have haddress : address = k.address + g.offset := by rwa [hd] at haddress
      rcases hbegin with hcut | hbegin
      · rw [haddress, hcut, Nat.dvd_add_left hoffset]
        by_cases hc : g.alignment ∣ cutOff log
        · exact .inl hc
        · exact .inr ⟨size, p, rfl, hd, rfl, hc⟩
      · exact .inl (haddress ▸ Nat.dvd_add hbegin hoffset)
    | topDown =>
      have haddress : address = k.address + (k.size - n) + g.offset := by rwa [hd] at haddress
      have hsub : k.address + (k.size - n) = k.address + k.size - n := by omega
      rw [haddress, hsub]
      exact .inl (Nat.dvd_add (Nat.dvd_sub hend (Geometry.grant_dvd hn)) hoffset)
  · exact .inl (h.dvd_of_chosen hr hs)

/-! ## Runs -/

/-- Which addresses of a log are aligned. -/
structure PlacedAligned (g : Geometry) (log : Log) : Prop where
  /-- An address of the caller's choice is. -/
  chosen : ∀ a size address, (.allocateAt a size, .ok (.placed address)) ∈ log →
    g.alignment ∣ address
  /-- If all cuts are, all addresses are. -/
  cuts : (∀ amount d, (.shrink amount d, .ok .done) ∈ log → g.alignment ∣ amount) →
    ∀ r address, (r, .ok (.placed address)) ∈ log → g.alignment ∣ address
  /-- The first one that is not is the start of what is usable, after a cut that is not. -/
  first : ∀ before r address after, log = before ++ (r, .ok (.placed address)) :: after →
    (∀ s ∈ history g before, g.alignment ∣ s.1) → ¬g.alignment ∣ address →
    ∃ size p, r = .allocate size p ∧ p.direction = .bottomUp ∧
      address = cutOff before + g.offset ∧ ¬g.alignment ∣ cutOff before

/-- A run that cuts aligned amounts hands out aligned addresses. -/
theorem Reached.dvd_of_cuts (h : Reached g log a)
    (hc : ∀ amount d, (.shrink amount d, .ok .done) ∈ log → g.alignment ∣ amount)
    (hm : (r, .ok (.placed address)) ∈ log) : g.alignment ∣ address := by
  induction h generalizing r address with
  | built => simp at hm
  | served h hr hs ih =>
    have hcuts := fun amount d hm => hc amount d (List.mem_append_left _ hm)
    rcases List.mem_append.1 hm with hm | hm
    · exact ih hcuts hm
    · obtain ⟨rfl, rfl⟩ := Prod.ext_iff.1 (List.mem_singleton.1 hm)
      refine (h.dvd_of_placed (fun s hs => ?_) hr hs).resolve_right ?_
      · obtain ⟨⟨r', hr'⟩, -⟩ := granted_of_mem_history hs
        exact ih hcuts hr'
      · rintro ⟨size, p, -, -, -, hno⟩
        exact hno (dvd_cutOff hcuts)

/-- **Addresses are aligned as far as cuts are**, in any run of an allocator of any design. -/
theorem Reached.placed_aligned (h : Reached g log a) : PlacedAligned g log where
  chosen b size address hm := by
    obtain ⟨before, after, rfl⟩ := List.append_of_mem hm
    obtain ⟨a₀, a₁, h₀, hr, hs⟩ := h.of_append
    exact h₀.dvd_of_chosen hr hs
  cuts hc r address hm := h.dvd_of_cuts hc hm
  first before r address after hlog hlive hno := by
    subst hlog
    obtain ⟨a₀, a₁, h₀, hr, hs⟩ := h.of_append
    exact (h₀.dvd_of_placed hlive hr hs).resolve_left hno

/-- After an aligned cut, memory is placed at both ends. -/
theorem placed_aligned_after_cut : ∃ a,
    Reached ⟨64, 4096, 16, 16⟩ [(.shrink 16 .bottomUp, .ok .done),
      (.allocate 20 {}, .ok (.placed 4112)),
      (.allocate 1 { direction := .topDown }, .ok (.placed 4144))] a ∧ 16 ∣ 4112 ∧ 16 ∣ 4144 := by
  have hb : (Design.build ⟨64, 4096, 16, 16⟩ (.linear .best)).result =
      .ok (.linear ⟨.fresh ⟨64, 4096, 16, 16⟩, .best⟩) := rfl
  have h : Reached ⟨64, 4096, 16, 16⟩ [(.shrink 16 .bottomUp, .ok .done),
      (.allocate 20 {}, .ok (.placed 4112)),
      (.allocate 1 { direction := .topDown }, .ok (.placed 4144))] _ :=
    .of_serve hb [.shrink 16 .bottomUp, .allocate 20 {}, .allocate 1 { direction := .topDown }]
      (by simp [Request.InRange, Address.limit]) rfl
  have haligned := h.placed_aligned.cuts fun amount d hm => by
    obtain ⟨rfl, -⟩ : amount = 16 ∧ d = .bottomUp := by simpa using hm
    exact Nat.dvd_refl 16
  exact ⟨_, h, haligned (.allocate 20 {}) 4112 (by decide),
    haligned (.allocate 1 { direction := .topDown }) 4144 (by decide)⟩

/-- **Addresses are not always aligned**: after a cut of one byte, the bank begins at address one,
and so does the next allocation. -/
theorem not_always_aligned : ¬∀ g log a, Reached g log a →
    ∀ r address, (r, .ok (.placed address)) ∈ log → g.alignment ∣ address := by
  have hb : (Design.build ⟨32, 0, 1, 16⟩ (.linear .first)).result =
      .ok (.linear ⟨.fresh ⟨32, 0, 1, 16⟩, .first⟩) := rfl
  have h := Reached.of_serve hb [.shrink 1 .bottomUp, .allocate 16 {}]
    (by simp [Request.InRange, Address.limit]) rfl
  intro hall
  have hone : 16 ∣ 1 := hall _ _ _ h (.allocate 16 {}) 1 (by decide)
  omega

end Allocator

end MemoryBank
