import MemoryBank.Allocator
import Mathlib.Data.Finset.Sort

/-!
# The contract

What an allocator owes its callers, said without blocks, links or indexes. A `View` is what callers
can tell of a bank: how much of it is cut off, and which ranges are allocated.

* `View.answer` is the answer to a request. Where memory is asked for at no particular address, it
  depends on which free block an allocator would pick; all other answers are determined.
* `View.after` is the view after an answer; `liveAfter` tells the allocations by the answers alone.
* `Request.InRange`: the numbers in a request are addresses or byte counts.
-/

namespace MemoryBank

/-- What callers can tell of a bank. -/
structure View where
  geometry : Geometry
  /-- Bytes cut off the low end. -/
  shrunk : ℕ
  /-- The first address and the number of bytes of each allocation. -/
  live : Finset (ℕ × ℕ)
  deriving DecidableEq

/-- How far into a free block an allocation of `n` bytes begins. -/
def Block.inset (k : Block) (n : ℕ) : Direction → ℕ
  | .bottomUp => 0
  | .topDown => k.size - n

theorem Block.inset_add_le {k : Block} {n : ℕ} (h : n ≤ k.size) (d : Direction) :
    k.inset n d + n ≤ k.size := by
  cases d <;> simp only [Block.inset] <;> omega

/-- The numbers in a request are addresses or byte counts. -/
def Request.InRange : Request → Prop
  | .allocate size p => size < Address.limit ∧ ∀ l ∈ p.limit, l < Address.limit
  | .allocateAt address size => address < Address.limit ∧ size < Address.limit
  | .deallocate address => address < Address.limit
  | .shrink amount _ => amount < Address.limit
  | .clear | .restore => True

theorem Geometry.Sound.alignment_pos {g : Geometry} (h : g.Sound) : 0 < g.alignment := by
  obtain ⟨k, hk⟩ := h.alignment
  rw [hk]
  exact Nat.two_pow_pos k

/-- Whatever is granted is not empty. -/
theorem Geometry.Sound.grant_pos {g : Geometry} (h : g.Sound) {request n : ℕ}
    (hn : g.grant request = .ok (some n)) : 0 < n := by
  have ha := h.alignment_pos
  obtain ⟨size, -, hs⟩ := bind_eq_ok_iff.1 hn
  obtain ⟨m, -, rfl⟩ := Option.map_eq_some_iff.1 (Except.ok.inj hs)
  split <;> omega

/-! ## What an answer leads to -/

/-- The allocations after memory was granted at `a`. -/
def liveWith (g : Geometry) (live : Finset (ℕ × ℕ)) (request a : ℕ) : Finset (ℕ × ℕ) :=
  match g.grant request with
  | .ok (some n) => insert (a, n) live
  | _ => live

/-- The allocations after an answer, told by the answer. -/
def liveAfter (g : Geometry) (live : Finset (ℕ × ℕ)) :
    Request → Except Failure Reply → Finset (ℕ × ℕ)
  | .allocate size _, .ok (.placed a) => liveWith g live size a
  | .allocateAt _ size, .ok (.placed a) => liveWith g live size a
  | .deallocate a, .ok .done => live.filter (·.1 ≠ a)
  | .clear, .ok .done => ∅
  | _, _ => live

/-- The number of bytes cut off after an answer. -/
def shrunkAfter (shrunk : ℕ) : Request → Except Failure Reply → ℕ
  | .clear, .ok .done => 0
  | .shrink amount _, .ok .done => shrunk + amount
  | .restore, .ok .done => 0
  | _, _ => shrunk

/-- Nothing was done: there is no room, or the request failed. -/
def Refused (reply : Except Failure Reply) : Prop := reply = .ok .noRoom ∨ ∃ e, reply = .error e

theorem refused_noRoom : Refused (.ok .noRoom) := .inl rfl

theorem refused_error (e : Failure) : Refused (.error e) := .inr ⟨e, rfl⟩

theorem not_refused_placed {a : ℕ} : ¬Refused (.ok (.placed a)) := by
  rintro (h | ⟨e, h⟩) <;> cases h

theorem not_refused_done : ¬Refused (.ok .done) := by
  rintro (h | ⟨e, h⟩) <;> cases h

namespace View

variable {v : View}

/-- The view after an answer. -/
def after (v : View) (r : Request) (reply : Except Failure Reply) : View where
  geometry := v.geometry
  shrunk := shrunkAfter v.shrunk r reply
  live := liveAfter v.geometry v.live r reply

theorem after_of_refused {r : Request} {reply : Except Failure Reply} (h : Refused reply) :
    v.after r reply = v := by
  obtain rfl | ⟨e, rfl⟩ := h <;> cases r <;> rfl

/-! ## Answers -/

/-- Bytes that can be used at present. -/
def usable (v : View) : ℕ := v.geometry.size - v.shrunk

/-- The first address that can be used at present. -/
def start (v : View) : ℕ := v.geometry.offset + v.shrunk

/-- The address after the bank. -/
def stop (v : View) : ℕ := v.geometry.offset + v.geometry.size

/-- The number of bytes that a request receives, or `none` if the bank could not hold them. -/
def grant (v : View) (request : ℕ) : Except Failure (Option ℕ) :=
  return (← v.geometry.grant request).filter (· ≤ v.usable)

/-- No allocation reaches into the `n` bytes from `address` on, and all of them can be used. -/
def Vacant (v : View) (address n : ℕ) : Prop :=
  v.start ≤ address ∧ address + n ≤ v.stop ∧ ∀ r ∈ v.live, r.1 + r.2 ≤ address ∨ address + n ≤ r.1

instance (v : View) (address n : ℕ) : Decidable (v.Vacant address n) :=
  inferInstanceAs (Decidable (_ ∧ _ ∧ _))

/-- The lowest allocated address. -/
def lowest? (v : View) : Option ℕ := ((v.live.image (·.1)).sort (· ≤ ·)).head?

/-- The answer to a request for `n` bytes that gets a part of the block `k`. -/
def answerIn (v : View) (k : Block) (n : ℕ) (p : Placement) : Except Failure Reply :=
  let address := k.address + k.inset n p.direction + v.geometry.offset
  match p.limit with
  | none => .ok (.placed address)
  | some limit =>
    if address < limit then .ok (.placed address)
    else .error (.misuse (.addressLimitExceeded limit address))

/-- The answer to a request for `n` bytes at an address of the caller's choice. -/
def answerAt (v : View) (address n : ℕ) : Reply :=
  if v.geometry.offset ≤ address ∧ (address - v.geometry.offset) % v.geometry.alignment = 0 ∧
    v.Vacant address n then .placed address else .noRoom

/-- The answer to a cut. -/
def answerCut (v : View) (amount : ℕ) : Direction → Except Failure Reply
  | .topDown => .error (.misuse .topDownShrinkUnsupported)
  | .bottomUp =>
    if amount ≤ v.usable then
      match v.lowest?.filter (· < v.start + amount) with
      | some address => .error (.misuse (.shrinkCutsIntoAllocation amount address))
      | none => .ok .done
    else .error (.misuse (.shrinkExceedsCapacity amount v.usable))

/-- The answer to a request, where `pick` is the free block that is taken for a number of bytes. -/
def answer (v : View) (pick : ℕ → Option Block) : Request → Except Failure Reply
  | .allocate size p => do
    match ← v.grant size with
    | none => return .noRoom
    | some n =>
      match pick n with
      | none => return .noRoom
      | some k => v.answerIn k n p
  | .allocateAt address size => do
    match ← v.grant size with
    | none => return .noRoom
    | some n => return v.answerAt address n
  | .deallocate address =>
    if ∃ r ∈ v.live, r.1 = address then .ok .done
    else .error (.misuse (.invalidDeallocation address))
  | .clear => .ok .done
  | .shrink amount d => if amount = 0 then .ok .done else v.answerCut amount d
  | .restore => .ok .done

/-! ## Facts about the contract -/

section Facts

variable {request n : ℕ}

section Answers

variable {pick : ℕ → Option Block} {size : ℕ} {p : Placement}

theorem answer_allocate_of_error {e : Failure} (h : v.grant size = .error e) :
    v.answer pick (.allocate size p) = .error e := by
  simp only [answer, h, error_bind]

theorem answer_allocate_of_none (h : v.grant size = .ok none) :
    v.answer pick (.allocate size p) = .ok .noRoom := by
  rw [answer, h]
  rfl

theorem answer_allocate_of_some (h : v.grant size = .ok (some n)) :
    v.answer pick (.allocate size p) = match pick n with
      | none => .ok .noRoom
      | some k => v.answerIn k n p := by
  rw [answer, h]
  rfl

theorem answer_allocateAt_of_error {address : ℕ} {e : Failure} (h : v.grant size = .error e) :
    v.answer pick (.allocateAt address size) = .error e := by
  simp only [answer, h, error_bind]

theorem answer_allocateAt_of_none {address : ℕ} (h : v.grant size = .ok none) :
    v.answer pick (.allocateAt address size) = .ok .noRoom := by
  rw [answer, h]
  rfl

theorem answer_allocateAt_of_some {address : ℕ} (h : v.grant size = .ok (some n)) :
    v.answer pick (.allocateAt address size) = .ok (v.answerAt address n) := by
  rw [answer, h]
  rfl

end Answers

/-- Where memory is not asked for, the answer does not depend on how blocks are picked. -/
theorem answer_congr {pick pick' : ℕ → Option Block} {r : Request}
    (h : ∀ size p, r ≠ .allocate size p) : v.answer pick r = v.answer pick' r := by
  cases r with
  | allocate size p => exact absurd rfl (h size p)
  | _ => rfl

/-- The handle of the block that is picked does not matter. -/
theorem answerIn_congr {k k' : Block} (ha : k.address = k'.address) (hs : k.size = k'.size)
    {p : Placement} : v.answerIn k n p = v.answerIn k' n p := by
  have hi : k.inset n p.direction = k'.inset n p.direction := by
    cases p.direction
    · rfl
    · simp only [Block.inset, hs]
  rw [answerIn, answerIn, ha, hi]

/-- A request that gets a block is not turned away for lack of room. -/
theorem answerIn_ne_noRoom {k : Block} {p : Placement} : v.answerIn k n p ≠ .ok .noRoom := by
  unfold answerIn
  dsimp only
  split
  · nofun
  · split <;> nofun

/-- Only the low end is ever cut off. -/
theorem bottomUp_of_answerCut {amount : ℕ} {d : Direction} (h : v.answerCut amount d = .ok .done) :
    d = .bottomUp := by
  cases d with
  | bottomUp => rfl
  | topDown => cases h

theorem grant_some (h : v.grant request = .ok (some n)) :
    v.geometry.grant request = .ok (some n) ∧ n ≤ v.usable := by
  obtain ⟨size, hs, hn⟩ := bind_eq_ok_iff.1 h
  obtain ⟨rfl, hle⟩ := Option.filter_eq_some_iff.1 (Except.ok.inj hn)
  exact ⟨hs, by simpa using hle⟩

theorem liveWith_of_grant (h : v.grant request = .ok (some n)) (a : ℕ) :
    liveWith v.geometry v.live request a = insert (a, n) v.live := by
  simp only [liveWith, (grant_some h).1]

/-- The lowest allocated address, read off the allocations in address order. -/
theorem lowest?_eq {rs : List (ℕ × ℕ)} (h : v.live = rs.toFinset)
    (hs : (rs.map (·.1)).Pairwise (· < ·)) : v.lowest? = rs.head?.map (·.1) := by
  have hi : v.live.image (·.1) = (rs.map (·.1)).toFinset := by
    rw [h]
    ext a
    simp
  have hn : (rs.map (·.1)).Nodup := hs.imp fun h => h.ne
  rw [lowest?, hi, (List.toFinset_sort (· ≤ ·) hn).2 (hs.imp fun h => h.le), List.head?_map]

end Facts

end View

end MemoryBank
