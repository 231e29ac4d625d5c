import Mathlib.Data.List.Nodup
import Mathlib.Data.List.Perm.Subperm

/-!
# The order of arrival

A list into which elements come one by one at the end, and out of which others are taken, is known
by its elements alone, once it is known what it was before: `refiled old es` is the list with the
elements `es`, those of them that were in `old` still as they stood there.

* `eq_refiled`: taking elements out and appending others leads to that list.
* `refiled_refiled`: two changes are one, if what is there at last did not come and go between.
-/

namespace MemoryBank

/-- A part of a list in the list's order is known by its elements. -/
theorem eq_filter_of_sublist {α : Type} {s l : List α} {p : α → Prop} [DecidablePred p]
    (hn : l.Nodup) (hs : s.Sublist l) (hm : ∀ e ∈ l, e ∈ s ↔ p e) : s = l.filter (p ·) := by
  have hself : s.filter (p ·) = s :=
    List.filter_eq_self.2 fun e he => decide_eq_true ((hm e (hs.subset he)).1 he)
  have hsub : s.Sublist (l.filter (p ·)) := hself ▸ hs.filter _
  refine hsub.eq_of_length_le ((hn.filter _).subperm fun e he => ?_).length_le
  obtain ⟨hl, hp⟩ := List.mem_filter.1 he
  exact (hm e hl).2 (of_decide_eq_true hp)

variable {α : Type} [DecidableEq α] {old kept added es fs : List α}

/-- The elements of `es` in the order of their arrival: those of `old` as they stood, and behind
them the others as `es` has them. -/
def refiled (old es : List α) : List α := old.filter (· ∈ es) ++ es.filter (· ∉ old)

/-- **Taking out and appending** keeps the order of arrival. -/
theorem eq_refiled (hold : old.Nodup) (hes : es.Nodup) (hk : kept.Sublist old)
    (ha : added.Sublist es) (hp : (kept ++ added).Perm es) (hnew : ∀ e ∈ added, e ∉ old) :
    kept ++ added = refiled old es := by
  have hmem : ∀ e, e ∈ es ↔ e ∈ kept ∨ e ∈ added := fun e => by
    rw [← hp.mem_iff, List.mem_append]
  rw [refiled]
  congr 1
  · refine eq_filter_of_sublist hold hk fun e he => ?_
    rw [hmem, or_iff_left fun h => hnew e h he]
  · refine eq_filter_of_sublist hes ha fun e he => ⟨hnew e, fun hno => ?_⟩
    exact ((hmem e).1 he).resolve_left fun h => hno (hk.subset h)

theorem mem_refiled {e : α} : e ∈ refiled old es ↔ e ∈ es := by
  simp only [refiled, List.mem_append, List.mem_filter, decide_eq_true_eq]
  by_cases he : e ∈ old <;> simp [he]

/-- Nothing comes and nothing goes. -/
theorem refiled_of_perm (h : old.Perm es) : refiled old es = old := by
  have hkept : old.filter (· ∈ es) = old :=
    List.filter_eq_self.2 fun e he => decide_eq_true (h.subset he)
  have hadded : es.filter (· ∉ old) = [] :=
    List.filter_eq_nil_iff.2 fun e he => by simpa using h.symm.subset he
  rw [refiled, hkept, hadded, List.append_nil]

/-- One element is in order, whatever there was before. -/
theorem refiled_of_length_le_one (hold : old.Nodup) (hes : es.length ≤ 1) :
    refiled old es = es := by
  match es with
  | [] => simp [refiled]
  | [e] =>
    by_cases he : e ∈ old
    · have hkept : [e] ++ [] = refiled old [e] :=
        eq_refiled hold (List.nodup_singleton e) (List.singleton_sublist.2 he)
          (List.nil_sublist _) (.refl _) (by simp)
      exact hkept.symm
    · have hadded : [] ++ [e] = refiled old [e] :=
        eq_refiled hold (List.nodup_singleton e) (List.nil_sublist _) (.refl _) (.refl _)
          (by simpa using he)
      exact hadded.symm

/-- **Two changes are one**, if whatever is there at last was there before just if it was there
between. -/
theorem refiled_refiled (h : ∀ e ∈ fs, e ∈ old ↔ e ∈ es) :
    refiled (refiled old es) fs = refiled old fs := by
  have hbefore : (old.filter (· ∈ es)).filter (· ∈ fs) = old.filter (· ∈ fs) := by
    rw [List.filter_filter]
    refine List.filter_congr fun e he => ?_
    by_cases hf : e ∈ fs
    · simp [hf, (h e hf).1 he]
    · simp [hf]
  have hbetween : (es.filter (· ∉ old)).filter (· ∈ fs) = [] := by
    refine List.filter_eq_nil_iff.2 fun e he hf => ?_
    obtain ⟨hes, hno⟩ := List.mem_filter.1 he
    exact of_decide_eq_true hno ((h e (of_decide_eq_true hf)).2 hes)
  have hafter : fs.filter (· ∉ refiled old es) = fs.filter (· ∉ old) :=
    List.filter_congr fun e he => by simp [mem_refiled, h e he]
  rw [refiled, hafter, refiled, List.filter_append, hbefore, hbetween, List.append_nil, refiled]

end MemoryBank
