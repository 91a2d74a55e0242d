import Mathlib.Data.List.DropRight
import Restyle.Text.Basic

/-!
# Trailing parts

The trailing part of a list is what is taken from its right end, so the lemmas of the library on
`List.rdropWhile` and `List.rtakeWhile` apply to it.  Here is what they do not say.

* `dropTrailing_eq_rdropWhile`, `takeTrailing_eq_rtakeWhile`: the same functions by other names.
* `dropTrailing_append`, `takeTrailing_append`: a list is cut where its trailing part begins.
* `takeTrailing_cons`: the trailing part of a list with one more element in front.
* `dropTrailing_map`, `takeTrailing_map`: a renaming of the elements leaves the cut where it is.
-/

namespace Restyle

section
variable {α β : Type}

/-- Dropping at the end is what the library does under another name. -/
theorem dropTrailing_eq_rdropWhile (p : α → Bool) (xs : List α) :
    dropTrailing p xs = xs.rdropWhile p := rfl

theorem takeTrailing_eq_rtakeWhile (p : α → Bool) (xs : List α) :
    takeTrailing p xs = xs.rtakeWhile p := rfl

/-! ### Where a list is cut -/

/-- A list is cut where its trailing part begins, if nothing before it satisfies `p`. -/
theorem dropTrailing_append {p : α → Bool} {a b : List α} (ha : ∀ x ∈ a, p x = false)
    (hb : ∀ x ∈ b, p x = true) : dropTrailing p (a ++ b) = a := by
  rw [dropTrailing_eq_rdropWhile]
  induction b using List.reverseRecOn with
  | nil =>
      rw [List.append_nil, List.rdropWhile_eq_self_iff]
      intro hne
      simp [ha _ (List.getLast_mem hne)]
  | append_singleton b x ih =>
      rw [← List.append_assoc, List.rdropWhile_concat_pos _ _ _ (hb x (by simp))]
      exact ih fun y hy => hb y (List.mem_append_left _ hy)

/-- What is taken stops at the last element that does not count. -/
theorem takeTrailing_append {p : α → Bool} {a b : List α} (ha : ∀ x ∈ a, p x = false)
    (hb : ∀ x ∈ b, p x = true) : takeTrailing p (a ++ b) = b := by
  have h : dropTrailing p (a ++ b) ++ takeTrailing p (a ++ b) = a ++ b :=
    List.rdropWhile_append_rtakeWhile
  rw [dropTrailing_append ha hb] at h
  exact List.append_cancel_left h

/-- One more element in front belongs to the trailing part only if all the others do. -/
theorem takeTrailing_cons (p : α → Bool) (x : α) (xs : List α) :
    takeTrailing p (x :: xs) = if xs.all p && p x then x :: xs else takeTrailing p xs := by
  simp only [takeTrailing_eq_rtakeWhile]
  induction xs using List.reverseRecOn with
  | nil => exact List.rtakeWhile_concat p [] x
  | append_singleton xs y ih =>
      rw [← List.cons_append, List.rtakeWhile_concat, List.rtakeWhile_concat, ih]
      by_cases hy : p y = true
      · simp only [hy, List.all_append, List.all_cons, List.all_nil, Bool.and_true, if_true]
        split <;> rfl
      · simp [hy]

/-! ### Elements of either part -/

/-- What does not satisfy `p` is not in the trailing part. -/
theorem mem_dropTrailing {p : α → Bool} {x : α} {xs : List α} (h : x ∈ xs) (hx : p x = false) :
    x ∈ dropTrailing p xs := by
  rw [← List.rdropWhile_append_rtakeWhile (p := p) (l := xs), List.mem_append] at h
  refine h.resolve_right fun ht => ?_
  rw [List.mem_rtakeWhile_imp ht] at hx
  cases hx

theorem all_takeTrailing (p : α → Bool) (xs : List α) : (takeTrailing p xs).all p = true :=
  List.all_eq_true.2 fun _ hx => List.mem_rtakeWhile_imp hx

/-- What is left of a list begins as the list does. -/
theorem head?_of_head?_dropTrailing {p : α → Bool} {xs : List α} {x : α}
    (h : (dropTrailing p xs).head? = some x) : xs.head? = some x := by
  rw [dropTrailing_eq_rdropWhile] at h
  rw [← List.rdropWhile_append_rtakeWhile (p := p) (l := xs), List.head?_append, h]
  rfl

/-! ### Renaming the elements -/

/-- Elements may be renamed before the end is dropped. -/
theorem dropTrailing_map (f : α → β) (p : β → Bool) (xs : List α) :
    dropTrailing p (xs.map f) = (dropTrailing (p ∘ f) xs).map f := by
  rw [dropTrailing, dropTrailing, ← List.map_reverse, List.dropWhile_map, List.map_reverse]

theorem takeTrailing_map (f : α → β) (p : β → Bool) (xs : List α) :
    takeTrailing p (xs.map f) = (takeTrailing (p ∘ f) xs).map f := by
  rw [takeTrailing, takeTrailing, ← List.map_reverse, List.takeWhile_map, List.map_reverse]

end

end Restyle
