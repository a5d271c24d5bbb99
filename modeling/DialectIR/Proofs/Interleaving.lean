import Mathlib.Data.List.Sort

/-! Lists that are made of two others by taking from either in order. -/

namespace DialectIR

/-- The last list is made of the other two by taking from either in order. -/
inductive Interleaved {α : Type} : List α → List α → List α → Prop where
  | nil : Interleaved [] [] []
  | left {a : α} {kept idle all : List α} (h : Interleaved kept idle all) : Interleaved (a :: kept)
      idle (a :: all)
  | right {a : α} {kept idle all : List α} (h : Interleaved kept idle all) : Interleaved kept
      (a :: idle) (a :: all)

namespace Interleaved

variable {α : Type} {kept idle all : List α}

theorem swap (h : Interleaved kept idle all) : Interleaved idle kept all := by
  induction h with
  | nil => exact .nil
  | left h ih => exact .right ih
  | right h ih => exact .left ih

theorem subset (h : Interleaved kept idle all) : kept ⊆ all := by
  induction h with
  | nil => exact List.Subset.refl _
  | left h ih => exact List.cons_subset_cons _ ih
  | right h ih => exact List.subset_cons_of_subset _ ih

theorem filter (h : Interleaved kept idle all) (p : α → Bool) :
    Interleaved (kept.filter p) (idle.filter p) (all.filter p) := by
  induction h with
  | nil => exact .nil
  | @left a kept idle all h ih =>
      rw [List.filter_cons, List.filter_cons]
      split
      · exact ih.left
      · exact ih
  | @right a kept idle all h ih =>
      rw [List.filter_cons, List.filter_cons]
      split
      · exact ih.right
      · exact ih

theorem append {kept' idle' all' : List α} (h : Interleaved kept idle all)
    (h' : Interleaved kept' idle' all') :
    Interleaved (kept ++ kept') (idle ++ idle') (all ++ all') := by
  induction h with
  | nil => exact h'
  | left h ih => exact .left ih
  | right h ih => exact .right ih

theorem none_left : (all : List α) → Interleaved [] all all
  | [] => .nil
  | _ :: all => .right (none_left all)

theorem length_eq (h : Interleaved kept idle all) : all.length = kept.length + idle.length := by
  induction h with
  | nil => rfl
  | left h ih =>
      rw [List.length_cons, List.length_cons, ih]
      omega
  | right h ih =>
      rw [List.length_cons, List.length_cons, ih]
      omega

theorem eq_of_nil (h : Interleaved kept idle all) (hidle : idle = []) : kept = all := by
  induction h with
  | nil => rfl
  | left h ih => rw [ih hidle]
  | right h ih => cases hidle

/-- One of the lists is all there is just if the other is empty. -/
theorem eq_iff (h : Interleaved kept idle all) : kept = all ↔ idle = [] := by
  refine ⟨fun heq => ?_, h.eq_of_nil⟩
  have hlength := h.length_eq
  rw [heq] at hlength
  exact List.length_eq_zero_iff.1 (by omega)

section Sorting

variable {le : α → α → Bool} (htrans : ∀ a b c, le a b = true → le b c = true → le a c = true)

include htrans

theorem orderedInsert_left (h : Interleaved kept idle all) (hsorted : all.Pairwise (le · ·))
    (a : α) :
    Interleaved (kept.orderedInsert (le · ·) a) idle (all.orderedInsert (le · ·) a) := by
  induction h with
  | nil => exact .left .nil
  | @left b kept idle all h ih =>
      rw [List.orderedInsert_cons, List.orderedInsert_cons]
      split
      · exact h.left.left
      · exact (ih hsorted.of_cons).left
  | @right b kept idle all h ih =>
      rw [List.orderedInsert_cons]
      split
      next hab =>
        -- Nothing behind `b` goes before `a`.
        have hfirst : kept.orderedInsert (le · ·) a = a :: kept := by
          cases kept with
          | nil => rfl
          | cons c kept =>
              have hbc := List.rel_of_pairwise_cons hsorted (h.subset List.mem_cons_self)
              exact List.orderedInsert_cons_of_le _ kept (htrans a b c hab hbc)
        rw [hfirst]
        exact h.right.left
      · exact (ih hsorted.of_cons).right

theorem orderedInsert_right (h : Interleaved kept idle all) (hsorted : all.Pairwise (le · ·))
    (a : α) :
    Interleaved kept (idle.orderedInsert (le · ·) a) (all.orderedInsert (le · ·) a) :=
  (h.swap.orderedInsert_left htrans hsorted a).swap

omit htrans in
theorem orderedInsert_append {a : α} {before behind : List α}
    (hbefore : ∀ b ∈ before, le a b = false) (hbehind : ∀ b ∈ behind, le a b = true) :
    (before ++ behind).orderedInsert (le · ·) a = before ++ a :: behind := by
  induction before with
  | nil =>
      cases behind with
      | nil => rfl
      | cons b behind => exact List.orderedInsert_cons_of_le _ behind (hbehind b List.mem_cons_self)
  | cons b before ih =>
      obtain ⟨hb, hbefore⟩ := List.forall_mem_cons.1 hbefore
      rw [List.cons_append, List.orderedInsert_cons, if_neg (Bool.eq_false_iff.1 hb), ih hbefore,
        List.cons_append]

variable (htotal : ∀ a b, (le a b || le b a) = true)

include htotal

theorem mergeSort_cons_eq (a : α) (l : List α) :
    (a :: l).mergeSort le = (l.mergeSort le).orderedInsert (le · ·) a := by
  obtain ⟨before, behind, hall, hrest, hbefore⟩ := List.mergeSort_cons htrans htotal a l
  have hsorted := List.pairwise_mergeSort htrans htotal (a :: l)
  rw [hall, List.pairwise_append, List.pairwise_cons] at hsorted
  rw [hall, hrest, orderedInsert_append (fun b hb => by simpa using hbefore b hb) hsorted.2.1.1]

/-- **A stable sort keeps lists interleaved.** -/
theorem mergeSort (h : Interleaved kept idle all) :
    Interleaved (kept.mergeSort le) (idle.mergeSort le) (all.mergeSort le) := by
  induction h with
  | nil =>
      rw [List.mergeSort_nil]
      exact .nil
  | @left a kept idle all h ih =>
      rw [mergeSort_cons_eq htrans htotal, mergeSort_cons_eq htrans htotal]
      exact ih.orderedInsert_left htrans (List.pairwise_mergeSort htrans htotal all) a
  | @right a kept idle all h ih =>
      rw [mergeSort_cons_eq htrans htotal, mergeSort_cons_eq htrans htotal]
      exact ih.orderedInsert_right htrans (List.pairwise_mergeSort htrans htotal all) a

end Sorting

end Interleaved

end DialectIR
