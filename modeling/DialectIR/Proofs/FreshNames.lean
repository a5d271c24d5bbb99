import DialectIR.Greedy
import DialectIR.Proofs.Numeral
import DialectIR.Proofs.Scoping
import Mathlib.Algebra.Group.Nat.Defs
import Mathlib.Data.List.Dedup
import Mathlib.Data.List.Nodup
import Mathlib.Data.List.Perm.Subperm

/-! The names that a supply hands out differ from each other and from the reserved ones, as long as
the counter does not come round to where it started. -/

namespace DialectIR.NameSupply

/-- The names are drawn one after the other. -/
def Draws : NameSupply → List String → NameSupply → Prop
  | supply, [], after => after = supply
  | supply, name :: names, after => supply.fresh.1 = name ∧ Draws supply.fresh.2 names after

theorem Draws.append {supply between after : NameSupply} {names more : List String}
    (h : Draws supply names between) (h' : Draws between more after) :
    Draws supply (names ++ more) after := by
  induction names generalizing supply with
  | nil =>
      rw [Draws] at h
      exact h ▸ h'
  | cons name names ih => exact ⟨h.1, ih h.2⟩

/-- Drawing names reserves none. -/
theorem Draws.reserved {supply after : NameSupply} {names : List String}
    (h : Draws supply names after) :
    after.reserved = supply.reserved := by
  induction names generalizing supply with
  | nil =>
      rw [Draws] at h
      rw [h]
  | cons name names ih => exact (ih h.2).trans rfl

/-- The numbers that are not reserved among `span` numbers in a row. -/
def candidates (reserved : List UInt64) (next : UInt64) (span : Nat) : List UInt64 :=
  ((List.range span).map fun k => next + UInt64.ofNat k).filter (· ∉ reserved)

theorem toNat_add_ofNat (next : UInt64) {k : Nat} (hk : k < UInt64.size) :
    (next + UInt64.ofNat k).toNat = (next.toNat + k) % 2 ^ 64 := by
  rw [UInt64.toNat_add, UInt64.toNat_ofNat_of_lt' hk]

theorem add_ofNat_inj {next : UInt64} {i j : Nat} (hi : i < UInt64.size) (hj : j < UInt64.size)
    (h : next + UInt64.ofNat i = next + UInt64.ofNat j) : i = j := by
  have hnat := congrArg UInt64.toNat h
  rw [toNat_add_ofNat next hi, toNat_add_ofNat next hj] at hnat
  have hsize : UInt64.size = 2 ^ 64 := rfl
  omega

theorem nodup_row (next : UInt64) {span : Nat} (hspan : span ≤ UInt64.size) :
    ((List.range span).map fun k => next + UInt64.ofNat k).Nodup := by
  refine List.Nodup.map_on (fun i hi j hj heq => ?_) List.nodup_range
  have hi' := List.mem_range.1 hi
  have hj' := List.mem_range.1 hj
  exact add_ofNat_inj (by omega) (by omega) heq

theorem nodup_candidates (reserved : List UInt64) (next : UInt64) {span : Nat}
    (hspan : span ≤ UInt64.size) :
    (candidates reserved next span).Nodup :=
  (nodup_row next hspan).filter _

theorem length_candidates {reserved numbers : List UInt64} (hnumbers : reserved ⊆ numbers)
    (next : UInt64) {span : Nat} (hspan : span ≤ UInt64.size) :
    span ≤ numbers.length + (candidates reserved next span).length := by
  have hsplit := List.length_eq_length_filter_add
    (l := (List.range span).map fun k => next + UInt64.ofNat k) (· ∈ reserved)
  have hreserved : (((List.range span).map fun k => next + UInt64.ofNat k).filter (· ∈ reserved)).length
      ≤ numbers.length := by
    refine (List.subperm_of_subset ((nodup_row next hspan).filter _) fun number hnumber =>
      hnumbers ?_).length_le
    simpa using (List.mem_filter.1 hnumber).2
  have hcandidates : candidates reserved next span
      = ((List.range span).map fun k => next + UInt64.ofNat k).filter fun number =>
        !decide (number ∈ reserved) := by
    simp only [candidates, decide_not]
  rw [List.length_map, List.length_range] at hsplit
  rw [hcandidates]
  omega

theorem add_ofNat_succ (next : UInt64) (k : Nat) :
    next + 1 + UInt64.ofNat k = next + UInt64.ofNat (k + 1) := by
  rw [UInt64.ofNat_add, UInt64.add_assoc, UInt64.add_comm 1]
  rfl

theorem candidates_succ (reserved : List UInt64) (next : UInt64) (span : Nat) :
    candidates reserved next (span + 1)
      = if next ∈ reserved then candidates reserved (next + 1) span
        else next :: candidates reserved (next + 1) span := by
  have hrow : ((List.range (span + 1)).map fun k => next + UInt64.ofNat k)
      = next :: (List.range span).map fun k => next + 1 + UInt64.ofNat k := by
    rw [List.range_succ_eq_map, List.map_cons, List.map_map]
    have hzero : next + UInt64.ofNat 0 = next := UInt64.add_zero next
    rw [hzero]
    congr 1
    apply List.map_congr_left
    intro k _
    exact (add_ofNat_succ next k).symm
  rw [candidates, hrow, List.filter_cons]
  by_cases h : next ∈ reserved
  · simp [h, candidates]
  · simp [h, candidates]

/-- The first candidate comes behind reserved numbers only. -/
theorem exists_of_candidates_eq_cons {reserved rest : List UInt64} {next number : UInt64}
    {span : Nat} (h : candidates reserved next span = number :: rest) :
    ∃ k, k < span ∧ (∀ j < k, next + UInt64.ofNat j ∈ reserved) ∧ number = next + UInt64.ofNat k
      ∧ number ∉ reserved ∧ rest = candidates reserved (number + 1) (span - k - 1) := by
  induction span generalizing next with
  | zero => cases h
  | succ span ih =>
      rw [candidates_succ] at h
      by_cases hnext : next ∈ reserved
      · rw [if_pos hnext] at h
        obtain ⟨k, hk, hreserved, hnumber, hfree, hrest⟩ := ih h
        refine ⟨k + 1, by omega, fun j hj => ?_, by rw [hnumber, add_ofNat_succ], hfree, ?_⟩
        · cases j with
          | zero =>
              have hzero : next + UInt64.ofNat 0 = next := UInt64.add_zero next
              rwa [hzero]
          | succ j =>
              rw [← add_ofNat_succ]
              exact hreserved j (by omega)
        · rw [hrest]
          congr 1
          omega
      · rw [if_neg hnext] at h
        obtain ⟨rfl, rfl⟩ := List.cons.inj h
        exact ⟨0, by omega, fun j hj => by omega, (UInt64.add_zero _).symm, hnext,
          by rw [Nat.sub_zero, Nat.add_sub_cancel]⟩

theorem firstFree_eq {reserved : List UInt64} {bound k : Nat} {next : UInt64}
    (hreserved : ∀ j < k, next + UInt64.ofNat j ∈ reserved)
    (hfree : next + UInt64.ofNat k ∉ reserved) (hbound : k ≤ bound) :
    firstFree reserved bound next = next + UInt64.ofNat k := by
  have hzero : next + UInt64.ofNat 0 = next := UInt64.add_zero next
  induction bound generalizing k next with
  | zero =>
      obtain rfl : k = 0 := by omega
      rw [firstFree, hzero]
  | succ bound ih =>
      rw [firstFree]
      cases k with
      | zero =>
          rw [hzero] at hfree ⊢
          rw [if_neg hfree]
      | succ k =>
          have hnext := hreserved 0 (by omega)
          rw [hzero] at hnext
          rw [if_pos hnext, ← add_ofNat_succ]
          refine ih (fun j hj => ?_) ?_ (by omega) (UInt64.add_zero _)
          · rw [add_ofNat_succ]
            exact hreserved (j + 1) (by omega)
          · rwa [add_ofNat_succ]

/-- The supply hands out the first candidate, and goes on with the others. -/
theorem fresh_of_candidates {supply : NameSupply} {span : Nat} {number : UInt64}
    {rest : List UInt64} (hspan : span ≤ UInt64.size)
    (h : candidates supply.reserved supply.next span = number :: rest) :
    supply.fresh = (toString number.toNat, ⟨number + 1, supply.reserved⟩)
      ∧ ∃ more ≤ span, rest = candidates supply.reserved (number + 1) more := by
  obtain ⟨k, hk, hreserved, hnumber, hfree, hrest⟩ := exists_of_candidates_eq_cons h
  have hrow := nodup_row supply.next (Nat.le_trans (Nat.le_of_lt hk) hspan)
  have hle : k ≤ supply.reserved.length := by
    have hsub := (List.subperm_of_subset hrow fun other hother => by
      obtain ⟨j, hj, rfl⟩ := List.mem_map.1 hother
      exact hreserved j (List.mem_range.1 hj)).length_le
    rwa [List.length_map, List.length_range] at hsub
  have hfirst : firstFree supply.reserved supply.reserved.length supply.next = number := by
    rw [hnumber] at hfree ⊢
    exact firstFree_eq hreserved hfree hle
  refine ⟨?_, span - k - 1, by omega, hrest⟩
  rw [fresh, hfirst]

/-- As many names as there are candidates are drawn in their order. -/
theorem draws_eq {supply after : NameSupply} {names : List String} {span : Nat}
    (hspan : span ≤ UInt64.size) (h : Draws supply names after)
    (hlength : names.length ≤ (candidates supply.reserved supply.next span).length) :
    names = ((candidates supply.reserved supply.next span).take names.length).map
      (toString ·.toNat) := by
  induction names generalizing supply span with
  | nil => rfl
  | cons name names ih =>
      rcases hcandidates : candidates supply.reserved supply.next span with _ | ⟨number, rest⟩
      · rw [hcandidates] at hlength
        exact absurd hlength (by simp)
      · obtain ⟨hfresh, more, hmore, hrest⟩ := fresh_of_candidates hspan hcandidates
        rw [hcandidates, List.length_cons, List.length_cons] at hlength
        obtain ⟨hname, hnames⟩ := h
        rw [hfresh] at hname hnames
        have hlater := ih (Nat.le_trans hmore hspan) hnames (by rw [← hrest]; omega)
        rw [← hrest] at hlater
        rw [List.length_cons, List.take_succ_cons, List.map_cons, ← hname, ← hlater]

theorem mem_reserved_reserve (supply : NameSupply) (name : String) (number : UInt64) :
    number ∈ (supply.reserve name).reserved ↔ Text.readUInt64? name = some number
      ∨ number ∈ supply.reserved := by
  unfold reserve
  split
  next other hread => simp [hread, eq_comm]
  next hread => simp [hread]

theorem mem_reserved_foldl (results : List Value) (supply : NameSupply) (number : UInt64) :
    number ∈ (results.foldl (fun supply result => supply.reserve result.name) supply).reserved
      ↔ (∃ result ∈ results, Text.readUInt64? result.name = some number)
        ∨ number ∈ supply.reserved := by
  induction results generalizing supply with
  | nil => simp
  | cons result results ih =>
      rw [List.foldl_cons, ih, mem_reserved_reserve]
      simp only [List.mem_cons, exists_eq_or_imp]
      rw [← or_assoc, or_comm (a := ∃ _, _)]

/-- The numbers among some names. -/
def numbersIn (names : List String) : List UInt64 := names.filterMap Text.readUInt64?

/-- The supply for a tree avoids the numbers among the names of its results. -/
theorem mem_reserved_namesFor {root : Operation} {number : UInt64} :
    number ∈ (Greedy.namesFor root).reserved ↔ number ∈ numbersIn root.definedNames := by
  have hnames : root.definedNames = (root.heads.flatMap (·.results)).map Value.name := by
    rw [Operation.definedNames, List.map_flatMap]
    rfl
  have hempty : number ∉ ({} : NameSupply).reserved := List.not_mem_nil
  rw [Greedy.namesFor, mem_reserved_foldl, or_iff_left hempty, numbersIn, hnames,
    List.mem_filterMap]
  simp only [List.mem_map, exists_exists_and_eq_and]

theorem toString_toNat_inj {a b : UInt64} (h : toString a.toNat = toString b.toNat) : a = b := by
  have hread := Text.readUInt64?_toString a
  rw [h, Text.readUInt64?_toString b] at hread
  exact (Option.some.inj hread).symm

/-- **Fresh names are fresh.** The names drawn for a tree differ from each other and from all names
in the tree, as long as there are enough numbers of 64 bits for them and for those among the names
in the tree. -/
theorem nodup_drawn {root : Operation} {names : List String} {after : NameSupply}
    (hdraws : Draws (Greedy.namesFor root) names after)
    (hlength : (numbersIn root.definedNames).dedup.length + names.length ≤ 2 ^ 64) :
    names.Nodup ∧ ∀ name ∈ names, name ∉ root.definedNames := by
  have hreserved : (Greedy.namesFor root).reserved ⊆ (numbersIn root.definedNames).dedup :=
    fun number hnumber => List.mem_dedup.2 (mem_reserved_namesFor.1 hnumber)
  have hcandidates := length_candidates hreserved (Greedy.namesFor root).next
    (Nat.le_refl UInt64.size)
  have hsize : UInt64.size = 2 ^ 64 := rfl
  have hnames := draws_eq (Nat.le_refl _) hdraws (by omega)
  rw [hnames]
  refine ⟨((nodup_candidates _ _ (Nat.le_refl _)).sublist (List.take_sublist _ _)).map_on
    fun a _ b _ h => toString_toNat_inj h, fun name hname hmem => ?_⟩
  obtain ⟨number, hnumber, rfl⟩ := List.mem_map.1 hname
  have hfree : number ∉ (Greedy.namesFor root).reserved := by
    simpa using (List.mem_filter.1 (List.mem_of_mem_take hnumber)).2
  exact hfree (mem_reserved_namesFor.2 (List.mem_filterMap.2 ⟨_, hmem, Text.readUInt64?_toString number⟩))

theorem nodup_append_drawn {root : Operation} {names : List String} {after : NameSupply}
    (hdraws : Draws (Greedy.namesFor root) names after) (hnodup : root.definedNames.Nodup)
    (hlength : root.definedNames.length + names.length ≤ 2 ^ 64) :
    (root.definedNames ++ names).Nodup := by
  have hnumbers : (numbersIn root.definedNames).dedup.length ≤ root.definedNames.length :=
    Nat.le_trans (List.dedup_sublist _).length_le (List.length_filterMap_le _ _)
  obtain ⟨hnames, hnew⟩ := nodup_drawn hdraws (by omega)
  exact List.nodup_append.2 ⟨hnodup, hnames, fun name hname other hother heq =>
    hnew other hother (heq ▸ hname)⟩

end DialectIR.NameSupply
