import DialectIR.Proofs.FreshNames

/-! Supplies in use: names are reserved and drawn in any order. A name that was reserved is never
handed out later. A name that was handed out is not remembered, and comes again once the counter has
come round to it. Drawing names takes it there in `2 ^ 64` steps, but reserving a large number moves
it by any distance. -/

namespace DialectIR.NameSupply

/-- What a supply is asked for. -/
inductive Call where
  | reserve (name : String)
  | fresh
deriving DecidableEq

/-- The supply after a call. -/
def step (supply : NameSupply) : Call → NameSupply
  | .reserve name => supply.reserve name
  | .fresh => supply.fresh.2

/-- The supply after some calls. -/
def after (supply : NameSupply) (calls : List Call) : NameSupply := calls.foldl step supply

/-- How far the calls move the counter to make it start behind the names that they reserve. -/
def jumps (supply : NameSupply) : List Call → Nat
  | [] => 0
  | .reserve name :: calls =>
      ((supply.reserve name).next.toNat - supply.next.toNat) + jumps (supply.reserve name) calls
  | .fresh :: calls => jumps supply.fresh.2 calls

variable {supply : NameSupply} {calls : List Call} {first : UInt64} {budget : Nat}

theorem after_append (supply : NameSupply) (calls more : List Call) :
    supply.after (calls ++ more) = (supply.after calls).after more :=
  List.foldl_append

theorem reserved_fresh (supply : NameSupply) : supply.fresh.2.reserved = supply.reserved := rfl

theorem length_reserved_reserve_le (supply : NameSupply) (name : String) :
    (supply.reserve name).reserved.length ≤ supply.reserved.length + 1 := by
  unfold reserve
  split
  · exact Nat.le_refl _
  · exact Nat.le_succ _

theorem reserved_subset_step (supply : NameSupply) (call : Call) :
    supply.reserved ⊆ (supply.step call).reserved := by
  intro number hnumber
  cases call with
  | reserve name => exact (mem_reserved_reserve supply name number).mpr (.inr hnumber)
  | fresh => exact hnumber

theorem reserved_subset_after (supply : NameSupply) (calls : List Call) :
    supply.reserved ⊆ (supply.after calls).reserved := by
  induction calls generalizing supply with
  | nil => exact fun _ hnumber => hnumber
  | cons call calls ih =>
      exact fun _ hnumber => ih (supply.step call) (reserved_subset_step supply call hnumber)

theorem length_reserved_after_le (supply : NameSupply) (calls : List Call) :
    (supply.after calls).reserved.length ≤ supply.reserved.length + calls.length := by
  induction calls generalizing supply with
  | nil => exact Nat.le_refl _
  | cons call calls ih =>
      have hstep : (supply.step call).reserved.length ≤ supply.reserved.length + 1 := by
        cases call with
        | reserve name => exact length_reserved_reserve_le supply name
        | fresh => exact Nat.le_succ _
      rw [List.length_cons]
      exact Nat.le_trans (ih (supply.step call)) (by omega)

theorem mem_reserved_after {name : String} {number : UInt64} (hname : .reserve name ∈ calls)
    (hread : Text.readUInt64? name = some number) : number ∈ (supply.after calls).reserved := by
  obtain ⟨before, rest, rfl⟩ := List.append_of_mem hname
  rw [after_append]
  have hreserved := (mem_reserved_reserve (supply.after before) name number).mpr (.inl hread)
  exact reserved_subset_after ((supply.after before).reserve name) rest hreserved

/-! ### The way of the counter -/

theorem candidates_add (reserved : List UInt64) (next : UInt64) (span more : Nat) :
    candidates reserved next (span + more) =
      candidates reserved next span ++ candidates reserved (next + UInt64.ofNat span) more := by
  rw [candidates, candidates, candidates, List.range_add, List.map_append,
    List.filter_append, List.map_map]
  congr 2
  refine List.map_congr_left fun k _ => ?_
  rw [Function.comp_apply, UInt64.ofNat_add, UInt64.add_assoc]

theorem candidates_eq_nil {reserved : List UInt64} {next : UInt64} {span : Nat}
    (h : ∀ j < span, next + UInt64.ofNat j ∈ reserved) : candidates reserved next span = [] := by
  simpa [candidates, List.filter_eq_nil_iff] using h

theorem length_candidates_le (reserved : List UInt64) (next : UInt64) (span : Nat) :
    (candidates reserved next span).length ≤ span := by
  have hle := List.length_filter_le (fun number => decide (number ∉ reserved))
    ((List.range span).map fun k => next + UInt64.ofNat k)
  rwa [List.length_map, List.length_range] at hle

theorem length_candidates_anti {reserved more : List UInt64} (hsubset : reserved ⊆ more)
    (next : UInt64) (span : Nat) :
    (candidates more next span).length ≤ (candidates reserved next span).length := by
  refine (List.monotone_filter_right _ fun number hnumber => ?_).length_le
  simp only [decide_eq_true_eq] at hnumber ⊢
  exact fun hmem => hnumber (hsubset hmem)

/-- A drawn number is the first one from the counter on that is not reserved. -/
theorem exists_fresh_eq (hlength : supply.reserved.length < 2 ^ 64) :
    ∃ k, (∀ j < k, supply.next + UInt64.ofNat j ∈ supply.reserved) ∧
      supply.next + UInt64.ofNat k ∉ supply.reserved ∧
      supply.fresh = (toString (supply.next + UInt64.ofNat k).toNat,
        ⟨supply.next + UInt64.ofNat (k + 1), supply.reserved⟩) := by
  have hsize : UInt64.size = 2 ^ 64 := rfl
  have hcandidates := length_candidates (List.Subset.refl supply.reserved) supply.next
    (Nat.le_refl UInt64.size)
  obtain ⟨number, rest, hcons⟩ := List.exists_cons_of_length_pos
    (l := candidates supply.reserved supply.next UInt64.size) (by omega)
  obtain ⟨k, -, hreserved, rfl, hfree, -⟩ := exists_of_candidates_eq_cons hcons
  refine ⟨k, hreserved, hfree, ?_⟩
  rw [(fresh_of_candidates (Nat.le_refl _) hcons).1, UInt64.ofNat_add, UInt64.add_assoc]
  rfl

theorem next_reserve (supply : NameSupply) (name : String) :
    (supply.reserve name).next =
      supply.next + UInt64.ofNat ((supply.reserve name).next.toNat - supply.next.toNat) := by
  have hle : supply.next.toNat ≤ (supply.reserve name).next.toNat := by
    unfold reserve
    split
    next number _ =>
      change supply.next.toNat ≤ (ite (supply.next ≤ _) _ supply.next).toNat
      split
      next hle => exact UInt64.le_iff_toNat_le.mp hle
      next => exact Nat.le_refl _
    next => exact Nat.le_refl _
  have hlt := (supply.reserve name).next.toNat_lt
  have hsize : UInt64.size = 2 ^ 64 := rfl
  rw [← UInt64.toNat_inj, toNat_add_ofNat _ (by omega), Nat.add_sub_cancel' hle,
    Nat.mod_eq_of_lt hlt]

/-- The counter has come from `first` to where it is by passing reserved numbers and some others,
and all in all no more than `budget` numbers are reserved or were passed without being reserved. -/
def Reached (first : UInt64) (budget : Nat) (supply : NameSupply) : Prop :=
  ∃ way, supply.next = first + UInt64.ofNat way ∧
    supply.reserved.length + (candidates supply.reserved first way).length ≤ budget

theorem Reached.length_reserved_le (h : Reached first budget supply) :
    supply.reserved.length ≤ budget := by
  obtain ⟨way, -, hbudget⟩ := h
  exact Nat.le_trans (Nat.le_add_right _ _) hbudget

theorem Reached.of_eq {budget' : Nat} (h : Reached first budget supply) (heq : budget = budget') :
    Reached first budget' supply := heq ▸ h

theorem Reached.reserve (h : Reached first budget supply) (name : String) :
    Reached first (budget + 1 + ((supply.reserve name).next.toNat - supply.next.toNat))
      (supply.reserve name) := by
  obtain ⟨way, hnext, hbudget⟩ := h
  refine ⟨way + ((supply.reserve name).next.toNat - supply.next.toNat), ?_, ?_⟩
  · rw [UInt64.ofNat_add, ← UInt64.add_assoc, ← hnext, ← next_reserve]
  · have hreserved := length_reserved_reserve_le supply name
    have hpassed := length_candidates_anti (reserved_subset_step supply (.reserve name)) first way
    have hjump := length_candidates_le (supply.reserve name).reserved (first + UInt64.ofNat way)
      ((supply.reserve name).next.toNat - supply.next.toNat)
    rw [step] at hpassed
    rw [candidates_add, List.length_append]
    omega

theorem Reached.fresh (h : Reached first budget supply)
    (hlength : supply.reserved.length < 2 ^ 64) :
    Reached first (budget + 1) supply.fresh.2 := by
  obtain ⟨way, hnext, hbudget⟩ := h
  obtain ⟨k, hreserved, -, hfresh⟩ := exists_fresh_eq hlength
  refine ⟨way + (k + 1), ?_, ?_⟩
  · rw [hfresh, hnext, UInt64.ofNat_add way, ← UInt64.add_assoc]
  · have hlast := length_candidates_le supply.reserved (supply.next + UInt64.ofNat k) 1
    rw [reserved_fresh, candidates_add, ← hnext, candidates_add, candidates_eq_nil hreserved,
      List.nil_append, List.length_append]
    omega

theorem Reached.after (h : Reached first budget supply) (calls : List Call)
    (hlt : budget + calls.length + jumps supply calls < 2 ^ 64) :
    Reached first (budget + calls.length + jumps supply calls) (supply.after calls) := by
  induction calls generalizing supply budget with
  | nil => exact h
  | cons call calls ih =>
      have hle := h.length_reserved_le
      cases call with
      | reserve name =>
          rw [jumps, List.length_cons] at hlt
          exact (ih (h.reserve name) (by omega)).of_eq (by rw [jumps, List.length_cons]; omega)
      | fresh =>
          rw [jumps, List.length_cons] at hlt
          exact (ih (h.fresh (by omega)) (by omega)).of_eq (by rw [jumps, List.length_cons]; omega)

/-- A number that was drawn is not drawn again before the counter has passed all others. -/
theorem Reached.fresh_ne {last : UInt64} (h : Reached (last + 1) budget supply)
    (hlt : budget < 2 ^ 64 - 1) :
    supply.fresh.1 ≠ toString last.toNat := by
  have hle := h.length_reserved_le
  obtain ⟨way, hnext, hbudget⟩ := h
  obtain ⟨k, hreserved, -, hfresh⟩ :=
    exists_fresh_eq (Nat.lt_of_le_of_lt hle (by omega) : supply.reserved.length < 2 ^ 64)
  have hsize : UInt64.size = 2 ^ 64 := rfl
  have hspan : way + k < 2 ^ 64 - 1 := by
    by_contra hfar
    obtain ⟨more, hmore⟩ := Nat.exists_eq_add_of_le (Nat.le_of_not_lt hfar)
    -- among all numbers but `last`, the ones that are not reserved were passed before this call
    have hall := length_candidates (List.Subset.refl supply.reserved) (last + 1)
      (Nat.sub_le (2 ^ 64) 1)
    have hway : (candidates supply.reserved (last + 1) (way + k)).length
        = (candidates supply.reserved (last + 1) way).length := by
      rw [candidates_add, ← hnext, candidates_eq_nil hreserved, List.append_nil]
    rw [hmore, candidates_add, List.length_append] at hway
    omega
  rw [hfresh, hnext, UInt64.add_assoc, ← UInt64.ofNat_add, add_ofNat_succ]
  intro hsame
  have hlast : last + UInt64.ofNat (way + k + 1) = last + UInt64.ofNat 0 :=
    (toString_toNat_inj hsame).trans (UInt64.add_zero last).symm
  exact absurd (add_ofNat_inj (by omega) (by omega) hlast) (Nat.succ_ne_zero _)

theorem fresh_ne_of_mem_reserved {name : String} {number : UInt64}
    (hlength : supply.reserved.length < 2 ^ 64) (hread : Text.readUInt64? name = some number)
    (hreserved : number ∈ supply.reserved) : supply.fresh.1 ≠ name := by
  obtain ⟨k, -, hfree, hfresh⟩ := exists_fresh_eq hlength
  rw [hfresh]
  rintro rfl
  rw [Text.readUInt64?_toString] at hread
  exact hfree (Option.some.inj hread ▸ hreserved)

/-- A name that is handed out is the numeral of a number. -/
theorem exists_fresh_fst_eq (supply : NameSupply) :
    ∃ number : UInt64, supply.fresh.1 = toString number.toNat ∧ supply.fresh.2.next = number + 1 :=
  ⟨_, rfl, rfl⟩

/-- Names that are handed out later are others. Less than `2 ^ 64` calls, in any order, are made on
a new supply, and one of them asks for a name. It differs from all names reserved before. And it
differs from a name handed out before, as long as the counter did not come round: the calls between
the two moved it by no more than what is left of the `2 ^ 64` numbers when each call may use up
one. -/
theorem fresh_spec {calls before later : List Call} (hcalls : calls = before ++ .fresh :: later)
    (hlength : calls.length < 2 ^ 64) :
    (∀ name, .reserve name ∈ before → (after {} before).fresh.1 ≠ name) ∧
    ∀ earlier between, before = earlier ++ .fresh :: between →
      jumps (after {} (earlier ++ [.fresh])) between + calls.length ≤ 2 ^ 64 →
      (after {} before).fresh.1 ≠ (after {} earlier).fresh.1 := by
  have hreserved := length_reserved_after_le {} before
  rw [hcalls, List.length_append, List.length_cons] at hlength
  have hempty : ({} : NameSupply).reserved.length = 0 := rfl
  constructor
  · intro name hname
    cases hread : Text.readUInt64? name with
    | some number =>
        exact fresh_ne_of_mem_reserved (by omega) hread (mem_reserved_after hname hread)
    | none =>
        obtain ⟨number, hfresh, -⟩ := exists_fresh_fst_eq (after {} before)
        rw [hfresh]
        rintro rfl
        rw [Text.readUInt64?_toString] at hread
        exact absurd hread (Option.some_ne_none number)
  · intro earlier between hbefore hjumps
    obtain ⟨last, hname, hnext⟩ := exists_fresh_fst_eq (after {} earlier)
    have hdrawn : after {} (earlier ++ [.fresh]) = (after {} earlier).fresh.2 :=
      after_append {} earlier [.fresh]
    have hstart : Reached (last + 1) earlier.length (after {} (earlier ++ [.fresh])) := by
      refine ⟨0, ?_, ?_⟩
      · rw [hdrawn, hnext]
        exact (UInt64.add_zero _).symm
      · have hearlier := length_reserved_after_le {} earlier
        rw [hdrawn, reserved_fresh]
        simpa [candidates, hempty] using hearlier
    rw [hcalls, hbefore, List.length_append, List.length_append, List.length_cons,
      List.length_cons] at hjumps
    have hend := (hstart.after between (by omega)).fresh_ne (by omega)
    rwa [hbefore, List.append_cons, after_append, hname]

/-- A name, a reservation of `5` and another name: the second name differs from the `5` and from the
first name. -/
theorem fresh_spec_behind_five :
    (after {} [.fresh, .reserve "5"]).fresh.1 ≠ "5"
      ∧ (after {} [.fresh, .reserve "5"]).fresh.1 ≠ (after {} []).fresh.1 := by
  have h := @fresh_spec [.fresh, .reserve "5", .fresh] [.fresh, .reserve "5"] [] rfl (by decide)
  exact ⟨h.1 "5" (by decide), h.2 [] [.reserve "5"] rfl (by decide)⟩

/-- A name that was handed out may come again after two other calls: reserving the largest number
takes the counter to the end, where it starts over. -/
theorem exists_fresh_again :
    ¬ ∀ calls : List Call, calls.length < 2 ^ 64 →
      ∀ earlier between later, calls = earlier ++ .fresh :: between ++ .fresh :: later →
        (after {} (earlier ++ .fresh :: between)).fresh.1 ≠ (after {} earlier).fresh.1 := fun h =>
  h [.fresh, .reserve "18446744073709551615", .fresh] (by decide) []
    [.reserve "18446744073709551615"] [] rfl (by decide)

end DialectIR.NameSupply
