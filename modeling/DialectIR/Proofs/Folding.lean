import DialectIR.Proofs.Simplification

/-! Folding operations on two constants. The constant that takes the place of such an operation has
the last 64 bits of what the operation computes at the width of its type: the very number for types
of up to 64 bits, and for wider ones if it is in the range of 64 bits. -/

namespace DialectIR

namespace Ty

variable {ty : Ty} {bits : UInt32}

/-- A type of up to 64 bits has numbers in the range of 64 bits only. -/
theorem wrap_mem_range (hwidth : ty.width? = some bits) (hle : bits.toNat ≤ 64) (value : Int) :
    -2 ^ 63 ≤ ty.wrap value ∧ ty.wrap value < 2 ^ 63 := by
  have hpow : 2 ^ bits.toNat ≤ 2 ^ 64 := Nat.pow_le_pow_right (by decide) hle
  have hzero : 0 < 2 ^ bits.toNat := Nat.two_pow_pos _
  have hlow := Int.le_bmod (x := value) hzero
  have hhigh := Int.bmod_lt (x := value) hzero
  unfold wrap
  rw [hwidth]
  dsimp only
  omega

/-- Cutting off arithmetic of 64 bits leaves the last 64 bits of the number at the width of the
type. -/
theorem toInt_truncate_eq_wrap (hwidth : ty.width? = some bits) (hpos : 1 ≤ bits.toNat)
    {value : Int} {low : Int64} (hlow : value.bmod (2 ^ 64) = low.toInt) :
    (ty.truncate low).toInt = (ty.wrap value).bmod (2 ^ 64) := by
  by_cases hlt : bits.toNat < 64
  · have hrange := wrap_mem_range hwidth (Nat.le_of_lt hlt) value
    have hdvd : 2 ^ bits.toNat ∣ 2 ^ 64 := Nat.pow_dvd_pow 2 (Nat.le_of_lt hlt)
    rw [Int.bmod_eq_of_le (by omega) (by omega), toInt_truncate hwidth hpos hlt, ← hlow,
      Int.bmod_bmod_of_dvd hdvd, wrap, hwidth]
  · have hdvd : 2 ^ 64 ∣ 2 ^ bits.toNat := Nat.pow_dvd_pow 2 (Nat.le_of_not_lt hlt)
    rw [truncate_eq_self, wrap, hwidth]
    · dsimp only
      rw [Int.bmod_bmod_of_dvd hdvd, hlow]
    · rintro other hother ⟨-, hother'⟩
      rw [hwidth] at hother
      cases hother
      exact hlt hother'

/-- The last 64 bits are all of the number if the type has no more, or if the number is small. -/
theorem bmod_wrap_eq_iff (hwidth : ty.width? = some bits) (value : Int) :
    (ty.wrap value).bmod (2 ^ 64) = ty.wrap value
      ↔ bits.toNat ≤ 64 ∨ -2 ^ 63 ≤ ty.wrap value ∧ ty.wrap value < 2 ^ 63 := by
  constructor
  · intro hsame
    have hlow := Int.le_bmod (x := ty.wrap value) (m := 2 ^ 64) (by decide)
    have hhigh := Int.bmod_lt (x := ty.wrap value) (m := 2 ^ 64) (by decide)
    rw [hsame] at hlow hhigh
    exact .inr ⟨by omega, by omega⟩
  · intro h
    have hrange : -2 ^ 63 ≤ ty.wrap value ∧ ty.wrap value < 2 ^ 63 :=
      h.elim (wrap_mem_range hwidth · value) id
    exact Int.bmod_eq_of_le (by omega) (by omega)

end Ty

namespace Arith

variable {σ : Type} {site : Site} {draft : Draft σ} {op : Operation}

/-- What is computed on integers is computed on their last 64 bits. -/
theorem exists_fold?_of_combine? {name : OpName} {x y : Int64} {value : Int}
    (h : combine? name x.toInt y.toInt = some value) :
    ∃ low, fold? name x y = some low ∧ value.bmod (2 ^ 64) = low.toInt := by
  cases hfold : fold? name x y with
  | some low =>
      obtain ⟨-, other, hcombine, hlow⟩ := combine?_of_fold? hfold
      rw [h] at hcombine
      cases hcombine
      exact ⟨low, rfl, hlow⟩
  | none =>
      unfold fold? at hfold
      unfold combine? at h
      split at hfold
      next => cases hfold
      next hadd =>
        split at hfold
        next => cases hfold
        next hsub =>
          split at hfold
          next => cases hfold
          next hmul =>
            rw [if_neg hadd, if_neg hsub, if_neg hmul] at h
            cases h

/-- A constant takes the place of an operation with one result. -/
theorem does_replaceByConstant_iff (hsite : site.op = op) (hrecording : draft.recording = {})
    {result : Value} (hresults : op.results = [result]) {low : Int64}
    {post : Except Error Unit → List String → Draft σ → Prop} :
    Attempt.Does site (replaceByConstant op low) draft post
      ↔ post (.ok ()) [draft.names.fresh.1] { draft with
      names := draft.names.fresh.2
      recording := ⟨[.constant ⟨draft.names.fresh.1, result.ty⟩ low],
        some (.replace [⟨draft.names.fresh.1, result.ty⟩])⟩ } := by
  unfold replaceByConstant Attempt.replaceWithNew
  rw [hresults]
  simp only [Attempt.does_bind, Attempt.does_freshValue, Attempt.does_insert, Attempt.does_act,
    named_fresh, Recording.act, Action.mismatch?, hsite, hresults, hrecording]
  rfl

/-- **What folding computes.** An operation on two constants, with one result of an integer type, is
replaced by a constant of that type under a fresh name. Its value is that of the operation in two's
complement at the width of the type, if this is in the range of 64 bits, as it is for all types of
up to 64 bits; otherwise it has the same last 64 bits. -/
theorem foldBinary_spec (hsite : site.op = op) (hrecording : draft.recording = {})
    {lhs rhs result : Value} {bits : UInt32} {x y : Int64} {value : Int}
    (hoperands : op.operands = [lhs, rhs]) (hresults : op.results = [result])
    (hwidth : result.ty.width? = some bits) (hpos : 1 ≤ bits.toNat)
    (hlhs : known? site.definitions lhs = some x) (hrhs : known? site.definitions rhs = some y)
    (hvalue : combine? op.name x.toInt y.toInt = some value) :
    ∃ constant : Int64, constant.toInt = (result.ty.wrap value).bmod (2 ^ 64)
      ∧ (constant.toInt = result.ty.wrap value
          ↔ bits.toNat ≤ 64 ∨ -2 ^ 63 ≤ result.ty.wrap value ∧ result.ty.wrap value < 2 ^ 63)
      ∧ Attempt.Does site (foldBinary.rewrite op) draft fun answer names after => answer = .ok true
          ∧ names = [draft.names.fresh.1] ∧ after.recording.action
            = some (.replace [⟨draft.names.fresh.1, result.ty⟩])
          ∧ after.recording.inserted = [{
              name := "arith.constant"
              results := [⟨draft.names.fresh.1, result.ty⟩]
              attributes := Dict.empty.insert "value" (.integer constant result.ty) }] := by
  obtain ⟨low, hfold, hlow⟩ := exists_fold?_of_combine? hvalue
  have htruncate := Ty.toInt_truncate_eq_wrap hwidth hpos hlow
  refine ⟨result.ty.truncate low, htruncate, ?_, ?_⟩
  · rw [htruncate]
    exact Ty.bmod_wrap_eq_iff hwidth value
  · show Attempt.Does site (onTwoOperands _ op) draft _
    unfold onTwoOperands
    rw [hoperands]
    simp only [Attempt.does_bind, does_constantValue? hrecording, hlhs, hrhs, hfold,
      does_replaceByConstant_iff hsite hrecording hresults]
    exact ⟨rfl, rfl, rfl, rfl⟩

/-- A hundred and a hundred are more than eight bits hold. -/
theorem foldBinary_spec_twoHundred :
    let a : Value := ⟨"a", .int 8⟩
    let op : Operation := { name := "arith.addi", operands := [a, a], results := [⟨"b", .int 8⟩] }
    let site : Site := ⟨{}, op, Dict.empty.insert "a" (.constant a 100)⟩
    ∃ constant : Int64, constant.toInt = -56
      ∧ Attempt.Does site (foldBinary.rewrite op) { names := {}, memory := () }
        fun answer _ after => answer = .ok true
        ∧ after.recording.action = some (.replace [⟨"0", .int 8⟩]) := by
  intro a op site
  obtain ⟨constant, hconstant, -, hdoes⟩ :=
    @foldBinary_spec Unit site { names := {}, memory := () } op rfl rfl a a ⟨"b", .int 8⟩ 8
    100 100 200 rfl rfl rfl (by decide) (by decide) (by decide) rfl
  exact ⟨constant, hconstant, hdoes.1, hdoes.2.2.1⟩

/-- The sum of one and the largest number of 64 bits, in a type that has a number for it. -/
def largeSum : Operation :=
  let a : Value := ⟨"a", .int 128⟩
  let b : Value := ⟨"b", .int 128⟩
  let c : Value := ⟨"c", .int 128⟩
  .module
    [.constant a 9223372036854775807, .constant b 1,
      { name := "arith.addi", operands := [a, b], results := [c] }, .ret [c]]

/-- The values of the constants in a tree. -/
def constantsIn (op : Operation) : List Int64 :=
  op.heads.filterMap fun head => (⟨head, none⟩ : Operation).constant?

/-- The sum turns negative. -/
theorem exists_folded_ne_wrap : ∃ sum : Int64,
    constantsIn (applyGreedily (PatternSet.mk [foldBinary]).freeze {} largeSum
      (.ofRegistry .standard) ()).op = [sum]
      ∧ (Ty.int 128).wrap (9223372036854775807 + 1) = 9223372036854775808
      ∧ sum.toInt ≠ 9223372036854775808 := by
  refine ⟨-9223372036854775808, ?_, ?_, ?_⟩
  · decide +kernel
  · decide +kernel
  · decide

end Arith

end DialectIR
