import DialectIR.Context
import DialectIR.Proofs.Scoping
import Mathlib.Algebra.Group.Nat.Defs
import Mathlib.Data.List.Nodup

/-! Trees that the textual form can hold: types that have a keyword, integers that fit their types,
operands with the types of their definitions, operations that the context accepts. -/

namespace DialectIR

/-- The type is builtin with a keyword of its own, or it is foreign. -/
def Ty.Readable : Ty → Prop
  | .int bits => 1 ≤ bits.toNat ∧ bits.toNat ≤ 128
  | .index => True
  | .float bits => bits = 16 ∨ bits = 32 ∨ bits = 64
  | .none => True
  | .foreign _ => True

/-- An integer is in the range of its type. -/
def Attribute.Canonical : Attribute → Prop
  | .integer value ty => ty.truncate value = value
  | _ => True

theorem Ty.toInt_truncate {ty : Ty} {bits : UInt32} (hwidth : ty.width? = some bits)
    (hpos : 0 < bits) (hlt : bits < 64) (value : Int64) :
    (ty.truncate value).toInt = value.toInt.bmod (2 ^ bits.toNat) := by
  have hbits : bits.toNat < 64 := hlt
  have hle : 2 ^ bits.toNat ≤ 2 ^ 63 := Nat.pow_le_pow_right (by decide) (by omega)
  have hpow : 0 < 2 ^ bits.toNat := Nat.two_pow_pos _
  simp only [Ty.truncate, hwidth, hpos, hlt, decide_true, Bool.and_self, if_true, Nat.one_shiftLeft]
  have hlow := Int.le_bmod (x := value.toInt) hpow
  have hhigh := Int.bmod_lt (x := value.toInt) hpow
  exact Int64.toInt_ofInt_of_le (by omega) (by omega)

/-- A type that is no integer of 1 to 63 bits leaves values alone. -/
theorem Ty.truncate_eq_self {ty : Ty} (h : ∀ bits, ty.width? = some bits → ¬ (0 < bits ∧ bits < 64))
    (value : Int64) : ty.truncate value = value := by
  unfold Ty.truncate
  split
  next bits hwidth =>
    have hbits := h bits hwidth
    simp only [Bool.and_eq_true, decide_eq_true_eq, hbits, if_false]
  next => rfl

theorem Ty.truncate_truncate (ty : Ty) (value : Int64) :
    ty.truncate (ty.truncate value) = ty.truncate value := by
  by_cases h : ∃ bits, ty.width? = some bits ∧ 0 < bits ∧ bits < 64
  · obtain ⟨bits, hwidth, hpos, hlt⟩ := h
    apply Int64.toInt_inj.1
    rw [toInt_truncate hwidth hpos hlt, toInt_truncate hwidth hpos hlt, Int.bmod_bmod]
  · exact truncate_eq_self (fun bits hwidth hbits => h ⟨bits, hwidth, hbits⟩) _

theorem Attribute.canonical_wrapped (value : Int64) (ty : Ty) : (wrapped value ty).Canonical :=
  ty.truncate_truncate value

namespace Operation

/-- All operands in a tree. -/
def allOperands (op : Operation) : List Value := op.heads.flatMap (·.operands)

/-- All results in a tree. -/
def allResults (op : Operation) : List Value := op.heads.flatMap (·.results)

/-- Every operand has the type of the result that it names. -/
def WellTyped (op : Operation) : Prop :=
  ∀ operand ∈ op.allOperands, ∀ result ∈ op.allResults, result.name = operand.name →
    result.ty = operand.ty

instance (op : Operation) : Decidable op.WellTyped :=
  inferInstanceAs (Decidable (∀ operand ∈ op.allOperands, ∀ result ∈ op.allResults,
    result.name = operand.name → result.ty = operand.ty))

theorem definedNames_eq_map (op : Operation) : op.definedNames = op.allResults.map Value.name := by
  rw [allResults, List.map_flatMap]
  rfl

/-- Results with distinct names are known by their names. -/
theorem eq_of_name_eq {op : Operation} (hnodup : op.definedNames.Nodup) {a b : Value}
    (ha : a ∈ op.allResults) (hb : b ∈ op.allResults) (h : a.name = b.name) : a = b := by
  rw [definedNames_eq_map] at hnodup
  exact List.inj_on_of_nodup_map hnodup ha hb h

theorem wellTyped_of_subset {op : Operation} (hnodup : op.definedNames.Nodup)
    (hsub : op.allOperands ⊆ op.allResults) : op.WellTyped :=
  fun _ hoperand _ hresult hname => congrArg Value.ty
    (eq_of_name_eq hnodup hresult (hsub hoperand) hname)

end Operation

namespace Context

/-- The operation is defined by a dialect of the context, or need not be. -/
def Accepts (context : Context) (name : OpName) : Prop :=
  context.allowsUnregistered = true ∨ (context.definition? name).isSome = true

/-- Contexts that give the same answers about dialects; which of these are loaded may differ. -/
structure SameDialects (context other : Context) : Prop where
  dialect : ∀ name, other.dialect? name = context.dialect? name
  allows : other.allowsUnregistered = context.allowsUnregistered

theorem SameDialects.refl (context : Context) : context.SameDialects context := ⟨fun _ => rfl, rfl⟩

theorem SameDialects.trans {a b c : Context} (h : a.SameDialects b) (h' : b.SameDialects c) :
    a.SameDialects c :=
  ⟨fun name => (h'.dialect name).trans (h.dialect name), h'.allows.trans h.allows⟩

theorem SameDialects.symm {context other : Context} (h : context.SameDialects other) :
    other.SameDialects context :=
  ⟨fun name => (h.dialect name).symm, h.allows.symm⟩

theorem SameDialects.definition {context other : Context} (h : context.SameDialects other)
    (name : OpName) :
    other.definition? name = context.definition? name := by
  rw [definition?, definition?, h.dialect]

theorem SameDialects.isPure {context other : Context} (h : context.SameDialects other)
    (name : OpName) :
    other.isPure name = context.isPure name := by
  rw [Context.isPure, Context.isPure, h.definition]

theorem SameDialects.accepts_iff {context other : Context} (h : context.SameDialects other)
    (name : OpName) :
    other.Accepts name ↔ context.Accepts name := by
  rw [Accepts, Accepts, h.allows, h.definition]

/-- Loading a dialect changes no answer: it is looked up the same way before. -/
theorem sameDialects_load (context : Context) (name : String) :
    context.SameDialects (context.load name) := by
  unfold load
  split
  next dialect hloaded hregistered =>
    refine ⟨fun other => ?_, rfl⟩
    have hget : (context.loaded.insert name ⟨dialect, context.loaded.size⟩).get? other
        = if other = name then some ⟨dialect, context.loaded.size⟩ else context.loaded.get? other :=
      Dict.get?_insert ..
    by_cases heq : other = name
    · subst heq
      simp only [loaded?] at hloaded
      simp only [dialect?, loaded?, hget, if_true, hloaded, hregistered]
    · simp only [dialect?, loaded?, hget, if_neg heq]
  next => exact .refl context

end Context

end DialectIR
