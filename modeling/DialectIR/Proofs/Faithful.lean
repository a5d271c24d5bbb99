import DialectIR.Proofs.Effects
import DialectIR.Proofs.Simplification

/-! Simplifying keeps effects. One meaning of all names, those that will be drawn included, is right
about every tree on the way: operations that are replaced leave values with the same meaning. -/

namespace DialectIR

namespace Arith

open Greedy Operation

variable {σ : Type} {meaning : Meaning} {quiet : OpName → Bool} {given : String → Int}
  {s s' : State σ} {op : Operation} {ops out : List Operation}

/-- The state of a run is right about the definitions and the replacements that it knows; nothing is
erased. -/
structure Faithful (meaning : Meaning) (given : String → Int) (s : State σ) : Prop where
  definitions : ∀ name op, s.definitions.get? name = some op → meaning.Holds given op.toHead
    ∧ name ∈ op.resultNames
  replaced : ∀ name value, s.replaced.get? name = some value →
    meaning.StandsFor ⟨name, meaning.ty name⟩ value
  erased : s.erased = []

/-- What stands in the place of the operations has their effects. -/
structure Kept (meaning : Meaning) (quiet : OpName → Bool) (given : String → Int)
    (ops out : List Operation)
    (s' : State σ) : Prop where
  good : meaning.GoodAll quiet given out
  effects : effectsOfAll quiet meaning.value out = effectsOfAll quiet meaning.value ops
  faithful : Faithful meaning given s'

theorem Meaning.StandsFor.refl {value : Value} (h : value.ty = meaning.ty value.name) :
    meaning.StandsFor value value :=
  ⟨rfl, rfl, h⟩

theorem Meaning.StandsFor.trans {a b c : Value} (h : meaning.StandsFor a b)
    (h' : meaning.StandsFor b c) :
    meaning.StandsFor a c := ⟨h'.value.trans h.value, h'.ty.trans h.ty, h'.known⟩

theorem Faithful.follow? (h : Faithful meaning given s) {steps : Nat} {value last : Value}
    (hvalue : value.ty = meaning.ty value.name)
    (hlast : s.replaced.follow? steps value = some last) :
    meaning.StandsFor value last := by
  induction steps generalizing value with
  | zero =>
      unfold Replacements.follow? at hlast
      split at hlast
      · cases hlast
        exact .refl hvalue
      · cases hlast
      · cases ‹0 = _ + 1›
  | succ steps ih =>
      unfold Replacements.follow? at hlast
      cases hget : s.replaced.get? value.name with
      | none =>
          rw [hget] at hlast
          cases hlast
          exact .refl hvalue
      | some next =>
          rw [hget] at hlast
          have hnext := h.replaced value.name next hget
          rw [← hvalue] at hnext
          exact hnext.trans (ih hnext.known hlast)

theorem Faithful.applyTo (h : Faithful meaning given s) (hop : meaning.Good quiet given op) :
    meaning.Good quiet given (s.replaced.applyTo op)
      ∧ (s.replaced.applyTo op).effects quiet meaning.value = op.effects quiet meaning.value := by
  refine Meaning.Good.mapOperands (fun operand hoperand => ?_) hop
  cases hresolve : s.replaced.resolve? operand with
  | none => exact .refl hoperand
  | some last => exact h.follow? hoperand hresolve

theorem Faithful.agrees (h : Faithful meaning given s) : Agrees s.definitions meaning.value := by
  intro value constant hknown
  obtain ⟨op, hop, hconstant⟩ := Option.bind_eq_some_iff.1 hknown
  obtain ⟨hholds, hname⟩ := h.definitions value.name op hop
  unfold Operation.constant? at hconstant
  split at hconstant
  next hopName =>
    obtain ⟨-, result, constant', hresults, hword, hattribute, hcanonical⟩ :=
      hholds.wellFormed.constant hopName
    rw [hattribute] at hconstant
    cases hconstant
    have hresult : result ∈ op.results := hresults ▸ List.mem_cons_self
    have hsame : value.name = result.name := by
      rw [Head.resultNames, hresults] at hname
      exact List.mem_singleton.1 hname
    have hvalue : value? meaning.value op.toHead = some constant.toInt := by
      unfold value?
      rw [if_pos hopName, hattribute]
      rfl
    rw [hsame, hholds.satisfies result hresult, hvalue]
    exact Ty.wrap_of_canonical hword hcanonical
  next => cases hconstant

theorem Faithful.register (h : Faithful meaning given s) (hop : meaning.Holds given op.toHead) :
    Faithful meaning given (s.register op) := by
  refine ⟨fun name found hfound => ?_, h.replaced, h.erased⟩
  rcases get?_foldl_insert hfound with ⟨rfl, hname⟩ | hfound
  · exact ⟨hop, hname⟩
  · exact h.definitions name found hfound

/-- Replacing one result by a value that stands for it. -/
theorem Faithful.replace (h : Faithful meaning given s) {result value : Value}
    (hresult : result.ty = meaning.ty result.name) (hvalue : meaning.StandsFor result value) :
    Faithful meaning given (s.replace [result] [value]) := by
  refine ⟨fun name found hfound => h.definitions name found (get?_foldl_erase hfound),
    fun name found hfound => ?_, h.erased⟩
  unfold State.replace at hfound
  by_cases hname : result.name = value.name
  · simp [hname] at hfound
    exact h.replaced name found hfound
  · simp [hname, Dict.get?_insert] at hfound
    split at hfound
    next heq =>
      cases hfound
      rw [heq, ← hresult]
      exact hvalue
    next => exact h.replaced name found hfound

/-- The meaning is right about what the matches insert. -/
def Explained (patterns : FrozenPatterns σ) (config : Config) (meaning : Meaning)
    (given : String → Int) (encounters : List (Encounter σ)) : Prop :=
  ∀ e ∈ encounters, ∀ m, e.match? patterns config = some m → ∀ op ∈ m.recording.inserted,
    Satisfies given meaning.value op.toHead ∧ ∀ result ∈ op.results,
    result.ty = meaning.ty result.name

theorem isArith_of_isBinary {name : OpName} (h : IsBinary name) : isArith name = true := by
  unfold isArith
  rcases h with h | h | h
  · simp [h]
  · simp [h]
  · simp [h]

theorem holds_constant {result : Value} {constant : Int64} (hword : result.ty.IsWord)
    (hty : result.ty = meaning.ty result.name)
    (hsatisfies : Satisfies given meaning.value (Operation.constant result constant).toHead) :
    meaning.Holds given (Operation.constant result constant).toHead := by
  have hresult : ∀ other ∈ (Operation.constant result constant).results, other = result :=
    fun _ => List.mem_singleton.1
  have hname : ¬ IsBinary (Operation.constant result constant).name := by
    show ¬ IsBinary "arith.constant"
    decide
  refine ⟨nofun, fun other hother => hresult other hother ▸ hty,
    ⟨fun _ => ?_, fun hbinary => absurd hbinary hname⟩, hsatisfies⟩
  exact ⟨rfl, result, result.ty.truncate constant, rfl, hword, rfl, Ty.truncate_truncate _ _⟩

/-- An operand with the value of the result stands for the result. -/
theorem Meaning.Holds.standsFor_operand {head : Head} (h : meaning.Holds given head)
    (hbinary : IsBinary head.name) {result value : Value} (hresults : head.results = [result])
    (hmem : value ∈ head.operands)
    (hvalue : value? meaning.value head = some (meaning.value value.name)) :
    meaning.StandsFor result value := by
  obtain ⟨lhs, rhs, result', hoperands, hresults', -, hlhs, hrhs⟩ := h.wellFormed.binary hbinary
  rw [hresults] at hresults'
  cases hresults'
  have hty : value.ty = result.ty := by
    rw [hoperands, List.mem_cons, List.mem_singleton] at hmem
    rcases hmem with rfl | rfl
    · exact hlhs
    · exact hrhs
  have hknown := h.operands value hmem
  have hcomputed := h.satisfies result (hresults ▸ List.mem_cons_self)
  refine ⟨?_, hty, hknown⟩
  calc meaning.value value.name
      = (meaning.ty value.name).wrap (meaning.value value.name) := (meaning.ranged value.name).symm
    _ = result.ty.wrap (meaning.value value.name) := by rw [← hknown, hty]
    _ = result.ty.wrap ((value? meaning.value head).getD (given result.name)) := by
      rw [hvalue, Option.getD_some]
    _ = meaning.value result.name := hcomputed.symm

/-- A constant with the last 64 bits of what the operation computes stands for the result. -/
theorem Meaning.Holds.standsFor_constant {head : Head} (h : meaning.Holds given head)
    (hbinary : IsBinary head.name) {result : Value} (hresults : head.results = [result]) {x : Int}
    {constant : Int64} (hvalue : value? meaning.value head = some x)
    (hlast : x.bmod (2 ^ 64) = constant.toInt) {name : String}
    (hname : meaning.value name = result.ty.wrap (result.ty.truncate constant).toInt)
    (hty : result.ty = meaning.ty name) :
    meaning.StandsFor result ⟨name, result.ty⟩ := by
  obtain ⟨-, -, result', -, hresults', hword, -, -⟩ := h.wellFormed.binary hbinary
  rw [hresults] at hresults'
  cases hresults'
  have hcomputed := h.satisfies result (hresults ▸ List.mem_cons_self)
  refine ⟨?_, rfl, hty⟩
  calc meaning.value name
      = result.ty.wrap (result.ty.truncate constant).toInt := hname
    _ = result.ty.wrap constant.toInt := Ty.wrap_truncate hword constant
    _ = result.ty.wrap (x.bmod (2 ^ 64)) := by rw [hlast]
    _ = result.ty.wrap x := Ty.wrap_bmod hword x
    _ = result.ty.wrap ((value? meaning.value head).getD (given result.name)) := by
      rw [hvalue, Option.getD_some]
    _ = meaning.value result.name := hcomputed.symm

/-- An operation that is simplified leaves a value that stands for its result. -/
theorem Simplifies.kept {definitions : Dict Operation} {names : List String} {recording : Recording}
    (hsimplifies : Simplifies definitions op names recording)
    (hquiet : ∀ name, isArith name = true → quiet name = true)
    (hagrees : Agrees definitions meaning.value) (hgood : meaning.Good quiet given op)
    (h : Faithful meaning given s) (hinserted : ∀ new ∈ recording.inserted,
      Satisfies given meaning.value new.toHead ∧ ∀ result ∈ new.results,
        result.ty = meaning.ty result.name) :
    stays? op recording = none
      ∧ Kept meaning quiet given [op] recording.inserted
        ((recording.inserted.foldl State.register s).act op.results recording.action) := by
  have hholds := hgood.holds
  cases hsimplifies with
  | keep value hmem hbinary _ hvalue =>
      obtain ⟨-, -, result, -, hresults, -⟩ := hholds.wellFormed.binary hbinary
      have hstands := hholds.standsFor_operand hbinary hresults hmem (hvalue meaning.value hagrees)
      have hnone := hgood.effects_eq_nil (hquiet op.name (isArith_of_isBinary hbinary))
        meaning.value
      refine ⟨rfl, trivial, ?_, ?_⟩
      · rw [effectsOfAll_singleton, hnone]
        rfl
      · rw [hresults]
        exact h.replace (hholds.results result (hresults ▸ List.mem_cons_self)) hstands
  | fold name result constant hbinary hresults hvalue =>
      obtain ⟨-, -, result', -, hresults', hword, -⟩ := hholds.wellFormed.binary hbinary
      rw [hresults] at hresults'
      cases hresults'
      obtain ⟨hsatisfies, hty⟩ := hinserted _ List.mem_cons_self
      have hknown : result.ty = meaning.ty name := hty ⟨name, result.ty⟩ List.mem_cons_self
      have hconstant : meaning.Good quiet given (Operation.constant ⟨name, result.ty⟩ constant) :=
        holds_constant hword hknown hsatisfies
      obtain ⟨x, hx, hlast⟩ := hvalue meaning.value hagrees
      have hstands := hholds.standsFor_constant hbinary hresults hx hlast
        (hsatisfies ⟨name, result.ty⟩ List.mem_cons_self) hknown
      have hnone := hgood.effects_eq_nil (hquiet op.name (isArith_of_isBinary hbinary))
        meaning.value
      refine ⟨rfl, ⟨hconstant, trivial⟩, ?_, ?_⟩
      · rw [effectsOfAll_singleton, effectsOfAll_singleton, hnone]
        exact hconstant.effects_eq_nil (hquiet _ rfl) meaning.value
      · rw [hresults]
        exact (h.register hconstant.holds).replace
          (hholds.results result (hresults ▸ List.mem_cons_self)) hstands

end Arith

end DialectIR
