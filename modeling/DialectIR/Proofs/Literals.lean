import DialectIR.Proofs.Legible

/-! Attributes that are texts of their own, and literals: a sign, a number and a type, with any
layout between them. -/

namespace DialectIR

open Token Parse

namespace Attribute

/-- The attribute that a text is read as, if it is an attribute and nothing else. -/
def read? (source : String) : Option Attribute :=
  match Token.scan source with
  | .ok (here :: later) =>
      match runFrom attributeValue { here, later, context := {} } with
      | (.ok constant, behind) => if behind.here.kind = .eof then some constant else none
      | (.error _, _) => none
  | _ => none

variable {source : String} {constant : Attribute}

theorem read?_eq_some_iff :
    read? source = some constant ↔ ∃ here later behind, Token.scan source = .ok (here :: later)
    ∧ Returns attributeValue { here, later, context := {} } constant behind
    ∧ behind.here.kind = .eof := by
  unfold read?
  constructor
  · intro h
    split at h
    next here later hscan =>
      split at h
      next found behind hrun =>
        split at h
        next heof =>
          cases h
          exact ⟨here, later, behind, hscan, hrun, heof⟩
        next => cases h
      next => cases h
    next => cases h
  · rintro ⟨here, later, behind, hscan, hreturns, heof⟩
    unfold Returns at hreturns
    simp only [hscan, hreturns, heof, if_true]

/-- Attributes that can be written are read back. -/
theorem read?_text (h : constant.Writable) : read? constant.text = some constant := by
  have hseparated : Layout.Separated (Layout.attributeItems constant) := by
    simpa using Layout.separated_attribute h Layout.cut_nil
  have hscan := Layout.scanFrom_chars .start hseparated
  rw [Layout.chars_attributeItems] at hscan
  have hread := @reads_attribute { here := default, later := [], context := {} }
    [⟨.eof, "", Location.start.after constant.text.toList⟩] constant h .start (List.cons_ne_nil _ _)
  rcases htokens : Layout.tokensFrom .start (Layout.attributeItems constant) with _ | ⟨here, later⟩
  · -- at the end of the text there is no attribute
    rw [htokens, List.nil_append] at hread
    unfold attributeValue at hread
    rw [Returns.get_bind_iff] at hread
    exact absurd hread returns_fault
  · rw [htokens] at hread hscan
    exact read?_eq_some_iff.2 ⟨here, _, _, hscan, hread, rfl⟩

end Attribute

/-- The text is a literal of a class: a minus sign or none, a number as it is spelled, and behind a
colon a type; without one, the type is `default`. -/
def Literal (kind : Kind) (default : Ty) (negative : Bool) (spelling : List Char) (ty : Ty)
    (source : String) : Prop :=
  ∃ sign number next later behind, Token.scan source = .ok (sign ++ number :: next :: later)
    ∧ sign.map Token.kind = (if negative then [.minus] else []) ∧ number.kind = kind
    ∧ number.lexeme = String.ofList spelling
    ∧ Returns (literalType default) { here := next, later, context := {} } ty behind
    ∧ behind.here.kind = .eof

namespace Parse

variable {before after : State} {negative : Bool} {constant : Attribute}

theorem returns_integerAttribute_iff : Returns (integerAttribute negative) before constant after
    ↔ before.here.kind = .integer ∧ ∃ value ty,
      Text.readInt64? (if negative = true then "-" ++ before.here.lexeme else before.here.lexeme)
        = some value
        ∧ Returns (literalType (.int 64)) before.advance ty after
        ∧ ty.width?.all (fitsWidth value) = true
        ∧ constant = .wrapped value ty := by
  unfold integerAttribute
  rw [Returns.bind_iff]
  constructor
  · rintro ⟨token, s, hexpect, h⟩
    obtain ⟨hkind, rfl, rfl⟩ := returns_expect.1 hexpect
    refine ⟨hkind, ?_⟩
    split at h
    next => exact absurd h returns_fault
    next value hvalue =>
      obtain ⟨ty, s, hty, h⟩ := Returns.bind_iff.1 h
      split at h
      next hfits =>
        obtain ⟨rfl, rfl⟩ := Returns.pure_iff.1 h
        exact ⟨value, ty, hvalue, hty, hfits, rfl⟩
      next => exact absurd h returns_fault
  · rintro ⟨hkind, value, ty, hvalue, hty, hfits, rfl⟩
    refine ⟨before.here, before.advance, returns_expect.2 ⟨hkind, rfl, rfl⟩, ?_⟩
    simp only [hvalue]
    refine Returns.bind_iff.2 ⟨ty, after, hty, ?_⟩
    rw [if_pos hfits]
    exact Returns.pure_iff.2 ⟨rfl, rfl⟩

theorem returns_floatAttribute_iff : Returns (floatAttribute negative) before constant after
    ↔ before.here.kind = .float ∧ ∃ value ty, Binary64.read? before.here.lexeme = some value
        ∧ Returns (literalType (.float 64)) before.advance ty after
        ∧ constant = .float (if negative = true then value.neg else value) ty := by
  unfold floatAttribute
  rw [Returns.bind_iff]
  constructor
  · rintro ⟨token, s, hexpect, h⟩
    obtain ⟨hkind, rfl, rfl⟩ := returns_expect.1 hexpect
    refine ⟨hkind, ?_⟩
    split at h
    next => exact absurd h returns_fault
    next value hvalue =>
      obtain ⟨ty, s, hty, h⟩ := Returns.bind_iff.1 h
      obtain ⟨rfl, rfl⟩ := Returns.pure_iff.1 h
      exact ⟨value, ty, hvalue, hty, rfl⟩
  · rintro ⟨hkind, value, ty, hvalue, hty, rfl⟩
    refine ⟨before.here, before.advance, returns_expect.2 ⟨hkind, rfl, rfl⟩, ?_⟩
    simp only [hvalue]
    exact Returns.bind_iff.2 ⟨ty, after, hty, Returns.pure_iff.2 ⟨rfl, rfl⟩⟩

/-- The reader of an attribute goes on with the number behind its sign. -/
theorem returns_attributeValue_iff {sign : List Token} {number next here : Token}
    {later rest : List Token} (hsign : sign.map Token.kind = if negative then [.minus] else [])
    (hnumber : number.kind = .integer ∨ number.kind = .float)
    (htokens : sign ++ number :: next :: later = here :: rest) :
    Returns attributeValue { here, later := rest, context := {} } constant after
      ↔ Returns (if number.kind = .float then floatAttribute negative
        else integerAttribute negative)
        { here := number, later := next :: later, context := {} } constant after := by
  cases negative with
  | true =>
      obtain ⟨minus, rfl, hminus⟩ := List.map_eq_singleton_iff.1 hsign
      rw [List.singleton_append] at htokens
      obtain ⟨rfl, rfl⟩ := List.cons.inj htokens
      have hadvance : State.advance { here := minus, later := number :: next :: later,
                                      context := {} }
          = { here := number, later := next :: later, context := {} } :=
        State.advance_eq _ number _ rfl (by simp [hminus])
      unfold attributeValue
      rw [Returns.get_bind_iff]
      simp only [hminus]
      rw [Returns.modify_bind_iff, hadvance, returns_isNext_bind]
      simp only [decide_eq_true_eq]
  | false =>
      obtain rfl : sign = [] := List.map_eq_nil_iff.1 hsign
      rw [List.nil_append] at htokens
      obtain ⟨rfl, rfl⟩ := List.cons.inj htokens
      unfold attributeValue
      rw [Returns.get_bind_iff]
      rcases hnumber with hnumber | hnumber
      · simp [hnumber]
      · simp [hnumber]

end Parse

theorem Returns.unique {ε σ α : Type} {program : ExceptT ε (StateM σ) α} {before after after' : σ}
    {a a' : α} (h : Returns program before a after) (h' : Returns program before a' after') :
    a = a' ∧ after = after' := by
  unfold Returns at h h'
  rw [h] at h'
  cases h'
  exact ⟨rfl, rfl⟩

namespace Literal

variable {kind : Kind} {default ty : Ty} {negative : Bool} {spelling : List Char} {source : String}
  {constant : Attribute}

/-- The type of a literal can be written. -/
theorem writable (h : Literal kind default negative spelling ty source)
    (hdefault : default.Writable) : ty.Writable := by
  obtain ⟨sign, number, next, later, behind, hscan, -, -, -, htype, -⟩ := h
  refine writable_of_returns_literalType (fun token htoken => ?_) hdefault htype
  exact (scanned_of_scan hscan).spelled token
    (List.mem_append_right _ (List.mem_cons_of_mem _ htoken))

/-- A literal is read from the number behind its sign on. -/
theorem exists_number (h : Literal kind default negative spelling ty source)
    (hkind : kind = .integer ∨ kind = .float) :
    ∃ number behind : State, number.here.kind = kind ∧ number.here.lexeme = String.ofList spelling
      ∧ Returns (literalType default) number.advance ty behind ∧ behind.here.kind = .eof
      ∧ ∀ constant, Attribute.read? source = some constant ↔ ∃ after : State, after.here.kind = .eof
        ∧ Returns (if kind = .float then floatAttribute negative else integerAttribute negative)
          number constant after := by
  obtain ⟨sign, number, next, later, behind, hscan, hsign, rfl, hlexeme, htype, heof⟩ := h
  obtain ⟨here, rest, htokens⟩ : ∃ here rest, sign ++ number :: next :: later = here :: rest := by
    cases sign <;> exact ⟨_, _, rfl⟩
  have hne : number.kind ≠ .eof := by rcases hkind with hkind | hkind <;> simp [hkind]
  have hadvance : State.advance { here := number, later := next :: later, context := {} }
      = { here := next, later, context := {} } := State.advance_eq _ next _ rfl hne
  refine ⟨{ here := number, later := next :: later, context := {} }, behind, rfl, hlexeme,
    hadvance ▸ htype, heof, fun constant => ?_⟩
  rw [htokens] at hscan
  rw [Attribute.read?_eq_some_iff]
  constructor
  · rintro ⟨_, _, after, hscan', h, heof'⟩
    cases hscan.symm.trans hscan'
    exact ⟨after, heof', (returns_attributeValue_iff hsign hkind htokens).1 h⟩
  · rintro ⟨after, heof', h⟩
    exact ⟨here, rest, after, hscan, (returns_attributeValue_iff hsign hkind htokens).2 h, heof'⟩

/-- An integer literal is read if its number is one of 64 bits and fits the type. -/
theorem read?_integer (h : Literal .integer (.int 64) negative spelling ty source) :
    Attribute.read? source = some constant ↔ ∃ value, Text.readInt64?
      (if negative then "-" ++ String.ofList spelling else String.ofList spelling) = some value
        ∧ ty.width?.all (fitsWidth value) = true ∧ constant = .wrapped value ty := by
  obtain ⟨number, behind, hkind, hlexeme, htype, heof, hread⟩ := h.exists_number (.inl rfl)
  simp only [reduceCtorEq, if_false, returns_integerAttribute_iff, hkind, true_and,
    hlexeme] at hread
  rw [hread]
  constructor
  · rintro ⟨after, -, value, ty', hvalue, hty, hfits, rfl⟩
    obtain ⟨rfl, -⟩ := hty.unique htype
    exact ⟨value, hvalue, hfits, rfl⟩
  · rintro ⟨value, hvalue, hfits, rfl⟩
    exact ⟨behind, heof, value, ty, hvalue, htype, hfits, rfl⟩

/-- A floating point literal is read as its number. -/
theorem read?_float (h : Literal .float (.float 64) negative spelling ty source) :
    Attribute.read? source = some constant ↔ ∃ value,
      Binary64.read? (String.ofList spelling) = some value
      ∧ constant = .float (if negative then value.neg else value) ty := by
  obtain ⟨number, behind, hkind, hlexeme, htype, heof, hread⟩ := h.exists_number (.inr rfl)
  simp only [if_true, returns_floatAttribute_iff, hkind, true_and, hlexeme] at hread
  rw [hread]
  constructor
  · rintro ⟨after, -, value, ty', hvalue, hty, rfl⟩
    obtain ⟨rfl, -⟩ := hty.unique htype
    exact ⟨value, hvalue, rfl⟩
  · rintro ⟨value, hvalue, rfl⟩
    exact ⟨behind, heof, value, ty, hvalue, htype, rfl⟩

end Literal

end DialectIR
