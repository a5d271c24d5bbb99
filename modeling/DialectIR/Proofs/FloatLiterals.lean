import DialectIR.Proofs.Literals
import DialectIR.Proofs.ShortestDecimal

/-! Floating point literals are read back where their number is written out, with digits on both
sides of a point. Numbers that are written with an exponent, and infinity, are not read back. -/

namespace DialectIR

open Token

namespace Binary64

open Text

variable {x : Binary64}

theorem magnitude_infinity : infinity.magnitude = 2 ^ 63 - 2 ^ 52 := by decide

theorem magnitude_ofNat {n : ℕ} (h : n ≤ infinity.magnitude) :
    (⟨UInt64.ofNat n⟩ : Binary64).magnitude = n := by
  rw [magnitude_infinity] at h
  rw [magnitude, UInt64.toNat_ofNat', Nat.one_shiftLeft]
  omega

theorem isNegative_iff : x.isNegative = true ↔ x.bits.toNat / 2 ^ 63 = 1 := by
  have hlt := x.bits.toNat_lt
  have hhalf : (0x8000000000000000 : UInt64).toNat = 2 ^ 63 := by decide
  rw [isNegative, decide_eq_true_iff, ge_iff_le, UInt64.le_iff_toNat_le, hhalf]
  omega

theorem isNegative_ofNat {n : ℕ} (h : n ≤ infinity.magnitude) :
    (⟨UInt64.ofNat n⟩ : Binary64).isNegative = false := by
  rw [magnitude_infinity] at h
  rw [← Bool.not_eq_true, isNegative_iff, UInt64.toNat_ofNat']
  omega

@[simp] theorem magnitude_neg (x : Binary64) : x.neg.magnitude = x.magnitude := by
  rw [magnitude, neg, magnitude, UInt64.toNat_xor, Nat.one_shiftLeft, Nat.xor_mod_two_pow]
  simp

@[simp] theorem isNegative_neg (x : Binary64) : x.neg.isNegative = !x.isNegative := by
  have hlt := x.bits.toNat_lt
  have hhalf : (0x8000000000000000 : UInt64).toNat / 2 ^ 63 = 1 := by decide
  have hsign : x.neg.bits.toNat / 2 ^ 63 = x.bits.toNat / 2 ^ 63 ^^^ 1 := by
    rw [neg, UInt64.toNat_xor, Nat.xor_div_two_pow, hhalf]
  rw [Bool.eq_iff_iff, Bool.not_eq_true', ← Bool.not_eq_true, isNegative_iff, isNegative_iff, hsign]
  obtain hzero | hone : x.bits.toNat / 2 ^ 63 = 0 ∨ x.bits.toNat / 2 ^ 63 = 1 := by omega
  · rw [hzero]
    decide
  · rw [hone]
    decide

/-- Magnitude and sign make up the number. -/
theorem eq_of_magnitude {y : Binary64} (hmagnitude : x.magnitude = y.magnitude)
    (hsign : x.isNegative = y.isNegative) :
    x = y := by
  have hx := x.bits.toNat_lt
  have hy := y.bits.toNat_lt
  rw [magnitude, magnitude, Nat.one_shiftLeft] at hmagnitude
  rw [Bool.eq_iff_iff, isNegative_iff, isNegative_iff] at hsign
  obtain ⟨bits⟩ := x
  obtain ⟨bits'⟩ := y
  rw [Binary64.mk.injEq, ← UInt64.toNat_inj]
  dsimp only at *
  omega

theorem magnitude_signed {n : ℕ} (h : n ≤ infinity.magnitude) (negative : Bool) :
    (if negative then neg ⟨UInt64.ofNat n⟩ else ⟨UInt64.ofNat n⟩).magnitude = n := by
  cases negative <;> simp [magnitude_ofNat h]

theorem isNegative_signed {n : ℕ} (h : n ≤ infinity.magnitude) (negative : Bool) :
    (if negative then neg ⟨UInt64.ofNat n⟩ else ⟨UInt64.ofNat n⟩).isNegative = negative := by
  cases negative <;> simp [isNegative_ofNat h]

/-- How a number that is not beyond infinity is written. -/
theorem text_of_le (h : x.magnitude ≤ infinity.magnitude) : x.text = if x.isNegative
    then "-" ++ (if x.isInfinite then "inf" else if x.isZero then "0.0" else layOut x.shortest)
    else if x.isInfinite then "inf" else if x.isZero then "0.0" else layOut x.shortest := by
  have hnumber : x.isNaN = false := decide_eq_false (Nat.not_lt.2 h)
  rw [text, if_neg (by rw [hnumber]; decide)]

/-- The number is written with digits on both sides of a point, and without an exponent. -/
def IsWrittenOut (x : Binary64) : Prop :=
  x.isZero = true ∨ 10 ^ (-4 : ℤ) ≤ numberAt x.magnitude ∧ numberAt x.magnitude < 10 ^ (16 : ℤ)

theorem toLower_of_isDigit {c : Char} (hc : c.isDigit = true) : c.toLower = c := by
  have hhigh : c.val.toNat ≤ 57 := (Char.isDigit_iff_toNat.1 hc).2
  refine dif_neg ?_
  rintro ⟨hupper, -⟩
  exact absurd (UInt32.le_iff_toNat_le.1 hupper)
    (Nat.not_le.2 (Nat.lt_of_le_of_lt hhigh (by decide)))

/-- Digits on both sides of a point are read in any number. -/
theorem read?_numeral {whole fraction : List Char} (hwhole : IsNumeral whole)
    (hfraction : IsNumeral fraction) :
    read? (String.ofList (whole ++ '.' :: fraction))
      = some (ofDecimal (digitsValue (whole ++ fraction)) (-fraction.length : ℤ)) := by
  obtain ⟨htake, hdrop⟩ := @Layout.takeWhile_isDigit whole ('.' :: fraction) hwhole.2
    (by rintro d ⟨⟩; rfl)
  obtain ⟨htake', hdrop'⟩ := @Layout.takeWhile_isDigit fraction [] hfraction.2 nofun
  rw [List.append_nil] at htake' hdrop'
  have hunsigned : readUnsigned? (whole ++ '.' :: fraction)
      = some (ofDecimal (digitsValue (whole ++ fraction)) (-fraction.length : ℤ)) := by
    unfold readUnsigned?
    simp only [htake, hdrop, htake', hdrop', List.isEmpty_eq_false_iff.2 hwhole.1, Bool.false_and,
      Bool.false_eq_true, if_false, readExponent?, Option.map_some, zero_sub]
  obtain ⟨c, cs, rfl⟩ := List.exists_cons_of_ne_nil hwhole.1
  have hc : c.isDigit = true := hwhole.2 c List.mem_cons_self
  -- no word and no sign begins with a digit
  have hne {d : Char} (hd : d.isDigit = false) : c ≠ d := by
    rintro rfl
    rw [hc] at hd
    cases hd
  have hword {word : String} {d : Char} {ds : List Char} (hword : word.toList = d :: ds)
    (hd : d.isDigit = false) :
      String.ofList ((c :: cs ++ '.' :: fraction).map Char.toLower) ≠ word := by
    rintro rfl
    rw [String.toList_ofList, List.cons_append, List.map_cons, toLower_of_isDigit hc] at hword
    exact hne hd (List.cons.inj hword).1
  have hinf := @hword "inf" _ _ rfl rfl
  have hinfinity := @hword "infinity" _ _ rfl rfl
  have hnan := @hword "nan" _ _ rfl rfl
  unfold read?
  rw [String.toList_ofList]
  split
  next heq => exact absurd (List.cons.inj heq).1 (hne rfl)
  next heq => exact absurd (List.cons.inj heq).1 (hne rfl)
  next =>
    simp only [hinf, hinfinity, hnan, decide_false, Bool.or_self, Bool.false_eq_true,
      if_false, hunsigned]

end Binary64

namespace Layout

/-- The sign in front of a number. -/
def signItems (negative : Bool) : List Item := if negative then [.word .minus ['-']] else []

theorem kinds_signItems (negative : Bool) :
    kinds (signItems negative) = if negative then [.minus] else [] := by
  cases negative <;> rfl

theorem chars_signItems (negative : Bool) (text : String) :
    (if negative then "-" ++ text else text).toList = chars (signItems negative)
      ++ text.toList := by
  cases negative <;> simp [signItems, Item.chars]

theorem separatedBefore_sign (negative : Bool) {items : List Item} {next : List Char}
    (h : SeparatedBefore next items) :
    SeparatedBefore next (signItems negative ++ items) := by
  cases negative with
  | true => exact ⟨⟨'-', [], rfl, rfl⟩, h⟩
  | false => exact h

/-- The tokens of a text that begins with a sign and some words. -/
theorem exists_of_scan {negative : Bool} {items : List Item} {next : List Char} {source : String}
    {tokens : List Token} (h : SeparatedBefore next items)
    (hsource : source.toList = chars (signItems negative) ++ (chars items ++ next))
    (hscan : Token.scan source = .ok tokens) :
    ∃ sign location later, tokens = sign ++ (tokensFrom location items ++ later)
      ∧ sign.map Token.kind = if negative then [.minus] else [] := by
  rw [Token.scan, hsource, ← List.append_assoc, ← chars_append,
    scanFrom_chars_append _ (separatedBefore_sign negative h)] at hscan
  rcases hrest : scanFrom (Location.after .start (chars (signItems negative ++ items)))
    next with fault | later
  · rw [hrest] at hscan
    cases hscan
  · rw [hrest, tokensFrom_append] at hscan
    have htokens := (Except.ok.inj hscan).symm
    simp only [List.append_assoc] at htokens
    exact ⟨_, _, later, htokens, by rw [map_kind_tokensFrom, kinds_signItems]⟩

/-- A number with digits on both sides of its point is scanned as one. -/
theorem separatedBefore_point {whole fraction next : List Char} (hwhole : Text.IsNumeral whole)
    (hfraction : Text.IsNumeral fraction) {items : List Item}
    (hnext : ∀ c, (chars items ++ next).head? = some c → c.isDigit = false)
    (h : SeparatedBefore next items) :
    SeparatedBefore next (.word .float (whole ++ '.' :: fraction) :: items) := by
  obtain ⟨c, cs, rfl⟩ := List.exists_cons_of_ne_nil hwhole.1
  have hlength : (cs ++ '.' :: fraction).length = cs.length + 1 + fraction.length := by
    rw [List.length_append, List.length_cons]
    omega
  refine ⟨⟨c, cs ++ '.' :: fraction, rfl, ?_⟩, h⟩
  rw [List.append_assoc, List.cons_append, hlength]
  exact pieceAt_point (hwhole.2 c List.mem_cons_self)
    (fun d hd => hwhole.2 d (List.mem_cons_of_mem _ hd)) hfraction.1 hfraction.2 hnext

end Layout

/-! ### Literals and what else is written for numbers -/

open Layout Parse

variable {negative : Bool} {ty : Ty} {whole fraction : List Char}

/-- A number that is written out is a literal. -/
theorem Literal.of_numeral (negative : Bool) (hwhole : Text.IsNumeral whole)
    (hfraction : Text.IsNumeral fraction) (hty : ty.Writable) (unnamed : Ty) :
    Literal .float unnamed negative (whole ++ '.' :: fraction) ty
      ((if negative then "-" ++ String.ofList (whole ++ '.' :: fraction)
        else String.ofList (whole ++ '.' :: fraction))
        ++ " : " ++ ty.text) := by
  have htype : Separated (space :: .word .colon [':'] :: space :: tyItems ty) := by
    have hty' := separated_ty hty cut_nil
    rw [List.append_nil] at hty'
    exact (cut_space (cut_colon (cut_space hty').separated).separated).separated
  have hseparated := separatedBefore_nil_iff.1 (separatedBefore_sign negative
    (separatedBefore_point hwhole hfraction (by rintro c ⟨⟩; rfl) (separatedBefore_nil_iff.2 htype)))
  have hscan := scanFrom_chars .start hseparated
  have hchars : chars (signItems negative ++ .word .float (whole ++ '.' :: fraction) :: space
    :: .word .colon [':'] :: space
      :: tyItems ty) = ((if negative then "-" ++ String.ofList (whole ++ '.' :: fraction)
        else String.ofList (whole ++ '.' :: fraction)) ++ " : " ++ ty.text).toList := by
    simp [chars_signItems, chars_tyItems, space, Item.chars]
  generalize hend : Location.after .start
    (chars (signItems negative ++ .word .float (whole ++ '.' :: fraction) :: space
    :: .word .colon [':'] :: space :: tyItems ty)) = place at hscan
  rw [tokensFrom_append, tokensFrom_word, List.append_assoc, List.cons_append, hchars] at hscan
  refine ⟨_, _, _, _,
    (State.reading { here := default, later := [], context := {} } [⟨.eof, "", place⟩]), hscan, ?_,
    rfl, rfl, ?_, rfl⟩
  · rw [map_kind_tokensFrom, kinds_signItems]
  · exact @reads_literalType { here := default, later := [], context := {} } [⟨.eof, "", place⟩]
      unnamed ty hty _
      (List.cons_ne_nil _ _)

/-- Without a colon there is no type behind a number, and nothing is taken. -/
theorem Parse.eq_of_returns_literalType {before after : State} {unnamed : Ty}
    (hkind : before.here.kind ≠ .colon) (h : Returns (literalType unnamed) before ty after) :
    after = before := by
  unfold literalType at h
  obtain ⟨found, s, haccept, h⟩ := Returns.bind_iff.1 h
  obtain ⟨rfl, rfl⟩ := returns_accept.1 haccept
  simp only [hkind, decide_false, Bool.false_eq_true, if_false] at h
  exact (Returns.pure_iff.1 h).2

/-- A word that is none of the types is not read as one. -/
theorem Parse.not_returns_type {before after : State} (hkind : before.here.kind = .bare)
    (hword : Ty.ofKeyword? before.here.lexeme = none) : ¬ Returns Parse.type before ty after := by
  intro h
  unfold Parse.type at h
  obtain ⟨found, s, haccept, h⟩ := Returns.bind_iff.1 h
  obtain ⟨rfl, rfl⟩ := returns_accept.1 haccept
  simp only [hkind, reduceCtorEq, decide_false, Bool.false_eq_true, if_false] at h
  obtain ⟨token, s, hexpect, h⟩ := Returns.bind_iff.1 h
  obtain ⟨-, htoken, -⟩ := returns_expect.1 hexpect
  rw [htoken] at h
  simp only [hword] at h
  exact absurd h returns_fault

namespace Attribute

variable {sign : List Token} {number name here : Token} {later rest : List Token}
  {constant : Attribute} {after : Parse.State}

/-- Behind a number without a colon the literal is at its end. -/
theorem after_of_returns_number (hsign : sign.map Token.kind = if negative then [.minus] else [])
    (hnumber : number.kind = .integer ∨ number.kind = .float) (hname : name.kind = .bare)
    (htokens : sign ++ number :: name :: later = here :: rest)
    (h : Returns attributeValue { here, later := rest, context := {} } constant after) :
    after.here.kind = .bare := by
  rw [returns_attributeValue_iff hsign hnumber htokens] at h
  have hadvance : State.advance { here := number, later := name :: later, context := {} }
      = { here := name, later, context := {} } :=
    State.advance_eq _ name _ rfl (by rcases hnumber with hnumber | hnumber <;> simp [hnumber])
  have htype {unnamed ty : Ty}
    (hty : Returns (literalType unnamed) { here := name, later, context := {} } ty after) :
      after.here.kind = .bare := by
    rw [Parse.eq_of_returns_literalType (by simp [hname]) hty]
    exact hname
  split at h
  · obtain ⟨-, _, _, -, hty, -⟩ := returns_floatAttribute_iff.1 h
    exact htype (hadvance ▸ hty)
  · obtain ⟨-, _, _, -, hty, -⟩ := returns_integerAttribute_iff.1 h
    exact htype (hadvance ▸ hty)

/-- A word that is no type is no attribute, with or without a sign. -/
theorem not_returns_word (hsign : sign.map Token.kind = if negative then [.minus] else [])
    (hname : name.kind = .bare) (htype : Ty.ofKeyword? name.lexeme = none)
    (htokens : sign ++ name :: later = here :: rest) :
    ¬ Returns attributeValue { here, later := rest, context := {} } constant after := by
  intro h
  unfold attributeValue at h
  rw [Returns.get_bind_iff] at h
  cases negative with
  | true =>
      obtain ⟨minus, rfl, hminus⟩ := List.map_eq_singleton_iff.1 hsign
      rw [List.singleton_append] at htokens
      obtain ⟨rfl, rfl⟩ := List.cons.inj htokens
      have hadvance : State.advance { here := minus, later := name :: later, context := {} }
          = { here := name, later, context := {} } :=
            State.advance_eq _ name _ rfl (by simp [hminus])
      simp only [hminus] at h
      rw [Returns.modify_bind_iff, hadvance, returns_isNext_bind] at h
      simp only [hname, reduceCtorEq, decide_false, Bool.false_eq_true, if_false,
        returns_integerAttribute_iff, false_and] at h
  | false =>
      obtain rfl : sign = [] := List.map_eq_nil_iff.1 hsign
      rw [List.nil_append] at htokens
      obtain ⟨rfl, rfl⟩ := List.cons.inj htokens
      simp only [hname] at h
      obtain ⟨ty, h, -⟩ := Returns.map_iff.1 h
      exact Parse.not_returns_type hname htype h

/-- A number in front of an exponent ends before it, so that the text is no literal. -/
theorem read?_scientific {c : Char} {numeral exponent : List Char} (hc : c.isDigit = true)
    (hnumeral : numeral = [] ∨ ∃ fraction, Text.IsNumeral fraction ∧ numeral = '.' :: fraction)
    (behind : String) :
    read? ((if negative then "-" ++ String.ofList (c :: numeral ++ 'e' :: exponent)
      else String.ofList (c :: numeral ++ 'e' :: exponent)) ++ behind) = none := by
  obtain ⟨name, hname⟩ : ∃ name, name = (exponent ++ behind.toList).takeWhile continuesName :=
    ⟨_, rfl⟩
  obtain ⟨next, hnext⟩ : ∃ next, next = (exponent ++ behind.toList).dropWhile continuesName :=
    ⟨_, rfl⟩
  have hsplit : exponent ++ behind.toList = name ++ next := by
    rw [hname, hnext, List.takeWhile_append_dropWhile]
  have hstops : Stops next := by
    intro d hd
    have hnot := List.head?_dropWhile_not continuesName (exponent ++ behind.toList)
    rwa [← hnext, hd] at hnot
  have hbare : SeparatedBefore next [.word .bare ('e' :: name)] := by
    refine ⟨⟨'e', name, rfl, ?_⟩, trivial⟩
    have hpiece := pieceAt_name (c := 'e') (by decide)
      (hname ▸ fun d hd => List.mem_takeWhile_imp hd : ∀ d ∈ name, continuesName d = true) hstops
    rwa [namePiece_bare (by decide) (by decide) (by simp) (by simp)] at hpiece
  obtain ⟨kind, hkind, hseparated⟩ : ∃ kind, (kind = .integer ∨ kind = .float)
      ∧ SeparatedBefore next [.word kind (c :: numeral), .word .bare ('e' :: name)] := by
    rcases hnumeral with rfl | ⟨fraction, hfraction, rfl⟩
    · refine ⟨.integer, .inl rfl, ⟨c, [], rfl, ?_⟩, hbare⟩
      exact @pieceAt_digits c [] _ hc nofun (by rintro d ⟨⟩; decide)
    · refine ⟨.float, .inr rfl, @separatedBefore_point [c] _ _ ⟨by simp, by simpa using hc⟩
        hfraction _ ?_ hbare⟩
      rintro d ⟨⟩
      decide
  have hsource : ((if negative then "-" ++ String.ofList (c :: numeral ++ 'e' :: exponent)
        else String.ofList (c :: numeral ++ 'e' :: exponent)) ++ behind).toList
      = chars (signItems negative)
        ++ (chars [.word kind (c :: numeral), .word .bare ('e' :: name)] ++ next) := by
    rw [String.toList_append, chars_signItems, String.toList_ofList]
    simp [Item.chars, hsplit]
  rw [Option.eq_none_iff_forall_ne_some]
  intro constant hread
  obtain ⟨here, rest, after, hscan, hreturns, heof⟩ := read?_eq_some_iff.1 hread
  obtain ⟨sign, location, later, htokens, hsign⟩ := exists_of_scan hseparated hsource hscan
  have hbareAfter := after_of_returns_number hsign (by exact hkind) (by rfl) htokens.symm hreturns
  rw [heof] at hbareAfter
  cases hbareAfter

theorem read?_infinity (behind : String) :
    read? ((if negative then "-" ++ "inf" else "inf") ++ " : " ++ behind) = none := by
  have hseparated : SeparatedBefore (" : " ++ behind).toList [.word .bare "inf".toList] := by
    refine ⟨⟨'i', _, rfl, ?_⟩, trivial⟩
    rw [pieceAt_name (by decide) (List.all_eq_true.1 (by decide)) (by
      rw [chars_nil, List.nil_append, String.toList_append]
      rintro d ⟨⟩
      decide)]
    rfl
  have hsource : ((if negative then "-" ++ "inf" else "inf") ++ " : " ++ behind).toList
      = chars (signItems negative)
        ++ (chars [.word .bare "inf".toList] ++ (" : " ++ behind).toList) := by
    rw [String.append_assoc, String.toList_append, chars_signItems]
    simp [Item.chars]
  rw [Option.eq_none_iff_forall_ne_some]
  intro constant hread
  obtain ⟨here, rest, after, hscan, hreturns, -⟩ := read?_eq_some_iff.1 hread
  obtain ⟨sign, location, later, htokens, hsign⟩ := exists_of_scan hseparated hsource hscan
  exact not_returns_word hsign (by rfl) (by decide : Ty.ofKeyword? "inf" = none)
    htokens.symm hreturns

end Attribute

open Binary64

namespace Attribute

variable {value : Binary64}

/-- What is written as a numeral of a number that is rounded to the value is read back. -/
theorem read?_text_of_rounds (hty : ty.Writable) (hle : value.magnitude ≤ infinity.magnitude)
    (hwhole : Text.IsNumeral whole) (hfraction : Text.IsNumeral fraction)
    (htext : value.text = if value.isNegative then "-" ++ String.ofList (whole ++ '.' :: fraction)
      else String.ofList (whole ++ '.' :: fraction))
    (hrounds : Rounds (Text.digitsValue (whole ++ fraction) * 10 ^ (-fraction.length : ℤ))
      value.magnitude) :
    read? (Attribute.float value ty).text = some (.float value ty) := by
  have hliteral := Literal.of_numeral value.isNegative hwhole hfraction hty (.float 64)
  rw [← htext] at hliteral
  refine hliteral.read?_float.2 ⟨_, read?_numeral hwhole hfraction, ?_⟩
  rw [ofDecimal_of_rounds hrounds hle]
  congr 1
  exact eq_of_magnitude (magnitude_signed hle _).symm (isNegative_signed hle _).symm

/-- A number is read back from how it is written if it is written out, and only then. -/
theorem read?_float_text (hty : ty.Writable) (hle : value.magnitude ≤ infinity.magnitude) :
    (value.IsWrittenOut → read? (Attribute.float value ty).text = some (.float value ty))
      ∧ (¬ value.IsWrittenOut → read? (Attribute.float value ty).text = none) := by
  have htext := text_of_le hle
  by_cases hinfinite : value.isInfinite = true
  · have hmagnitude : value.magnitude = infinity.magnitude := of_decide_eq_true hinfinite
    have hbeyond : ¬ value.IsWrittenOut := by
      rintro (hzero | ⟨-, hlt⟩)
      · have hzero' : value.magnitude = 0 := of_decide_eq_true hzero
        rw [hmagnitude] at hzero'
        exact absurd hzero' (by decide)
      · rw [hmagnitude, numberAt_infinity, zpow_ofNat] at hlt
        refine absurd hlt (not_lt.2 ?_)
        calc (10 : ℚ) ^ 16 ≤ 2 ^ 54 := by norm_num
          _ ≤ 2 ^ 1024 := pow_le_pow_right₀ one_le_two (by norm_num)
    rw [if_pos hinfinite] at htext
    refine ⟨fun h => absurd h hbeyond, fun _ => ?_⟩
    rw [Attribute.text, htext]
    exact read?_infinity _
  rw [if_neg hinfinite] at htext
  by_cases hzero : value.isZero = true
  · have hmagnitude : value.magnitude = 0 := of_decide_eq_true hzero
    rw [if_pos hzero] at htext
    refine ⟨fun _ => ?_, fun h => absurd (.inl hzero) h⟩
    refine @read?_text_of_rounds ty ['0'] ['0'] value hty hle ⟨by simp, by simp⟩
      ⟨by simp, by simp⟩ htext ?_
    have hvalue : Text.digitsValue (['0'] ++ ['0']) = 0 := by decide
    rw [hvalue, hmagnitude, Nat.cast_zero, zero_mul, ← numberAt_zero]
    exact .numberAt 0
  · have hpos : 0 < value.magnitude := Nat.pos_of_ne_zero fun h => hzero (decide_eq_true h)
    have hwithin : value.IsWrittenOut ↔ -3 ≤ point value.shortest ∧ point value.shortest ≤ 16 := by
      rw [point_shortest_iff hpos, IsWrittenOut, or_iff_right hzero]
    rw [if_neg hzero] at htext
    rw [hwithin]
    constructor
    · rintro ⟨hlow, hhigh⟩
      obtain ⟨whole, fraction, hwhole, hfraction, hlayOut, hvalue⟩ := layOut_of_le hlow hhigh
      rw [hlayOut] at htext
      exact read?_text_of_rounds hty hle hwhole hfraction htext (hvalue ▸ rounds_shortest hpos)
    · intro hnot
      obtain ⟨c, numeral, exponent, hc, hnumeral, hlayOut⟩ :=
        layOut_of_lt (d := value.shortest) (by omega)
      rw [Attribute.text, htext, hlayOut, String.append_assoc]
      exact read?_scientific hc hnumeral _

end Attribute

/-- **Floating point literals** of any length, of any type that can stand behind them, are read as
the number that their digits are rounded to, with its sign. It is read back from how it is written
if it is zero or at least `10 ^ -4` and less than `10 ^ 16`, either sign aside; and other numbers,
which are written with an exponent or as infinity, are not read at all. -/
theorem Literal.read?_float_spec {source : String} (hwhole : Text.IsNumeral whole)
    (hfraction : Text.IsNumeral fraction)
    (h : Literal .float (.float 64) negative (whole ++ '.' :: fraction) ty source) :
    ∃ value : Binary64, Attribute.read? source = some (.float value ty)
      ∧ (value.isNegative = negative ∧ ∃ n, value.magnitude = min n infinity.magnitude
        ∧ Rounds (Text.digitsValue (whole ++ fraction) * 10 ^ (-fraction.length : ℤ)) n)
      ∧ (value.IsWrittenOut → Attribute.read? (Attribute.float value ty).text
        = some (.float value ty))
      ∧ (¬ value.IsWrittenOut → Attribute.read? (Attribute.float value ty).text = none) := by
  obtain ⟨n, hrounds, hdecimal⟩ := exists_rounds_ofDecimal (Text.digitsValue (whole ++ fraction))
    (-fraction.length)
  have hle : min n infinity.magnitude ≤ infinity.magnitude := Nat.min_le_right _ _
  have hmagnitude := magnitude_signed hle negative
  refine ⟨_, h.read?_float.2 ⟨_, read?_numeral hwhole hfraction, ?_⟩,
    ⟨isNegative_signed hle negative, n, hmagnitude, hrounds⟩,
    Attribute.read?_float_text (h.writable (by decide)) (hmagnitude.le.trans hle)⟩
  rw [hdecimal]

/-- A half, in more digits than it needs and without a space. -/
theorem Literal.read?_float_spec_half :
    Literal .float (.float 64) true ("00".toList ++ '.' :: "50".toList) (.float 32) "-00.50:f32"
    ∧ Attribute.read? "-00.50:f32" = some (.float ⟨0xBFE0000000000000⟩ (.float 32))
    ∧ Attribute.read? (Attribute.float ⟨0xBFE0000000000000⟩ (.float 32)).text
      = some (.float ⟨0xBFE0000000000000⟩ (.float 32)) := by
  have hliteral : Literal .float (.float 64) true ("00".toList ++ '.' :: "50".toList) (.float 32)
    "-00.50:f32" :=
    ⟨[⟨.minus, "-", ⟨0, 0⟩⟩], ⟨.float, "00.50", ⟨0, 1⟩⟩, ⟨.colon, ":", ⟨0, 6⟩⟩,
      [⟨.bare, "f32", ⟨0, 7⟩⟩, ⟨.eof, "", ⟨0, 10⟩⟩],
      { here := ⟨.eof, "", ⟨0, 10⟩⟩, later := [], context := {} }, by
        decide +kernel, rfl, rfl, rfl, by rfl, rfl⟩
  have hread : Attribute.read? "-00.50:f32" = some (.float ⟨0xBFE0000000000000⟩ (.float 32)) := by
    decide +kernel
  obtain ⟨value, hvalue, -, hback, -⟩ :=
    hliteral.read?_float_spec ⟨by decide, List.all_eq_true.1 (by decide)⟩
    ⟨by decide, List.all_eq_true.1 (by decide)⟩
  obtain rfl : value = ⟨0xBFE0000000000000⟩ := by
    cases hread.symm.trans hvalue
    rfl
  refine ⟨hliteral, hread, hback (.inr ?_)⟩
  have hplaces := numberAt_places (e := 1021) (s := 2 ^ 52) (by norm_num) (.inl le_rfl)
  rw [show (⟨0xBFE0000000000000⟩ : Binary64).magnitude = 2 ^ 52 * 1021 + 2 ^ 52 by decide, hplaces]
  norm_num

/-- A number below `10 ^ -4` is written with an exponent, which is not read. -/
theorem Literal.exists_not_read_back :
    Literal .float (.float 64) false ("0".toList ++ '.' :: "00001".toList) (.float 64) "0.00001"
    ∧ ∃ value, Attribute.read? "0.00001" = some (.float value (.float 64))
      ∧ (Attribute.float value (.float 64)).text = "1e-5 : f64"
      ∧ Attribute.read? (Attribute.float value (.float 64)).text = none := by
  refine ⟨⟨[], ⟨.float, "0.00001", ⟨0, 0⟩⟩, ⟨.eof, "", ⟨0, 7⟩⟩, [],
    { here := ⟨.eof, "", ⟨0, 7⟩⟩, later := [], context := {} }, by
      decide +kernel, rfl, rfl, rfl, by rfl, rfl⟩,
    ⟨0x3EE4F8B588E368F1⟩, ?_, ?_, ?_⟩
  · decide +kernel
  · decide +kernel
  · decide +kernel

end DialectIR
