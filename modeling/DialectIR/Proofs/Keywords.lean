import DialectIR.Proofs.Numeral
import DialectIR.Proofs.WellFormed

/-! Which words stand for a type. The builtin types are read back from how they are written, and
each but the integers has one word only; the number of bits of an integer is read as any number is,
with zeros in front of it and perhaps a plus sign. -/

namespace DialectIR.Ty

open Text

variable {word : String} {ty : Ty} {bits : UInt32}

/-- The type is one of those that have a keyword: integers of 1 to 128 bits, three widths of
floating point numbers, the index and the type of nothing. -/
def HasKeyword : Ty → Prop
  | .foreign _ => False
  | ty => ty.Readable

/-- The words that stand for a type. -/
def SpelledAs : Ty → String → Prop
  | .int bits, word => ∃ sign zeros, (sign = [] ∨ sign = ['+'])
      ∧ word.toList = 'i' :: (sign ++ (List.replicate zeros '0' ++ Nat.toDigits 10 bits.toNat))
  | ty, word => word = ty.text

theorem HasKeyword.readable (h : ty.HasKeyword) : ty.Readable := by
  cases ty with
  | foreign name => trivial
  | _ => exact h

theorem hasKeyword_of_readable (h : ty.Readable) (hforeign : ∀ name, ty ≠ .foreign name) :
    ty.HasKeyword := by
  cases ty with
  | foreign name => exact hforeign name rfl
  | _ => exact h

theorem toList_text_int (bits : UInt32) :
    (Ty.int bits).text.toList = 'i' :: Nat.toDigits 10 bits.toNat := by
  simp [text]

theorem spelledAs_text (ty : Ty) : ty.SpelledAs ty.text := by
  cases ty with
  | int bits => exact ⟨[], 0, .inl rfl, toList_text_int bits⟩
  | _ => rfl

/-- A word that stands for a type and has neither a plus sign nor a zero behind its first letter is
the text of the type. -/
theorem eq_text_of_spelledAs (hplus : word.toList[1]? ≠ some '+')
    (hzero : word.toList[1]? ≠ some '0') (h : ty.SpelledAs word) :
    word = ty.text := by
  cases ty with
  | int bits =>
      obtain ⟨sign, zeros, rfl | rfl, hword⟩ := h
      · cases zeros with
        | zero => exact String.toList_inj.1 (hword.trans (toList_text_int bits).symm)
        | succ zeros => exact absurd (by rw [hword]; rfl) hzero
      · exact absurd (by rw [hword]; rfl) hplus
  | _ => exact h

/-- A word that begins as integer types do and is not the index stands for the integers of as many
bits as it says. -/
theorem ofKeyword?_of_toList {rest : List Char} (hword : word.toList = 'i' :: rest)
    (hindex : word ≠ "index") :
    ofKeyword? word = some ty ↔ ∃ count, readNat? (UInt32.size - 1)
      (String.ofList rest) = some count
      ∧ 1 ≤ count ∧ count ≤ 128 ∧ ty = .int (UInt32.ofNat count) := by
  have hother {other : String} (h : other.toList.head? ≠ some 'i') : word ≠ other := by
    rintro rfl
    exact h (congrArg List.head? hword)
  unfold ofKeyword?
  rw [if_neg hindex, if_neg (hother (by decide)), if_neg (hother (by decide)),
    if_neg (hother (by decide)), if_neg (hother (by decide)), hword]
  split
  next bits hbits =>
    obtain rfl := (List.cons.inj hbits).2
    cases readNat? (UInt32.size - 1) (String.ofList rest) with
    | none => simp
    | some count =>
        dsimp only
        split
        next hout =>
          simp only [Bool.or_eq_true, decide_eq_true_eq] at hout
          simp only [reduceCtorEq, Option.some.injEq, false_iff]
          rintro ⟨_, rfl, hlow, hhigh, -⟩
          omega
        next hin =>
          simp only [Bool.or_eq_true, decide_eq_true_eq] at hin
          constructor
          · intro h
            exact ⟨count, rfl, by omega, by omega, (Option.some.inj h).symm⟩
          · rintro ⟨_, ⟨⟩, -, -, rfl⟩
            rfl
  next hother => exact absurd rfl (hother rest)

theorem isNumeral_zeros_append (zeros n : Nat) :
    IsNumeral (List.replicate zeros '0' ++ Nat.toDigits 10 n) := by
  refine ⟨List.append_ne_nil_of_right_ne_nil _ Nat.toDigits_ne_nil, fun c hc => ?_⟩
  rcases List.mem_append.1 hc with hc | hc
  · rw [List.eq_of_mem_replicate hc]
    rfl
  · exact isDigit_of_mem_toDigits hc

theorem ofKeyword?_of_spelledAs_int (hbits : 1 ≤ bits.toNat ∧ bits.toNat ≤ 128)
    (h : (Ty.int bits).SpelledAs word) :
    ofKeyword? word = some (.int bits) := by
  obtain ⟨sign, zeros, hsign, hword⟩ := h
  have hindex : word ≠ "index" := by
    rintro rfl
    have hn : 'n' ∈ sign ++ (List.replicate zeros '0' ++ Nat.toDigits 10 bits.toNat) :=
      (List.cons.inj hword).2 ▸ List.mem_cons_self
    rcases List.mem_append.1 hn with hn | hn
    · rcases hsign with rfl | rfl
      · cases hn
      · exact absurd (List.mem_singleton.1 hn) (by decide)
    · exact absurd ((isNumeral_zeros_append zeros bits.toNat).2 'n' hn) (by decide)
  rw [ofKeyword?_of_toList hword hindex]
  refine ⟨bits.toNat, readNat?_eq_some_iff.2
    ⟨?_, sign, _, hsign, String.toList_ofList, isNumeral_zeros_append _ _, ?_⟩,
    hbits.1, hbits.2, congrArg Ty.int UInt32.ofNat_toNat.symm⟩
  · rw [UInt32.size]
    omega
  · rw [digitsValue_replicate_append, digitsValue_toDigits]

/-- Whatever is read as the integers of some bits consists of the sign, the zeros and the numeral of
their number. -/
theorem spelledAs_int_of_readNat? {rest : List Char} {count : Nat}
    (hword : word.toList = 'i' :: rest) (hlow : 1 ≤ count) (hhigh : count ≤ 128)
    (h : readNat? (UInt32.size - 1) (String.ofList rest) = some count) :
    (Ty.int (UInt32.ofNat count)).HasKeyword ∧ (Ty.int (UInt32.ofNat count)).SpelledAs word := by
  obtain ⟨hmax, sign, digits, hsign, hrest, hnumeral, rfl⟩ := readNat?_eq_some_iff.1 h
  obtain ⟨zeros, hdigits⟩ := hnumeral.eq_zeros_append hlow
  have hcount : (UInt32.ofNat (digitsValue digits)).toNat = digitsValue digits :=
    UInt32.toNat_ofNat_of_lt' (by rw [UInt32.size]; omega)
  rw [String.toList_ofList] at hrest
  refine ⟨?_, sign, zeros, hsign, ?_⟩
  · show 1 ≤ (UInt32.ofNat (digitsValue digits)).toNat
      ∧ (UInt32.ofNat (digitsValue digits)).toNat ≤ 128
    rw [hcount]
    exact ⟨hlow, hhigh⟩
  · rw [hword, hrest, hcount, ← hdigits]

theorem ofKeyword?_eq_some_iff : ofKeyword? word = some ty ↔ ty.HasKeyword ∧ ty.SpelledAs word := by
  constructor
  · intro hfound
    have h := hfound
    unfold ofKeyword? at h
    split_ifs at h with hindex hnone hhalf hsingle hdouble
    · cases h
      exact ⟨trivial, hindex⟩
    · cases h
      exact ⟨trivial, hnone⟩
    · cases h
      exact ⟨.inl rfl, hhalf⟩
    · cases h
      exact ⟨.inr (.inl rfl), hsingle⟩
    · cases h
      exact ⟨.inr (.inr rfl), hdouble⟩
    · split at h
      next rest hword =>
        obtain ⟨count, hread, hlow, hhigh, rfl⟩ := (ofKeyword?_of_toList hword hindex).1 hfound
        exact spelledAs_int_of_readNat? hword hlow hhigh hread
      next => cases h
  · rintro ⟨hkeyword, hspelled⟩
    cases ty with
    | int bits => exact ofKeyword?_of_spelledAs_int hkeyword hspelled
    | index => exact hspelled ▸ rfl
    | float bits =>
        obtain rfl := hspelled
        rcases hkeyword with rfl | rfl | rfl
        · rfl
        · rfl
        · rfl
    | none => exact hspelled ▸ rfl
    | foreign name => exact hkeyword.elim

/-- **Which words stand for a type.** A word is read as a type exactly if the type has a keyword and
the word is its text, but that the number of bits of an integer may have a plus sign and zeros in
front of it. So every type that has a keyword is read back from its text, and among the words with
neither a plus sign nor a zero behind the first letter its text is the only one. -/
theorem ofKeyword?_spec (word : String) (ty : Ty) :
    (ofKeyword? word = some ty ↔ ty.HasKeyword ∧ ty.SpelledAs word)
      ∧ (ty.HasKeyword → ofKeyword? ty.text = some ty)
      ∧ (word.toList[1]? ≠ some '+' → word.toList[1]? ≠ some '0' →
          (ofKeyword? word = some ty ↔ ty.HasKeyword ∧ word = ty.text)) := by
  refine ⟨ofKeyword?_eq_some_iff, fun hkeyword =>
    ofKeyword?_eq_some_iff.2 ⟨hkeyword, spelledAs_text ty⟩, fun hplus hzero => ?_⟩
  rw [ofKeyword?_eq_some_iff]
  refine and_congr_right fun _ => ⟨eq_text_of_spelledAs hplus hzero, ?_⟩
  rintro rfl
  exact spelledAs_text ty

/-- Three words for the widest integers, and the one that has neither a sign nor zeros. -/
theorem ofKeyword?_spec_widest :
    ofKeyword? "i128" = some (.int 128) ∧ ofKeyword? "i+128" = some (.int 128)
    ∧ ofKeyword? "i+00128" = some (.int 128) ∧ ∀ word, word.toList[1]? ≠ some '+' →
      word.toList[1]? ≠ some '0' → ofKeyword? word = some (.int 128) → word = "i128" := by
  have hkeyword : (Ty.int 128).HasKeyword := ⟨by decide, by decide⟩
  refine ⟨(ofKeyword?_spec "i128" (.int 128)).2.1 hkeyword, ?_, ?_, fun word hplus hzero h => ?_⟩
  · exact (ofKeyword?_spec _ _).1.2 ⟨hkeyword, ['+'], 0, .inr rfl, by decide⟩
  · exact (ofKeyword?_spec _ _).1.2 ⟨hkeyword, ['+'], 2, .inr rfl, by decide⟩
  · exact (((ofKeyword?_spec word _).2.2 hplus hzero).1 h).2

/-- A zero or a plus sign in front of the number of bits gives further words for one type. -/
theorem exists_ofKeyword?_ne_text :
    ofKeyword? "i08" = some (.int 8) ∧ ofKeyword? "i+8" = some (.int 8)
    ∧ (Ty.int 8).text ≠ "i08" ∧ (Ty.int 8).text ≠ "i+8" := by
  decide +kernel

end DialectIR.Ty
