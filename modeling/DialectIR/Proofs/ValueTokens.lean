import DialectIR.Token.Scan
import Mathlib.Data.List.TakeWhile

/-! The tokens of values in a scanned text: a percent sign and the characters of a name. -/

namespace DialectIR.Token

theorem take_length_takeWhile (p : Char → Bool) (cs : List Char) :
    cs.take (cs.takeWhile p).length = cs.takeWhile p :=
  (List.prefix_iff_eq_take.1 (List.takeWhile_prefix p)).symm

theorem percent_not_continuesName : continuesName '%' = false := by decide

theorem numberPiece_kind (rest : List Char) :
    (numberPiece rest).kind? = some .integer ∨ (numberPiece rest).kind? = some .float := by
  unfold numberPiece
  split
  · dsimp only
    split <;> simp
  · simp

theorem namePiece_value {c : Char} {name : List Char}
    (h : (namePiece (c :: name)).kind? = some .value) :
    c = '%' := by
  unfold namePiece at h
  dsimp only at h
  split at h
  · cases h
  · split at h
    · cases h
    · split at h
      next => cases h
      next heq => exact (List.cons.inj heq).1
      next => cases h

/-- The piece of a value is a percent sign with as many name characters behind it as there are. -/
theorem pieceAt_value {c : Char} {rest : List Char} {piece : Piece} (h : pieceAt c rest = .ok piece)
    (hkind : piece.kind? = some .value) :
    c = '%' ∧ piece.more = (rest.takeWhile continuesName).length := by
  unfold pieceAt at h
  split at h
  -- one character, or one that begins no token
  all_goals try (cases h; cases hkind)
  · split at h <;> cases h
    cases hkind
  · dsimp only at h
    split at h <;> cases h
    cases hkind
  · split at h
    · cases h
      rcases numberPiece_kind rest with hnumber | hnumber <;> rw [hnumber] at hkind <;> cases hkind
    · split at h
      · cases h
        exact ⟨namePiece_value hkind, by simp [namePiece]⟩
      · cases h

/-- The token is no value, or a percent sign and the characters of a name. -/
def Marked (token : Token) : Prop :=
  token.kind = .value → ∃ name : List Char, token.lexeme.toList = '%' :: name
    ∧ ∀ c ∈ name, continuesName c = true

theorem marked_of_mem_scanFrom {location : Location} {cs : List Char} {tokens : List Token}
    (h : scanFrom location cs = .ok tokens) : ∀ token ∈ tokens, token.Marked := by
  fun_induction scanFrom location cs generalizing tokens with
  | case1 location =>
      cases h
      intro token htoken hvalue
      rw [List.mem_singleton] at htoken
      rw [htoken] at hvalue
      cases hvalue
  | case2 => cases h
  | case3 => cases h
  | case4 location c rest piece hpiece taken later hlater kind hkind =>
      rename_i ih
      cases h
      intro token htoken
      rcases List.mem_cons.1 htoken with rfl | htoken
      · intro hvalue
        rw [show kind = Kind.value from hvalue] at hkind
        obtain ⟨rfl, hmore⟩ := pieceAt_value hpiece hkind
        refine ⟨rest.takeWhile continuesName, ?_, fun c hc => List.mem_takeWhile_imp hc⟩
        simp only [taken, hmore, take_length_takeWhile, String.toList_ofList]
      · exact ih hlater token htoken
  | case5 location c rest piece hpiece taken later hlater hkind =>
      rename_i ih
      cases h
      exact ih hlater

theorem marked_of_mem_scan {source : String} {tokens : List Token} (h : scan source = .ok tokens) :
    ∀ token ∈ tokens, token.Marked :=
  marked_of_mem_scanFrom h

end DialectIR.Token
