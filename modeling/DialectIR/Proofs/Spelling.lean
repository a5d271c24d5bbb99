import DialectIR.Proofs.Printed
import DialectIR.Proofs.ValueTokens

/-! How the tokens of a scanned text are spelled: names, symbols and strings consist of the
characters that the printed form of what they stand for is made of. -/

namespace DialectIR.Token

/-- The characters of a token of a class. -/
def Spells : Kind → List Char → Prop
  | .bare, cs => Text.IsBare (String.ofList cs)
  | .value, cs => ∃ name : List Char, cs = '%' :: name ∧ ∀ c ∈ name, continuesName c = true
  | .symbol, cs => ∃ name : List Char, cs = '@' :: name ∧ ∀ c ∈ name, continuesName c = true
  | .string, cs => ∃ body : List Char, cs = '"' :: (body ++ ['"']) ∧ ∀ c ∈ body, inString c = true
  | _, _ => True

theorem spells_numberPiece {rest taken : List Char} {kind : Kind}
    (h : (numberPiece rest).kind? = some kind) : Spells kind taken := by
  rcases numberPiece_kind rest with hkind | hkind
  · rw [hkind] at h
    cases h
    trivial
  · rw [hkind] at h
    cases h
    trivial

theorem spells_namePiece {c : Char} {name : List Char} {kind : Kind} (hstart : startsName c = true)
    (hname : ∀ d ∈ name, continuesName d = true) (h : (namePiece (c :: name)).kind? = some kind) :
    Spells kind (c :: name) := by
  unfold namePiece at h
  dsimp only at h
  split at h
  · cases h
    trivial
  next htrue =>
    split at h
    · cases h
      trivial
    next hfalse =>
      split at h
      next heq =>
        cases h
        obtain ⟨rfl, rfl⟩ := List.cons.inj heq
        exact ⟨name, rfl, hname⟩
      next heq =>
        cases h
        obtain ⟨rfl, rfl⟩ := List.cons.inj heq
        exact ⟨name, rfl, hname⟩
      next hsymbol hvalue =>
        cases h
        have hne {word : String} (hword : c :: name ≠ word.toList) : String.ofList
          (c :: name) ≠ word := by
          rintro rfl
          exact hword String.toList_ofList.symm
        refine ⟨⟨c, name, String.toList_ofList, hstart, ?_, ?_, hname⟩, hne htrue, hne hfalse⟩
        · rintro rfl
          exact hsymbol name rfl
        · rintro rfl
          exact hvalue name rfl

/-- The characters of a piece are those of its class. -/
theorem spells_pieceAt {c : Char} {rest : List Char} {piece : Piece} {kind : Kind}
    (h : pieceAt c rest = .ok piece) (hkind : piece.kind? = some kind) :
    Spells kind (c :: rest.take piece.more) := by
  unfold pieceAt at h
  split at h
  -- one character, or layout
  all_goals try (cases h; cases hkind <;> trivial)
  · split at h
    · cases h
      cases hkind
    · cases h
  · dsimp only at h
    split at h
    next hquote =>
      cases h
      cases hkind
      refine ⟨rest.takeWhile inString, ?_, fun d hd => List.mem_takeWhile_imp hd⟩
      rw [List.take_add_one, hquote, take_length_takeWhile]
      rfl
    · cases h
  · split at h
    · cases h
      exact spells_numberPiece hkind
    · split at h
      next hstart =>
        cases h
        have hmore : (namePiece (c :: rest.takeWhile continuesName)).more
          = (rest.takeWhile continuesName).length := by
          simp [namePiece]
        rw [hmore, take_length_takeWhile]
        exact spells_namePiece hstart (fun d hd => List.mem_takeWhile_imp hd) hkind
      · cases h

/-- The token is spelled as its class says. -/
def Spelled (token : Token) : Prop := Spells token.kind token.lexeme.toList

/-- What a text is scanned to. -/
structure Scanned (count : Nat) (tokens : List Token) : Prop where
  spelled : ∀ token ∈ tokens, token.Spelled
  ended : ∃ token, tokens.getLast? = some token ∧ token.kind = .eof
  length : tokens.length ≤ count + 1

theorem scanned_of_scanFrom {location : Location} {cs : List Char} {tokens : List Token}
    (h : scanFrom location cs = .ok tokens) : Scanned cs.length tokens := by
  fun_induction scanFrom location cs generalizing tokens with
  | case1 location =>
      cases h
      refine ⟨fun token htoken => ?_, ⟨_, rfl, rfl⟩, Nat.le_refl _⟩
      rw [List.mem_singleton.1 htoken]
      trivial
  | case2 => cases h
  | case3 => cases h
  | case4 location c rest piece hpiece taken later hlater kind hkind =>
      rename_i ih
      cases h
      obtain ⟨hspelled, ⟨last, hlast, heof⟩, hlength⟩ := ih hlater
      refine ⟨fun token htoken => ?_, ⟨last, ?_, heof⟩, ?_⟩
      · rcases List.mem_cons.1 htoken with rfl | htoken
        · have hspells := spells_pieceAt hpiece hkind
          unfold Spelled
          rw [String.toList_ofList]
          exact hspells
        · exact hspelled token htoken
      · rw [List.getLast?_cons, hlast]
        rfl
      · rw [List.length_drop] at hlength
        simp only [List.length_cons]
        omega
  | case5 location c rest piece hpiece taken later hlater hkind =>
      rename_i ih
      cases h
      obtain ⟨hspelled, hended, hlength⟩ := ih hlater
      refine ⟨hspelled, hended, ?_⟩
      rw [List.length_drop] at hlength
      simp only [List.length_cons]
      omega

/-- **Scanned tokens** are spelled as they should be, and there are no more of them than characters,
but for the end. -/
theorem scanned_of_scan {source : String} {tokens : List Token} (h : scan source = .ok tokens) :
    Scanned source.length tokens :=
  scanned_of_scanFrom h

end DialectIR.Token
