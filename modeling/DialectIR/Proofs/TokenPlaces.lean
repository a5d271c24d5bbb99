import DialectIR.Proofs.Excerpts

/-! Tokens and the source that they were scanned from. The source consists of the characters of its
tokens, in order, with layout between them: white space, and comments up to the end of their line.
Each token knows its place, and an excerpt of the source at that place has its caret under the first
character of the token. -/

namespace DialectIR.Token

open Location

/-- Layout in front of some further text: white space, and comments that go on to the end of their
line. -/
inductive Gap (next : List Char) : List Char → Prop
  | nil : Gap next []
  | blank {c : Char} {gap : List Char} (hblank : c ∈ [' ', '\t', '\r', '\n'])
      (h : Gap next gap) : Gap next (c :: gap)
  | comment {body gap : List Char} (hbody : '\n' ∉ body)
      (hend : ∀ c, (gap ++ next).head? = some c → c = '\n')
      (h : Gap next gap) : Gap next ('/' :: '/' :: (body ++ gap))

/-- A piece that is no token is a blank, or a comment with all that follows on its line. -/
theorem layout_of_pieceAt {c : Char} {rest : List Char} {piece : Piece}
    (h : pieceAt c rest = .ok piece) (hkind : piece.kind? = none) :
    c ∈ [' ', '\t', '\r', '\n'] ∧ piece.more = 0
      ∨ c = '/' ∧ rest.head? = some '/' ∧ piece.more = (lineEnd rest).length := by
  unfold pieceAt at h
  split at h
  all_goals try (cases h; cases hkind)
  case h_10 | h_11 | h_12 | h_13 => exact .inl ⟨by decide, rfl⟩
  case h_14 =>
    split at h
    next hslash =>
      cases h
      exact .inr ⟨rfl, hslash, rfl⟩
    next => cases h
  case h_15 =>
    dsimp only at h
    split at h
    · cases h
      cases hkind
    · cases h
  case h_16 =>
    split at h
    · cases h
      rcases numberPiece_kind rest with hnumber | hnumber <;> (rw [hnumber] at hkind; cases hkind)
    · split at h
      · cases h
        cases hkind
      · cases h

/-- A number consists of digits, and perhaps a point between them. -/
theorem newline_not_mem_number (rest : List Char) : '\n' ∉ rest.take (numberPiece rest).more := by
  have hdigits (cs : List Char) : '\n' ∉ cs.takeWhile Char.isDigit :=
    fun h => nomatch List.mem_takeWhile_imp h
  have hinteger : '\n' ∉ rest.take (rest.takeWhile Char.isDigit).length := by
    rw [take_length_takeWhile]
    exact hdigits rest
  unfold numberPiece
  split
  next fraction hpoint =>
    dsimp only
    split
    · exact hinteger
    · have htake : rest.take
        ((rest.takeWhile Char.isDigit).length + 1 + (fraction.takeWhile Char.isDigit).length)
          = rest.takeWhile Char.isDigit ++ '.' :: fraction.takeWhile Char.isDigit := by
        have hsplit : rest.takeWhile Char.isDigit ++ '.' :: fraction = rest := by
          rw [← hpoint, List.takeWhile_append_dropWhile]
        have hcut : (rest.takeWhile Char.isDigit ++ '.' :: fraction).take
            ((rest.takeWhile Char.isDigit).length + ((fraction.takeWhile Char.isDigit).length + 1))
              = rest.takeWhile Char.isDigit ++ ('.' :: fraction).take
                ((fraction.takeWhile Char.isDigit).length + 1) :=
          List.take_length_add_append _
        rwa [hsplit, List.take_succ_cons, take_length_takeWhile, Nat.add_comm _ 1,
          ← Nat.add_assoc] at hcut
      rw [htake, List.mem_append, List.mem_cons, not_or, not_or]
      exact ⟨hdigits rest, by decide, hdigits fraction⟩
  next => exact hinteger

theorem kind_ne_eof_of_namePiece {name : List Char} {kind : Kind}
    (h : (namePiece name).kind? = some kind) : kind ≠ .eof := by
  rintro rfl
  unfold namePiece at h
  dsimp only at h
  repeat' split at h
  all_goals cases h

/-- A piece that is a token is not the end of the text, and does not go over a line. -/
theorem word_of_pieceAt {c : Char} {rest : List Char} {piece : Piece} {kind : Kind}
    (h : pieceAt c rest = .ok piece) (hkind : piece.kind? = some kind) :
    kind ≠ .eof ∧ '\n' ∉ c :: rest.take piece.more := by
  unfold pieceAt at h
  split at h
  all_goals try (cases h; cases hkind)
  case h_1 | h_2 | h_3 | h_4 | h_5 | h_6 | h_7 | h_8 | h_9 => simp
  case h_14 =>
    split at h
    · cases h
      cases hkind
    · cases h
  case h_15 =>
    dsimp only at h
    split at h
    next hquote =>
      cases h
      cases hkind
      have hbody : '\n' ∉ rest.takeWhile inString := fun hmem => nomatch List.mem_takeWhile_imp hmem
      rw [List.take_add_one, hquote, take_length_takeWhile]
      simpa using hbody
    next => cases h
  case h_16 hnewline _ _ =>
    rw [List.mem_cons, not_or, eq_comm]
    split at h
    · cases h
      refine ⟨?_, hnewline, newline_not_mem_number rest⟩
      rintro rfl
      rcases numberPiece_kind rest with hnumber | hnumber <;> (rw [hnumber] at hkind; cases hkind)
    · split at h
      next =>
        cases h
        have hmore : (namePiece (c :: rest.takeWhile continuesName)).more
          = (rest.takeWhile continuesName).length := by
          simp [namePiece]
        rw [hmore, take_length_takeWhile]
        refine ⟨kind_ne_eof_of_namePiece hkind, hnewline, fun hmem => ?_⟩
        cases List.mem_takeWhile_imp hmem
      next => cases h

/-- A piece that is no token goes on with the layout in front of the text behind it. -/
theorem gap_of_pieceAt {c : Char} {rest gap next : List Char} {piece : Piece}
    (h : pieceAt c rest = .ok piece) (hkind : piece.kind? = none)
    (hrest : rest.drop piece.more = gap ++ next) (hgap : Gap next gap) :
    Gap next (c :: rest.take piece.more ++ gap) := by
  rcases layout_of_pieceAt h hkind with ⟨hblank, hmore⟩ | ⟨rfl, hslash, hmore⟩
  · rw [hmore, List.take_zero]
    exact .blank hblank hgap
  · obtain ⟨body, rfl⟩ : ∃ body, rest = '/' :: body := List.head?_eq_some_iff.1 hslash
    have hline : lineEnd ('/' :: body) = '/' :: lineEnd body := by simp [lineEnd]
    rw [hline, List.length_cons] at hmore
    have hdrop : body.drop (lineEnd body).length = body.dropWhile (· ≠ '\n') :=
      (congrArg (List.drop _) List.takeWhile_append_dropWhile.symm).trans List.drop_left
    rw [hmore, List.drop_succ_cons, hdrop] at hrest
    rw [hmore, List.take_succ_cons, lineEnd, take_length_takeWhile]
    refine .comment (newline_not_mem_lineEnd body) (fun d hd => ?_) hgap
    have hhead := List.head?_dropWhile_not (· ≠ '\n') body
    rw [hrest, hd] at hhead
    simpa using hhead

/-! ### Tokens -/

/-- A token with the layout in front of it. -/
structure Word where
  gap : List Char
  token : Token

/-- The text of some words. -/
def textOf (words : List Word) : List Char :=
  words.flatMap fun word => word.gap ++ word.token.lexeme.toList

@[simp] theorem textOf_nil : textOf [] = [] := rfl

@[simp] theorem textOf_cons (word : Word) (words : List Word) :
    textOf (word :: words) = word.gap ++ (word.token.lexeme.toList ++ textOf words) :=
  List.append_assoc word.gap word.token.lexeme.toList (textOf words)

/-- A word stands between two texts: its token is some of the characters, at the place of the first
of them, and there is nothing but layout in front of it. -/
structure Word.Stands (word : Word) (before after : List Char) : Prop where
  kind : word.token.kind ≠ .eof
  lexeme : word.token.lexeme.toList ≠ []
  oneLine : '\n' ∉ word.token.lexeme.toList
  gap : Gap (word.token.lexeme.toList ++ after) word.gap
  location : word.token.location = .behind (before ++ word.gap)

/-- The text `cs`, which comes behind the text `front`, consists of some words and of layout at the
end. Its tokens are those of the words in order, and the token of the end, which stands behind the
last character. -/
structure Cuts (front cs : List Char) (tokens : List Token) (words : List Word)
    (final : List Char) : Prop where
  tokens : tokens = words.map Word.token ++ [⟨.eof, "", .behind (front ++ cs)⟩]
  text : cs = textOf words ++ final
  ending : Gap [] final
  stands : ∀ before word after, words = before ++ word :: after →
    word.Stands (front ++ textOf before) (textOf after ++ final)

namespace Cuts

variable {front cs piece final : List Char} {tokens : List Token} {words : List Word}

theorem nil (front : List Char) : Cuts front [] [⟨.eof, "", .behind front⟩] [] [] where
  tokens := by simp
  text := rfl
  ending := .nil
  stands before word after h := by simp at h

/-- A text that starts with a word. -/
theorem cons {word : Word} (hword : word.Stands front (textOf words ++ final))
    (h : Cuts (front ++ (word.gap ++ word.token.lexeme.toList)) cs tokens words final) :
    Cuts front (word.gap ++ (word.token.lexeme.toList ++ cs)) (word.token :: tokens)
      (word :: words) final where
  tokens := by simp [h.tokens]
  text := by simp [h.text]
  ending := h.ending
  stands before other after heq := by
    cases before with
    | nil =>
        obtain ⟨rfl, rfl⟩ := List.cons.inj heq
        simpa using hword
    | cons first before =>
        obtain ⟨rfl, rfl⟩ := List.cons.inj heq
        simpa using h.stands before other after rfl

/-- Layout in front of the text belongs to the first word, or to the end if there is none. -/
theorem layout (h : Cuts (front ++ piece) cs tokens words final)
    (hpiece : ∀ gap next, cs = gap ++ next → Gap next gap → Gap next (piece ++ gap)) :
    ∃ words final, Cuts front (piece ++ cs) tokens words final := by
  cases words with
  | nil =>
      have hcs : cs = final := h.text
      refine ⟨[], piece ++ final, ?_, ?_, hpiece final [] ?_ h.ending,
        fun before word after heq => ?_⟩
      · simp [h.tokens]
      · simp [hcs]
      · simp [hcs]
      · simp at heq
  | cons first words =>
      have hfirst := h.stands [] first words rfl
      have hcs : cs = first.gap ++ (first.token.lexeme.toList ++ (textOf words ++ final)) := by
        simp [h.text]
      refine ⟨⟨piece ++ first.gap, first.token⟩ :: words, final, ?_, ?_, h.ending,
        fun before word after heq => ?_⟩
      · simp [h.tokens]
      · simp [h.text]
      · cases before with
        | nil =>
            obtain ⟨rfl, rfl⟩ := List.cons.inj heq
            exact ⟨hfirst.kind, hfirst.lexeme, hfirst.oneLine, hpiece _ _ hcs hfirst.gap,
              by simpa using hfirst.location⟩
        | cons other before =>
            obtain ⟨rfl, rfl⟩ := List.cons.inj heq
            simpa using h.stands (first :: before) word after rfl

end Cuts

/-- What is scanned is cut into tokens. -/
theorem exists_cuts_of_scanFrom {front cs : List Char} {tokens : List Token}
    (h : scanFrom (.behind front) cs = .ok tokens) :
    ∃ words final, Cuts front cs tokens words final := by
  -- along the scanner; `front` is what was scanned before
  generalize hlocation : Location.behind front = location at h
  fun_induction scanFrom location cs generalizing front tokens with
  | case1 location =>
      cases h
      subst hlocation
      exact ⟨[], [], .nil front⟩
  | case2 => cases h
  | case3 => cases h
  | case4 location c rest piece hpiece taken later hlater kind hkind =>
      rename_i ih
      cases h
      subst hlocation
      obtain ⟨words, final, hcuts⟩ := ih (after_behind front taken).symm hlater
      obtain ⟨heof, hline⟩ := word_of_pieceAt hpiece hkind
      have hcut : taken ++ rest.drop piece.more = c :: rest :=
        congrArg (c :: ·) (List.take_append_drop piece.more rest)
      have hlexeme : (String.ofList taken).toList = taken := String.toList_ofList
      have hword : Word.Stands ⟨[], ⟨kind, String.ofList taken, .behind front⟩⟩ front
        (textOf words ++ final) :=
        ⟨heof, by simp [taken], by rwa [hlexeme], .nil, by simp⟩
      refine ⟨⟨[], ⟨kind, String.ofList taken, .behind front⟩⟩ :: words, final, ?_⟩
      rw [← hcut]
      simpa [hlexeme] using Cuts.cons hword (by simpa [hlexeme] using hcuts)
  | case5 location c rest piece hpiece taken later hlater hkind =>
      rename_i ih
      cases h
      subst hlocation
      obtain ⟨words, final, hcuts⟩ := ih (after_behind front taken).symm hlater
      have hcut : taken ++ rest.drop piece.more = c :: rest :=
        congrArg (c :: ·) (List.take_append_drop piece.more rest)
      rw [← hcut]
      exact hcuts.layout fun gap next => gap_of_pieceAt hpiece hkind

/-- **Tokens and carets point at the source.** A source that scans consists of its tokens with
layout between them, each token at the place of its first character. An excerpt at the place of a
token shows the line with the token, and its caret is under the first character of the token. An
excerpt at the end has its caret one past the last character. -/
theorem exists_cuts_of_scan {source : String} {tokens : List Token} (h : scan source = .ok tokens) :
    ∃ words final, Cuts [] source.toList tokens words final
      ∧ (∀ before word after, words = before ++ word :: after → ∀ message,
          PointsAt (word.token.location.excerpt source message) message (textOf before ++ word.gap)
            (word.token.lexeme.toList ++ lineEnd (textOf after ++ final)))
      ∧ ∀ message, PointsAt ((Location.behind source.toList).excerpt source message) message
        source.toList [] := by
  have hstart : scanFrom (.behind []) source.toList = .ok tokens := h
  obtain ⟨words, final, hcuts⟩ := exists_cuts_of_scanFrom hstart
  refine ⟨words, final, hcuts, fun before word after heq message => ?_, fun message => ?_⟩
  · have hword := hcuts.stands before word after heq
    have hsource : source.toList = textOf before ++ word.gap
      ++ (word.token.lexeme.toList ++ (textOf after ++ final)) := by
      simp [hcuts.text, heq, textOf]
    have hpoints := pointsAt_excerpt hsource message
    rw [lineEnd, Text.takeWhile_append_of_not_mem hword.oneLine] at hpoints
    rw [hword.location]
    exact hpoints
  · exact pointsAt_excerpt (List.append_nil _).symm message

/-- Tokens on two lines, behind a tab and a comment, with a comment at the end. -/
theorem exists_cuts_of_scan_lines : ∃ tokens words final,
    scan "// sum\n%a =\tarith.addi %b // end" = .ok tokens
      ∧ tokens = [⟨.value, "%a", ⟨1, 0⟩⟩, ⟨.equal, "=", ⟨1, 3⟩⟩, ⟨.bare, "arith.addi", ⟨1, 5⟩⟩,
        ⟨.value, "%b", ⟨1, 16⟩⟩, ⟨.eof, "", ⟨1, 25⟩⟩]
      ∧ Cuts [] "// sum\n%a =\tarith.addi %b // end".toList tokens words final := by
  have hscan : scan "// sum\n%a =\tarith.addi %b // end"
    = .ok [⟨.value, "%a", ⟨1, 0⟩⟩, ⟨.equal, "=", ⟨1, 3⟩⟩,
    ⟨.bare, "arith.addi", ⟨1, 5⟩⟩, ⟨.value, "%b", ⟨1, 16⟩⟩, ⟨.eof, "", ⟨1, 25⟩⟩] := by
      decide +kernel
  obtain ⟨words, final, hcuts, -⟩ := exists_cuts_of_scan hscan
  exact ⟨_, words, final, hscan, rfl, hcuts⟩

end DialectIR.Token
