import DialectIR.Proofs.ValueTokens
import Mathlib.Tactic.IntervalCases

/-! Text that is laid out from words and blanks. If every word ends where it has to, scanning gives
the words back, each at its place. -/

namespace DialectIR.Layout

open Token

/-- A part of laid out text: a word that becomes a token, or a blank character. -/
inductive Item where
  | word (kind : Kind) (lexeme : List Char)
  | blank (c : Char)

/-- The characters of an item. -/
def Item.chars : Item → List Char
  | word _ lexeme => lexeme
  | blank c => [c]

/-- The text of some items. -/
def chars (items : List Item) : List Char := items.flatMap Item.chars

/-- The tokens of the words of a text that starts at a place. -/
def tokensFrom (location : Location) : List Item → List Token
  | [] => []
  | .word kind lexeme :: rest =>
      ⟨kind, String.ofList lexeme, location⟩ :: tokensFrom (location.after lexeme) rest
  | .blank c :: rest => tokensFrom (location.next c) rest

/-- Every word is cut off where it ends, in view of what follows it. -/
def Separated : List Item → Prop
  | [] => True
  | .word kind lexeme :: rest =>
      (∃ c more, lexeme = c :: more ∧ pieceAt c (more ++ chars rest) = .ok ⟨some kind, more.length⟩)
        ∧ Separated rest
  | .blank c :: rest => (c = ' ' ∨ c = '\n') ∧ Separated rest

@[simp] theorem tokensFrom_nil (location : Location) : tokensFrom location [] = [] := rfl

@[simp] theorem tokensFrom_word (location : Location) (kind : Kind) (lexeme : List Char)
    (rest : List Item) :
    tokensFrom location (.word kind lexeme :: rest)
      = ⟨kind, String.ofList lexeme, location⟩ :: tokensFrom (location.after lexeme) rest := rfl

@[simp] theorem tokensFrom_blank (location : Location) (c : Char) (rest : List Item) :
    tokensFrom location (.blank c :: rest) = tokensFrom (location.next c) rest := rfl

@[simp] theorem chars_nil : chars [] = [] := rfl

@[simp] theorem chars_cons (item : Item) (items : List Item) :
    chars (item :: items) = item.chars ++ chars items := rfl

@[simp] theorem chars_append (items more : List Item) :
    chars (items ++ more) = chars items ++ chars more :=
  List.flatMap_append

theorem after_append (location : Location) (cs ds : List Char) :
    location.after (cs ++ ds) = (location.after cs).after ds :=
  List.foldl_append

theorem tokensFrom_append (location : Location) (items more : List Item) :
    tokensFrom location (items ++ more)
      = tokensFrom location items ++ tokensFrom (location.after (chars items)) more := by
  induction items generalizing location with
  | nil => rfl
  | cons item items ih =>
      rw [chars_cons, after_append]
      cases item with
      | word kind lexeme => simp only [List.cons_append, tokensFrom, ih, Item.chars]
      | blank c =>
          simp only [List.cons_append, tokensFrom, ih, Item.chars]
          rfl

/-- The classes of the words. -/
def kinds : List Item → List Kind
  | [] => []
  | .word kind _ :: rest => kind :: kinds rest
  | .blank _ :: rest => kinds rest

@[simp] theorem kinds_append (items more : List Item) :
    kinds (items ++ more) = kinds items ++ kinds more := by
  induction items with
  | nil => rfl
  | cons item items ih =>
      cases item with
      | word kind lexeme => rw [List.cons_append, kinds, ih, kinds, List.cons_append]
      | blank c => rw [List.cons_append, kinds, ih, kinds]

/-- The classes of the words do not depend on where the text starts. -/
@[simp] theorem map_kind_tokensFrom (location : Location) (items : List Item) :
    (tokensFrom location items).map Token.kind = kinds items := by
  induction items generalizing location with
  | nil => rfl
  | cons item items ih =>
      cases item with
      | word kind lexeme => rw [tokensFrom, List.map_cons, ih, kinds]
      | blank c => rw [tokensFrom, ih, kinds]

theorem line_le_after (location : Location) (cs : List Char) :
    location.line ≤ (location.after cs).line := by
  induction cs generalizing location with
  | nil => exact Nat.le_refl _
  | cons c cs ih =>
      refine Nat.le_trans ?_ (ih (location.next c))
      unfold Location.next
      split
      · exact Nat.le_succ _
      · exact Nat.le_refl _

/-- Text without newlines stays on its line. -/
theorem line_after {cs : List Char} (h : ∀ c ∈ cs, c ≠ '\n') (location : Location) :
    (location.after cs).line = location.line := by
  induction cs generalizing location with
  | nil => rfl
  | cons c cs ih =>
      have hnext : (location.next c).line = location.line := by
        rw [Location.next, if_neg (h c List.mem_cons_self)]
      exact (ih (fun d hd => h d (List.mem_cons_of_mem _ hd)) _).trans hnext

/-- No word of a text stands on an earlier line than the text starts on. -/
theorem line_le_of_mem_tokensFrom {location : Location} {items : List Item} {token : Token}
    (h : token ∈ tokensFrom location items) : location.line ≤ token.location.line := by
  induction items generalizing location with
  | nil => cases h
  | cons item items ih =>
      cases item with
      | word kind lexeme =>
          rcases List.mem_cons.1 h with rfl | h
          · exact Nat.le_refl _
          · exact Nat.le_trans (line_le_after location lexeme) (ih h)
      | blank c => exact Nat.le_trans (line_le_after location [c]) (ih h)

theorem pieceAt_blank {c : Char} (h : c = ' ' ∨ c = '\n') (rest : List Char) :
    pieceAt c rest = .ok ⟨none, 0⟩ := by
  rcases h with rfl | rfl <;> rfl

/-- Every word is cut off where it ends, in view of what follows it among the items and of the text
behind them. -/
def SeparatedBefore (next : List Char) : List Item → Prop
  | [] => True
  | .word kind lexeme :: rest =>
      (∃ c more, lexeme = c :: more ∧ pieceAt c (more ++ (chars rest ++ next))
        = .ok ⟨some kind, more.length⟩)
        ∧ SeparatedBefore next rest
  | .blank c :: rest => (c = ' ' ∨ c = '\n') ∧ SeparatedBefore next rest

theorem separatedBefore_nil_iff {items : List Item} :
    SeparatedBefore [] items ↔ Separated items := by
  induction items with
  | nil => exact Iff.rfl
  | cons item items ih =>
      cases item with
      | word kind lexeme => simp only [SeparatedBefore, Separated, List.append_nil, ih]
      | blank c => simp only [SeparatedBefore, Separated, ih]

/-- Scanning goes through laid out text word by word, up to the text behind it. -/
theorem scanFrom_chars_append {items : List Item} {next : List Char} (location : Location)
    (h : SeparatedBefore next items) :
    scanFrom location (chars items ++ next)
      = (scanFrom (location.after (chars items)) next).map (tokensFrom location items ++ ·) := by
  induction items generalizing location with
  | nil =>
      have hafter : location.after (chars []) = location := rfl
      rw [hafter, chars_nil, List.nil_append]
      cases scanFrom location next <;> rfl
  | cons item items ih =>
      cases item with
      | word kind lexeme =>
          obtain ⟨⟨c, more, rfl, hpiece⟩, hrest⟩ := h
          rw [chars_cons, Item.chars, List.append_assoc, List.cons_append, scanFrom, hpiece]
          have hafter : location.after (c :: more ++ chars items)
            = (location.after (c :: more)).after (chars items) :=
            after_append location (c :: more) (chars items)
          simp only [List.take_left, List.drop_left, ih _ hrest, hafter]
          cases scanFrom ((location.after (c :: more)).after (chars items)) next <;> rfl
      | blank c =>
          obtain ⟨hblank, hrest⟩ := h
          rw [chars_cons, Item.chars, List.append_assoc, List.cons_append, List.nil_append,
            scanFrom, pieceAt_blank hblank]
          have hafter : location.after ([c] ++ chars items) = (location.after [c]).after
            (chars items) :=
            after_append location [c] (chars items)
          simp only [List.take_zero, List.drop_zero, ih _ hrest, hafter]
          cases scanFrom ((location.after [c]).after (chars items)) next <;> rfl

/-- Scanning laid out text gives its words, and the end of the text behind them. -/
theorem scanFrom_chars {items : List Item} (location : Location) (h : Separated items) :
    scanFrom location (chars items)
      = .ok (tokensFrom location items ++ [⟨.eof, "", location.after (chars items)⟩]) := by
  have hscan := scanFrom_chars_append location (separatedBefore_nil_iff.2 h)
  rw [List.append_nil, scanFrom] at hscan
  exact hscan

/-! ### Words -/

/-- No name goes on into the text. -/
def Stops (next : List Char) : Prop := ∀ c, next.head? = some c → continuesName c = false

theorem takeWhile_of_stops {more next : List Char} (hmore : ∀ c ∈ more, continuesName c = true)
    (hnext : Stops next) : (more ++ next).takeWhile continuesName = more := by
  rw [List.takeWhile_append_of_pos hmore]
  cases next with
  | nil => simp
  | cons c rest => simp [hnext c rfl]

theorem continuesName_of_isDigit {c : Char} (h : c.isDigit = true) : continuesName c = true := by
  have hascii : c.toNat < 0x80 := by
    rw [Char.isDigit_iff_toNat] at h
    have : '9'.toNat = 57 := rfl
    omega
  simp [continuesName, Text.isNumber, hascii, h]

theorem startsName_of_isDigit {c : Char} (h : c.isDigit = true) : startsName c = false := by
  obtain ⟨hlow, hhigh⟩ := Char.isDigit_iff_toNat.1 h
  have hlow' : 48 ≤ c.toNat := hlow
  have hhigh' : c.toNat ≤ 57 := hhigh
  rw [← Char.ofNat_toNat c]
  generalize c.toNat = n at hlow' hhigh'
  interval_cases n <;> rfl

/-- A name is read as far as its characters go. -/
theorem pieceAt_name {c : Char} {more next : List Char} (hc : startsName c = true)
    (hmore : ∀ d ∈ more, continuesName d = true) (hnext : Stops next) :
    pieceAt c (more ++ next) = .ok (namePiece (c :: more)) := by
  unfold pieceAt
  split
  all_goals try (cases hc)
  rw [takeWhile_of_stops hmore hnext, if_neg, if_pos hc]
  intro hdigit
  rw [startsName_of_isDigit hdigit] at hc
  cases hc

/-- What does not go on with a name does not go on with a number. -/
theorem Stops.endsNumber {next : List Char} (h : Stops next) {c : Char} (hc : next.head? = some c) :
    c.isDigit = false ∧ c ≠ '.' := by
  have hstop := h c hc
  constructor
  · rw [Bool.eq_false_iff]
    intro hdigit
    rw [continuesName_of_isDigit hdigit] at hstop
    cases hstop
  · rintro rfl
    cases hstop

theorem takeWhile_isDigit {more next : List Char} (hmore : ∀ d ∈ more, d.isDigit = true)
    (hnext : ∀ d, next.head? = some d → d.isDigit = false) :
    (more ++ next).takeWhile Char.isDigit = more
      ∧ (more ++ next).dropWhile Char.isDigit = next := by
  rw [List.takeWhile_append_of_pos hmore, List.dropWhile_append_of_pos hmore]
  cases next with
  | nil => simp
  | cons d rest => simp [hnext d rfl]

theorem pieceAt_number {c : Char} (hc : c.isDigit = true) (rest : List Char) :
    pieceAt c rest = .ok (numberPiece rest) := by
  unfold pieceAt
  split
  all_goals try (cases hc)
  rw [if_pos hc]

theorem pieceAt_digits {c : Char} {more next : List Char} (hc : c.isDigit = true)
    (hmore : ∀ d ∈ more, d.isDigit = true)
    (hnext : ∀ d, next.head? = some d → d.isDigit = false ∧ d ≠ '.') :
    pieceAt c (more ++ next) = .ok ⟨some .integer, more.length⟩ := by
  obtain ⟨htake, hdrop⟩ := takeWhile_isDigit hmore fun d hd => (hnext d hd).1
  rw [pieceAt_number hc, numberPiece, htake, hdrop]
  split
  next fraction => exact absurd rfl (hnext '.' rfl).2
  next => rfl

/-- Digits behind a point belong to the number. -/
theorem pieceAt_point {c : Char} {more fraction next : List Char} (hc : c.isDigit = true)
    (hmore : ∀ d ∈ more, d.isDigit = true) (hne : fraction ≠ [])
    (hfraction : ∀ d ∈ fraction, d.isDigit = true)
    (hnext : ∀ d, next.head? = some d → d.isDigit = false) :
    pieceAt c (more ++ '.' :: (fraction ++ next)) = .ok
      ⟨some .float, more.length + 1 + fraction.length⟩ := by
  obtain ⟨htake, hdrop⟩ := @takeWhile_isDigit more ('.' :: (fraction ++ next)) hmore
    (by rintro d ⟨⟩; rfl)
  rw [pieceAt_number hc, numberPiece, htake, hdrop]
  simp only [(takeWhile_isDigit hfraction hnext).1, List.isEmpty_eq_false_iff.2 hne,
    Bool.false_eq_true, if_false]

/-- A string is read up to the quote that ends it. -/
theorem pieceAt_string {body : List Char} (hbody : ∀ c ∈ body, inString c = true)
    (next : List Char) :
    pieceAt '"' (body ++ '"' :: next) = .ok ⟨some .string, body.length + 1⟩ := by
  have htake : (body ++ '"' :: next).takeWhile inString = body := by
    rw [List.takeWhile_append_of_pos hbody]
    simp [inString]
  simp only [pieceAt, htake]
  rw [if_pos (by simp)]

end DialectIR.Layout
