import DialectIR.Proofs.Layout
import DialectIR.Proofs.Numeral
import Mathlib.Data.List.Induction

/-! Excerpts of a source text. A place is known by what precedes it: the number of newlines, and the
characters since the last of them. An excerpt shows the line around the place, and right below it a
caret in the column of the place. -/

namespace DialectIR

namespace Text

/-- The first piece goes up to the first separator. -/
theorem exists_pieces_eq_cons (separator : Char) (cs : List Char) :
    ∃ rest, pieces separator cs = cs.takeWhile (· ≠ separator) :: rest := by
  induction cs with
  | nil => exact ⟨[], rfl⟩
  | cons c cs ih =>
      obtain ⟨rest, hrest⟩ := ih
      rw [pieces]
      by_cases hc : c = separator
      · rw [if_pos hc]
        exact ⟨pieces separator cs, by simp [hc]⟩
      · rw [if_neg hc, hrest]
        exact ⟨rest, by simp [hc]⟩

theorem pieces_append_cons (separator : Char) (cs ds : List Char) :
    pieces separator (cs ++ separator :: ds) = pieces separator cs ++ pieces separator ds := by
  induction cs with
  | nil => simp [pieces]
  | cons c cs ih =>
      obtain ⟨rest, hrest⟩ := exists_pieces_eq_cons separator cs
      rw [List.cons_append, pieces, pieces, ih, hrest]
      split
      · rfl
      · rfl

theorem length_pieces (separator : Char) (cs : List Char) :
    (pieces separator cs).length = cs.count separator + 1 := by
  induction cs with
  | nil => rfl
  | cons c cs ih =>
      obtain ⟨rest, hrest⟩ := exists_pieces_eq_cons separator cs
      rw [hrest] at ih
      rw [pieces]
      by_cases hc : c = separator
      · simp [hc, hrest, ← ih]
      · simp [hc, hrest, ← ih]

theorem takeWhile_eq_self_of_not_mem {separator : Char} {cs : List Char} (h : separator ∉ cs) :
    cs.takeWhile (· ≠ separator) = cs :=
  List.takeWhile_eq_self_iff.2 fun _ hc => decide_eq_true fun heq => h (heq ▸ hc)

theorem takeWhile_append_of_not_mem {separator : Char} {cs : List Char} (h : separator ∉ cs)
    (ds : List Char) :
    (cs ++ ds).takeWhile (· ≠ separator) = cs ++ ds.takeWhile (· ≠ separator) :=
  List.takeWhile_append_of_pos fun _ hc => decide_eq_true fun heq => h (heq ▸ hc)

/-- Text without separators is a piece of its own. -/
theorem pieces_of_not_mem {separator : Char} {cs : List Char} (h : separator ∉ cs) :
    pieces separator cs = [cs] := by
  obtain ⟨rest, hrest⟩ := exists_pieces_eq_cons separator cs
  have hlength := length_pieces separator cs
  rw [hrest, List.count_eq_zero_of_not_mem h, List.length_cons, Nat.add_right_cancel_iff,
    List.length_eq_zero_iff] at hlength
  rw [hrest, hlength, takeWhile_eq_self_of_not_mem h]

theorem toList_repeated (count : Nat) : (repeated " " count).toList = List.replicate count ' ' := by
  induction count with
  | zero => rfl
  | succ count ih =>
      rw [repeated, String.toList_append, ih]
      rfl

theorem newline_not_mem_toString (n : Nat) : '\n' ∉ (toString n).toList := by
  rw [Nat.toString_eq_ofList_toDigits, String.toList_ofList]
  intro h
  cases isDigit_of_mem_toDigits h

end Text

namespace Location

/-- What precedes a place on its line. -/
def lineStart (before : List Char) : List Char := (before.reverse.takeWhile (· ≠ '\n')).reverse

/-- What follows a place on its line. -/
def lineEnd (behind : List Char) : List Char := behind.takeWhile (· ≠ '\n')

/-- The place behind a text: the number of the newlines in the text, and of the characters since the
last of them. -/
def behind (before : List Char) : Location := ⟨before.count '\n', (lineStart before).length⟩

theorem newline_not_mem_lineStart (before : List Char) : '\n' ∉ lineStart before := by
  intro h
  simpa using List.mem_takeWhile_imp (List.mem_reverse.1 h)

theorem newline_not_mem_lineEnd (cs : List Char) : '\n' ∉ lineEnd cs := by
  intro h
  simpa using List.mem_takeWhile_imp h

theorem lineStart_concat (before : List Char) (c : Char) :
    lineStart (before ++ [c]) = if c = '\n' then [] else lineStart before ++ [c] := by
  rw [lineStart, List.reverse_concat, List.takeWhile_cons]
  by_cases hc : c = '\n'
  · simp [hc]
  · simp [hc, lineStart]

/-- A line starts at the start of the text or behind a newline. -/
theorem eq_lineStart_or (before : List Char) :
    before = lineStart before ∨ ∃ above, before = above ++ '\n' :: lineStart before := by
  induction before using List.reverseRecOn with
  | nil => exact .inl rfl
  | append_singleton before c ih =>
      rw [lineStart_concat]
      split
      next hc => exact .inr ⟨before, by rw [hc]⟩
      next =>
        rcases ih with ih | ⟨above, ih⟩
        · exact .inl (congrArg (· ++ [c]) ih)
        · exact .inr ⟨above, (congrArg (· ++ [c]) ih).trans (List.append_assoc _ _ _)⟩

theorem behind_concat (before : List Char) (c : Char) :
    behind (before ++ [c]) = (behind before).next c := by
  rw [behind, behind, next, lineStart_concat, List.count_append]
  split
  next hc => simp [hc]
  next hc => simp [hc]

/-- The place that is counted up character by character is the place behind the text. -/
theorem after_start (cs : List Char) : start.after cs = behind cs := by
  induction cs using List.reverseRecOn with
  | nil => rfl
  | append_singleton cs c ih =>
      rw [Layout.after_append, ih, behind_concat]
      rfl

theorem after_behind (before cs : List Char) :
    (behind before).after cs = behind (before ++ cs) := by
  rw [← after_start, ← after_start, Layout.after_append]

/-- The line of a source around a place in it. -/
theorem toList_sourceLine {source : String} {before rest : List Char}
    (h : source.toList = before ++ rest) :
    (sourceLine source (behind before).line).toList = lineStart before ++ lineEnd rest := by
  have hline (cs : List Char) : (Text.splitNewlines (lineStart before ++ cs)).head?
    = some (lineStart before ++ lineEnd cs) := by
    obtain ⟨pieces, hpieces⟩ := Text.exists_pieces_eq_cons '\n' (lineStart before ++ cs)
    rw [Text.splitNewlines, hpieces, Text.takeWhile_append_of_not_mem (newline_not_mem_lineStart before)]
    rfl
  suffices hget : (Text.splitNewlines source.toList)[before.count '\n']?
    = some (lineStart before ++ lineEnd rest) by
    rw [sourceLine, behind, hget, Option.getD_some, String.toList_ofList]
  rw [h]
  rcases eq_lineStart_or before with hbefore | ⟨above, hbefore⟩
  · have hcount : before.count '\n' = 0 := by
      rw [hbefore]
      exact List.count_eq_zero_of_not_mem (newline_not_mem_lineStart before)
    rw [hcount, ← List.head?_eq_getElem?, ← hline, ← hbefore]
  · have hcount : before.count '\n' = (Text.splitNewlines above).length := by
      rw [Text.splitNewlines, Text.length_pieces, hbefore, List.count_append, List.count_cons_self,
        List.count_eq_zero_of_not_mem (newline_not_mem_lineStart before)]
    have hpieces : Text.splitNewlines (before ++ rest)
        = Text.splitNewlines above ++ Text.splitNewlines (lineStart before ++ rest) := by
      conv_lhs => rw [hbefore, List.append_assoc, List.cons_append]
      exact Text.pieces_append_cons '\n' above _
    rw [hcount, hpieces, List.getElem?_append_right (Nat.le_refl _), Nat.sub_self,
      ← List.head?_eq_getElem?, hline]

/-- What is written in front of a place, on the line of an excerpt that shows it: the number of the
line, a bar, and what precedes the place on its line. -/
def lead (before : List Char) : List Char :=
  (toString (before.count '\n')).toList ++ "  | ".toList ++ lineStart before

/-- The text shows the line around a place, `behind` from the place on, and points at the place: the
line below has a caret under the place, with nothing but blanks before it, and then the message as
far as its first line goes. -/
def PointsAt (text message : String) (before behind : List Char) : Prop :=
  ∃ above below, Text.splitNewlines text.toList = above ++ (lead before ++ behind)
    :: (List.replicate (lead before).length ' ' ++ '^' :: ' ' :: lineEnd message.toList) :: below

/-- The text of an excerpt from the line on that shows the place. -/
theorem exists_toList_excerpt {source : String} {before rest : List Char}
    (h : source.toList = before ++ rest) (message : String) :
    ∃ above : List Char, ((behind before).excerpt source message).toList
      = above ++ '\n' :: (lead before ++ lineEnd rest
        ++ '\n' :: (List.replicate (lead before).length ' ' ++ ['^', ' '] ++ message.toList
          ++ '\n' :: "```".toList)) := by
  have hmargin : (behind before).column + 4 + (toString (behind before).line).length
    = (lead before).length := by
    have hbar : "  | ".toList.length = 4 := rfl
    rw [lead, behind, List.length_append, List.length_append, String.length_toList, hbar]
    dsimp only
    omega
  have hline : (sourceLine source (before.count '\n')).toList = lineStart before ++ lineEnd rest :=
    toList_sourceLine h
  refine ⟨("```" ++ if before.count '\n' = 0 then "" else "\n"
    ++ toString (before.count '\n' - 1) ++ "  | "
    ++ sourceLine source (before.count '\n' - 1)).toList, ?_⟩
  rw [excerpt, hmargin, behind]
  simp only [String.toList_append, hline, Text.toList_repeated]
  simp [lead]

/-- **An excerpt points at its place.** -/
theorem pointsAt_excerpt {source : String} {before rest : List Char}
    (h : source.toList = before ++ rest) (message : String) :
    PointsAt ((behind before).excerpt source message) message before (lineEnd rest) := by
  have hshown : '\n' ∉ lead before ++ lineEnd rest := by
    simp only [lead, List.mem_append, not_or]
    exact ⟨⟨⟨Text.newline_not_mem_toString _, by decide⟩, newline_not_mem_lineStart before⟩,
      newline_not_mem_lineEnd rest⟩
  have hindent : '\n' ∉ List.replicate (lead before).length ' ' ++ ['^', ' '] := by
    simp [List.mem_replicate]
  obtain ⟨above, hexcerpt⟩ := exists_toList_excerpt h message
  obtain ⟨below, hcaret⟩ := Text.exists_pieces_eq_cons '\n'
    (List.replicate (lead before).length ' ' ++ ['^', ' '] ++ message.toList)
  rw [Text.takeWhile_append_of_not_mem hindent] at hcaret
  refine ⟨Text.splitNewlines above, below ++ Text.splitNewlines "```".toList, ?_⟩
  rw [hexcerpt, Text.splitNewlines, Text.pieces_append_cons, Text.pieces_append_cons,
    Text.pieces_of_not_mem hshown, Text.pieces_append_cons, hcaret]
  simp [Text.splitNewlines, lineEnd]

end Location

end DialectIR
