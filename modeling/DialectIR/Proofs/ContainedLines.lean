import DialectIR.ExpectedLines
import Mathlib.Data.List.NodupEquivFin

/-! The check for expected lines that have to occur in order. It looks for each of them behind the
place of the one before and never goes back. This finds places for all of them whenever there are
such places, and otherwise it stops at the first line up to which there are none. -/

namespace DialectIR

theorem Text.occursIn_iff {part whole : List Char} :
    Text.occursIn part whole = true ↔ part <:+: whole := by
  induction whole with
  | nil => simp [Text.occursIn]
  | cons c cs ih => simp [Text.occursIn, ih, List.infix_cons_iff]

theorem Text.joinWith_empty_cons (text : String) (rest : List String) :
    Text.joinWith "" (text :: rest) = text ++ Text.joinWith "" rest := by
  cases rest <;> simp [Text.joinWith]

theorem Text.joinWith_empty_append (texts rest : List String) :
    Text.joinWith "" (texts ++ rest) = Text.joinWith "" texts ++ Text.joinWith "" rest := by
  induction texts with
  | nil => simp [Text.joinWith]
  | cons text texts ih =>
      rw [List.cons_append, joinWith_empty_cons, ih, joinWith_empty_cons, String.append_assoc]

/-- A line of the message, with its number. -/
def LineFault.markedLine (number : Nat) (item : String × Nat) : String :=
  "\n" ++ (item.1 ++ if item.2 = number then "   <== missing" else "")

theorem LineFault.map_markedLine_of_forall_ne (number start : Nat) (lines : List String)
    (hne : ∀ i < lines.length, start + i ≠ number) :
    (lines.zipIdx start).map (markedLine number) = lines.map ("\n" ++ ·) := by
  refine List.ext_getElem (by simp) fun i hi _ => ?_
  simp [markedLine, hne i (by simpa using hi)]

/-- The message shows all expected lines, with a mark behind one of them. -/
theorem LineFault.marked_append (before after : List String) (line : String) :
    LineFault.marked (before ++ line :: after) before.length =
      Text.joinWith "" (before.map ("\n" ++ ·)) ++ "\n" ++ line ++ "   <== missing" ++
        Text.joinWith "" (after.map ("\n" ++ ·)) := by
  have hbefore := map_markedLine_of_forall_ne before.length 0 before (by omega)
  have hafter := map_markedLine_of_forall_ne before.length (before.length + 1) after (by omega)
  calc LineFault.marked (before ++ line :: after) before.length
      = Text.joinWith "" (((before ++ line :: after).zipIdx).map (markedLine before.length)) := rfl
    _ = Text.joinWith "" (before.map ("\n" ++ ·)) ++
          (("\n" ++ (line ++ "   <== missing")) ++ Text.joinWith "" (after.map ("\n" ++ ·))) := by
        rw [List.zipIdx_append, List.map_append, List.zipIdx_cons, List.map_cons, Nat.zero_add,
          hbefore, hafter, Text.joinWith_empty_append, Text.joinWith_empty_cons]
        simp [markedLine]
    _ = _ := by simp only [String.append_assoc]

theorem LineFault.message_notContained (before after : List String) (line caller : String) :
    (LineFault.notContained (before ++ line :: after) before.length).message caller =
      "A line is missing from the output:\n```" ++ Text.joinWith "" (before.map ("\n" ++ ·))
        ++ "\n" ++ line ++
        "   <== missing" ++ Text.joinWith "" (after.map ("\n" ++ ·)) ++ "\n```\nwhen called from "
          ++ caller := by
  calc (LineFault.notContained (before ++ line :: after) before.length).message caller
      = "A line is missing from the output:\n```" ++ marked (before ++ line :: after)
        before.length ++ "\n```\nwhen called from " ++ caller := rfl
    _ = _ := by simp only [marked_append, String.append_assoc]

namespace ExpectedLines

variable {number : Nat} {part : String} {parts fewer lines expecteds actuals : List String}

/-- The lines to look for: the expected lines without the white space around them, and without the
blank ones. -/
def sought (expecteds : List String) : List String := (expecteds.map Text.trim).filter (· ≠ "")

/-- The lines contain the parts in order: there is a line for each part, behind the line for the
part before it. -/
def ContainInOrder (parts lines : List String) : Prop :=
  ∃ place : Fin parts.length → Fin lines.length, StrictMono place ∧
    ∀ i, (parts.get i).toList <:+: (lines.get (place i)).toList

theorem containInOrder_iff :
    ContainInOrder parts lines ↔
      List.SublistForall₂ (fun part line : String => part.toList <:+: line.toList) parts lines := by
  rw [List.sublistForall₂_iff]
  constructor
  · rintro ⟨place, hmono, hcontains⟩
    refine ⟨List.ofFn fun i => lines.get (place i),
      List.forall₂_iff_get.mpr ⟨by simp, fun i hi _ => ?_⟩, ?_⟩
    · simpa using hcontains ⟨i, hi⟩
    · -- the chosen lines are a sublist because their places increase
      refine List.sublist_iff_exists_fin_orderEmbedding_get_eq.mpr ⟨OrderEmbedding.ofStrictMono
        (fun i => place (i.cast List.length_ofFn)) fun i j hlt =>
          hmono (by simpa using hlt), fun i => ?_⟩
      simp
      rfl
  · rintro ⟨chosen, hchosen, hsublist⟩
    obtain ⟨hlength, hcontains⟩ := List.forall₂_iff_get.mp hchosen
    obtain ⟨place, hplace⟩ := List.sublist_iff_exists_fin_orderEmbedding_get_eq.mp hsublist
    refine ⟨fun i => place (i.cast hlength), fun i j hlt =>
      place.strictMono (by simpa using hlt), fun i => ?_⟩
    rw [← hplace]
    exact hcontains i i.isLt (hlength ▸ i.isLt)

theorem ContainInOrder.of_sublist (h : ContainInOrder parts lines) (hfewer : fewer.Sublist parts) :
    ContainInOrder fewer lines := by
  obtain ⟨place, hmono, hcontains⟩ := h
  obtain ⟨kept, hkept⟩ := List.sublist_iff_exists_fin_orderEmbedding_get_eq.mp hfewer
  exact ⟨place ∘ kept, hmono.comp kept.strictMono, fun i => hkept i ▸ hcontains (kept i)⟩

theorem containInOrder_nil : ContainInOrder [] lines := containInOrder_iff.mpr .nil

/-- The first line that contains a part is as good a place for it as any other: the lines behind any
other place are behind this one too. -/
theorem containInOrder_cons_iff :
    ContainInOrder (part :: parts) lines ↔
      ∃ rest, linesBehind? part.toList lines = some rest ∧ ContainInOrder parts rest := by
  induction lines with
  | nil => simp [linesBehind?, containInOrder_iff, List.sublistForall₂_iff]
  | cons line lines ih =>
      by_cases hoccurs : Text.occursIn part.toList line.toList = true
      · simp only [linesBehind?, if_pos hoccurs, Option.some.injEq, exists_eq_left']
        constructor
        · intro h
          rcases containInOrder_iff.mp h with _ | ⟨_, hparts⟩ | hlater
          · exact containInOrder_iff.mpr hparts
          · exact (containInOrder_iff.mpr hlater).of_sublist (List.sublist_cons_self part parts)
        · exact fun h => containInOrder_iff.mpr
            (.cons (Text.occursIn_iff.mp hoccurs) (containInOrder_iff.mp h))
      · simp only [linesBehind?, if_neg hoccurs, ← ih]
        constructor
        · intro h
          rcases containInOrder_iff.mp h with _ | ⟨hcontains, _⟩ | hlater
          · exact absurd (Text.occursIn_iff.mpr hcontains) hoccurs
          · exact containInOrder_iff.mpr hlater
        · exact fun h => containInOrder_iff.mpr (.cons_right (containInOrder_iff.mp h))

theorem sought_cons_of_blank {line : String} (hblank : (Text.trim line).toList.isEmpty = true)
    (rest : List String) :
    sought (line :: rest) = sought rest := by
  have htrim : Text.trim line = "" := by simpa using hblank
  simp [sought, htrim]

theorem sought_cons_of_not_blank {line : String} (hblank : ¬ (Text.trim line).toList.isEmpty = true)
    (rest : List String) : sought (line :: rest) = Text.trim line :: sought rest := by
  have htrim : Text.trim line ≠ "" := by simpa using hblank
  simp [sought, htrim]

theorem sought_sublist (h : fewer.Sublist expecteds) : (sought fewer).Sublist (sought expecteds) :=
  (h.map Text.trim).filter _

/-- What a search comes to: all lines have places, or there is a first line up to which they have
none. -/
theorem firstMissing?_cases (number : Nat) (expecteds actuals : List String) :
    (firstMissing? number expecteds actuals = none ∧ ContainInOrder (sought expecteds) actuals) ∨
    ∃ before line after, expecteds = before ++ line :: after ∧
      firstMissing? number expecteds actuals = some (number + before.length) ∧
      ContainInOrder (sought before) actuals ∧ ¬ ContainInOrder
        (sought (before ++ [line])) actuals := by
  induction expecteds generalizing number actuals with
  | nil => exact .inl ⟨rfl, containInOrder_nil⟩
  | cons expected expecteds ih =>
      by_cases hblank : (Text.trim expected).toList.isEmpty = true
      · have hskip : firstMissing? number (expected :: expecteds) actuals
          = firstMissing? (number + 1) expecteds actuals := by
          simp only [firstMissing?, if_pos hblank]
        simp only [hskip, sought_cons_of_blank hblank]
        refine (ih (number + 1) actuals).imp_right ?_
        rintro ⟨before, line, after, rfl, hnumber, hplaced, hnot⟩
        refine ⟨expected :: before, line, after, rfl, ?_, ?_, ?_⟩
        · rw [hnumber, List.length_cons, Nat.add_right_comm, Nat.add_assoc]
        · rwa [sought_cons_of_blank hblank]
        · rwa [List.cons_append, sought_cons_of_blank hblank]
      · cases hbehind : linesBehind? (Text.trim expected).toList actuals with
        | none =>
            have hstop : firstMissing? number (expected :: expecteds) actuals = some number := by
              simp only [firstMissing?, if_neg hblank, hbehind]
            refine .inr ⟨[], expected, expecteds, rfl, hstop, containInOrder_nil, ?_⟩
            rw [List.nil_append, sought_cons_of_not_blank hblank, containInOrder_cons_iff]
            simp [hbehind]
        | some rest =>
            have hnext : firstMissing? number (expected :: expecteds) actuals =
                firstMissing? (number + 1) expecteds rest := by
              simp only [firstMissing?, if_neg hblank, hbehind]
            have hplaced_iff (lines : List String) :
                ContainInOrder (sought (expected :: lines)) actuals
                  ↔ ContainInOrder (sought lines) rest := by
              rw [sought_cons_of_not_blank hblank, containInOrder_cons_iff]
              simp [hbehind]
            simp only [hnext, hplaced_iff]
            refine (ih (number + 1) rest).imp_right ?_
            rintro ⟨before, line, after, rfl, hnumber, hplaced, hnot⟩
            refine ⟨expected :: before, line, after, rfl, ?_, (hplaced_iff before).mpr hplaced, ?_⟩
            · rw [hnumber, List.length_cons, Nat.add_right_comm, Nat.add_assoc]
            · exact fun h => hnot ((hplaced_iff _).mp h)

/-- The check is complete and blames the right line. It succeeds if and only if the expected lines,
without white space around them and without the blank ones, have places in order among the lines of
the output. Otherwise its fault is about a line such that all shorter beginnings of the expected
lines have places in order, but not the beginning that ends in this line, and the message shows the
expected lines with the mark behind this one. -/
theorem checkContained_spec (actual expected caller : String) :
    (checkContained actual expected = none
      ↔ ContainInOrder (sought (linesOf expected)) (linesOf actual)) ∧
    (checkContained actual expected = none ∨
      ∃ before line after fault, linesOf expected = before ++ line :: after ∧
        (∀ shorter, shorter <+: before → ContainInOrder (sought shorter) (linesOf actual)) ∧
        ¬ ContainInOrder (sought (before ++ [line])) (linesOf actual) ∧
        checkContained actual expected = some fault ∧
        fault = .notContained (linesOf expected) before.length ∧
        fault.message caller =
          "A line is missing from the output:\n```" ++ Text.joinWith "" (before.map ("\n" ++ ·))
            ++ "\n" ++ line ++
            "   <== missing" ++ Text.joinWith "" (after.map ("\n" ++ ·))
              ++ "\n```\nwhen called from " ++ caller) := by
  rcases firstMissing?_cases 0 (linesOf expected) (linesOf actual) with
    ⟨hnone, hplaced⟩ | ⟨before, line, after, hlines, hsome, hplaced, hnot⟩
  · have hcheck : checkContained actual expected = none := by
      rw [checkContained, hnone, Option.map_none]
    exact ⟨iff_of_true hcheck hplaced, .inl hcheck⟩
  · have hcheck : checkContained actual expected = some
      (.notContained (linesOf expected) before.length) := by
      rw [checkContained, hsome, Option.map_some, Nat.zero_add]
    have hbeginning : (before ++ [line]).Sublist (linesOf expected) := by
      rw [hlines]
      exact List.Sublist.append_left (List.singleton_sublist.mpr List.mem_cons_self) before
    refine ⟨iff_of_false (by simp [hcheck]) fun h =>
      hnot (h.of_sublist (sought_sublist hbeginning)), .inr ?_⟩
    refine ⟨before, line, after, .notContained (linesOf expected) before.length, hlines,
      fun shorter hshorter => ?_, hnot, hcheck, rfl, ?_⟩
    · exact hplaced.of_sublist (sought_sublist hshorter.sublist)
    · rw [hlines, LineFault.message_notContained]

end ExpectedLines

end DialectIR
