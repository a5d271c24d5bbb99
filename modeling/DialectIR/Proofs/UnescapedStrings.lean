import DialectIR.Proofs.RoundTrip
import DialectIR.Proofs.Substitution

/-! Strings are written between quotes as they are. A module whose strings hold no quotes is read
back as it was, unless one of them holds a newline: then the text is not read at all. A quote in a
string ends it, and what follows is read as what it looks like. -/

namespace DialectIR

open Token

/-- The text of a string. -/
def Attribute.string? : Attribute → Option String
  | .string text => some text
  | _ => none

/-- The texts of the strings among the attributes. -/
def Head.strings (head : Head) : List String := head.attributes.entries.filterMap (·.2.string?)

def Operation.strings (op : Operation) : List String := op.heads.flatMap Head.strings

/-- The operation can be written, whatever the texts of its strings. -/
structure Head.WritableUpToStrings (context : Context) (head : Head) : Prop where
  bare : ({ head with attributes := .empty } : Head).Writable context
  attributes : ∀ entry ∈ head.attributes.entries, Text.IsBare entry.1
    ∧ (entry.2.Writable ∨ entry.2.string?.isSome = true)

instance (context : Context) (head : Head) : Decidable (head.WritableUpToStrings context) :=
  decidable_of_iff (({ head with attributes := .empty } : Head).Writable context
      ∧ ∀ entry ∈ head.attributes.entries, Text.IsBare entry.1
      ∧ (entry.2.Writable ∨ entry.2.string?.isSome = true))
    ⟨fun ⟨bare, attributes⟩ => ⟨bare, attributes⟩, fun h => ⟨h.bare, h.attributes⟩⟩

theorem Token.inString_of_ne {c : Char} (hquote : c ≠ '"') (hnewline : c ≠ '\n') :
    inString c = true := by
  simp [inString, hquote, hnewline]

/-- What is left is that the strings hold neither quotes nor newlines. -/
theorem Head.WritableUpToStrings.writable {context : Context} {head : Head}
    (h : head.WritableUpToStrings context)
    (hstrings : ∀ text ∈ head.strings, ∀ c ∈ text.toList, inString c = true) :
    head.Writable context := by
  refine ⟨h.bare.name, h.bare.accepted, h.bare.values, h.bare.types, fun entry hentry => ?_⟩
  obtain ⟨hkey, hvalue⟩ := h.attributes entry hentry
  refine ⟨hkey, hvalue.elim id fun hstring => ?_⟩
  obtain ⟨text, htext⟩ := Option.isSome_iff_exists.1 hstring
  have hwritable := hstrings text (List.mem_filterMap.2 ⟨entry, hentry, htext⟩)
  cases hvalue : entry.2 with
  | string text' =>
      rw [hvalue] at htext
      cases htext
      exact hwritable
  | _ =>
      rw [hvalue] at htext
      cases htext

namespace Layout

variable {α : Type}

/-- The text as a word between quotes. -/
def quoted (text : String) : List Char := '"' :: (text.toList ++ ['"'])

/-- The characters of the word of a string. -/
def Item.string? : Item → Option (List Char)
  | .word .string lexeme => some lexeme
  | _ => none

theorem Item.string?_of_ne {kind : Kind} (h : kind ≠ .string) (lexeme : List Char) :
    (Item.word kind lexeme).string? = none := by
  cases kind <;> first | rfl | exact absurd rfl h

theorem strings_listItems {items : α → List Item} (list : List α) :
    (listItems items list).filterMap Item.string? = list.flatMap fun a =>
      (items a).filterMap Item.string? := by
  induction list with
  | nil => rfl
  | cons a rest ih =>
      cases rest with
      | nil => simp [listItems]
      | cons b rest =>
          rw [listItems_cons_cons, List.filterMap_append, List.flatMap_cons, ← ih]
          rfl

theorem strings_tyItems (ty : Ty) : (tyItems ty).filterMap Item.string? = [] := by cases ty <;> rfl

theorem strings_intItems (i : Int) : (intItems i).filterMap Item.string? = [] := by cases i <;> rfl

theorem strings_attributeItems (constant : Attribute) :
    (attributeItems constant).filterMap Item.string? = (constant.string?.map quoted).toList := by
  cases constant with
  | integer value ty =>
      rw [attributeItems, List.filterMap_append, strings_intItems]
      exact strings_tyItems ty
  | float value ty => exact strings_tyItems ty
  | bool value => cases value <;> rfl
  | string text => rfl
  | symbol name => rfl
  | type ty => exact strings_tyItems ty

theorem strings_dictItems (attributes : Attributes) :
    (dictItems attributes).filterMap Item.string?
      = (attributes.entries.filterMap (·.2.string?)).map quoted := by
  have hentry (entry : String × Attribute) :
      (entryItems entry).filterMap Item.string? = (entry.2.string?.map quoted).toList :=
        strings_attributeItems entry.2
  have hlist : (listItems entryItems attributes.entries).filterMap Item.string?
      = (attributes.entries.filterMap (·.2.string?)).map quoted := by
    rw [strings_listItems, List.map_filterMap, List.filterMap_eq_flatMap_toList]
    simp only [hentry]
  rw [dictItems, List.filterMap_cons, List.filterMap_append, hlist]
  exact List.append_nil _

theorem strings_values (values : List Value) :
    (listItems valueItems values).filterMap Item.string? = [] := by
  rw [strings_listItems, List.flatMap_eq_nil_iff]
  exact fun _ _ => rfl

theorem strings_resultItems (results : List Value) :
    (resultItems results).filterMap Item.string? = [] := by
  unfold resultItems
  split
  · rfl
  · rw [List.filterMap_append, strings_values]
    rfl

theorem strings_operandItems (operands : List Value) :
    (operandItems operands).filterMap Item.string? = [] := by
  unfold operandItems
  split
  · rfl
  · exact strings_values operands

theorem strings_typeItems (results : List Value) :
    (typeItems results).filterMap Item.string? = [] := by
  unfold typeItems
  split
  · rfl
  · exact (strings_listItems results).trans
      (List.flatMap_eq_nil_iff.2 fun result _ => strings_tyItems result.ty)

theorem strings_headItems (head : Head) :
    (headItems head).filterMap Item.string? = head.strings.map quoted := by
  have hattributes : (attributesItems head.attributes).filterMap Item.string?
    = head.strings.map quoted := by
    unfold attributesItems
    split
    next hempty => rw [Head.strings, List.isEmpty_iff.1 hempty]; rfl
    next => exact strings_dictItems head.attributes
  rw [headItems, List.filterMap_append, strings_resultItems, List.nil_append, List.filterMap_cons,
    List.filterMap_append,
    strings_operandItems, List.nil_append, List.filterMap_append, hattributes, strings_typeItems,
    List.append_nil]
  rfl

theorem strings_indentItems (depth : ℕ) : (indentItems depth).filterMap Item.string? = [] := by
  rw [List.filterMap_eq_nil_iff]
  intro item hitem
  rw [List.eq_of_mem_replicate hitem]
  rfl

mutual

theorem strings_opItems (depth : ℕ) :
    (op : Operation) → (opItems depth op).filterMap Item.string? = op.strings.map quoted
  | ⟨head, none⟩ => by
      rw [opItems, strings_headItems, Operation.strings, Operation.heads, List.flatMap_singleton]
  | ⟨head, some []⟩ => by
      rw [opItems, List.filterMap_append, strings_headItems, Operation.strings, Operation.heads,
        Operation.headsOfAll, List.flatMap_singleton]
      exact List.append_nil _
  | ⟨head, some (op :: ops)⟩ => by
      have hlines := strings_lineItems (depth + 1) (op :: ops)
      rw [opItems, List.filterMap_append, strings_headItems, Operation.strings, Operation.heads,
        List.flatMap_cons, List.map_append, ← hlines]
      congr 1
      refine (List.filterMap_append : _ = (lineItems (depth + 1) (op :: ops)).filterMap Item.string?
        ++ _).trans ?_
      rw [List.filterMap_append, strings_indentItems]
      exact List.append_nil _

theorem strings_lineItems (depth : ℕ) : (ops : List Operation) →
    (lineItems depth ops).filterMap Item.string?
      = ((Operation.headsOfAll ops).flatMap Head.strings).map quoted
  | [] => rfl
  | op :: ops => by
      rw [lineItems, List.filterMap_append, List.filterMap_append, strings_indentItems,
        List.nil_append,
        strings_opItems depth op, Operation.headsOfAll, List.flatMap_append, List.map_append,
        ← strings_lineItems depth ops]
      rfl

end

end Layout

/-- The dictionary with its values replaced one by one. -/
def Dict.mapValues {α β : Type} (f : α → β) (map : Dict α) : Dict β where
  entries := map.entries.map fun entry => (entry.1, f entry.2)
  sorted := List.pairwise_map.2 map.sorted

/-- The attribute with the newlines taken out of a string. -/
def Attribute.unbroken : Attribute → Attribute
  | .string text => .string (String.ofList (text.toList.filter (· ≠ '\n')))
  | constant => constant

def Head.unbroken (head : Head) : Head :=
  { head with attributes := head.attributes.mapValues Attribute.unbroken }

theorem Head.WritableUpToStrings.writable_unbroken {context : Context} {head : Head}
    (h : head.WritableUpToStrings context)
    (hquotes : ∀ text ∈ head.strings, '"' ∉ text.toList) : head.unbroken.Writable context := by
  refine ⟨h.bare.name, h.bare.accepted, h.bare.values, h.bare.types, fun entry hentry => ?_⟩
  obtain ⟨⟨key, value⟩, hmem, rfl⟩ := List.mem_map.1 hentry
  obtain ⟨hkey, hvalue⟩ := h.attributes _ hmem
  refine ⟨hkey, ?_⟩
  cases value with
  | string text =>
      intro c hc
      rw [String.toList_ofList, List.mem_filter] at hc
      exact inString_of_ne (fun heq => hquotes text (List.mem_filterMap.2 ⟨_, hmem, rfl⟩)
        (heq ▸ hc.1)) (of_decide_eq_true hc.2)
  | _ => exact hvalue.resolve_right Bool.false_ne_true

namespace Layout

variable {α β : Type}

/-- The word with the newlines taken out of a string. -/
def Item.unbroken : Item → Item
  | .word .string lexeme => .word .string (lexeme.filter (· ≠ '\n'))
  | item => item

theorem Item.unbroken_eq {item : Item} (h : item.string? = none) : item.unbroken = item := by
  cases item with
  | blank c => rfl
  | word kind lexeme => cases kind <;> first | rfl | cases h

/-- Words without a string are left as they are. -/
theorem map_unbroken_eq {items : List Item} (h : items.filterMap Item.string? = []) :
    items.map Item.unbroken = items :=
  (List.map_congr_left fun item hitem =>
    Item.unbroken_eq (List.filterMap_eq_nil_iff.1 h item hitem)).trans (List.map_id _)

theorem map_listItems {items : α → List Item} (list : List α) :
    (listItems items list).map Item.unbroken = listItems
      (fun a => (items a).map Item.unbroken) list := by
  induction list with
  | nil => rfl
  | cons a rest ih =>
      cases rest with
      | nil => rfl
      | cons b rest =>
          rw [listItems_cons_cons, listItems_cons_cons, List.map_append, List.map_cons,
            List.map_cons, ih]
          rfl

theorem listItems_map {items : β → List Item} (f : α → β) (list : List α) :
    listItems items (list.map f) = listItems (fun a => items (f a)) list := by
  induction list with
  | nil => rfl
  | cons a rest ih =>
      cases rest with
      | nil => rfl
      | cons b rest =>
          rw [List.map_cons, List.map_cons, listItems_cons_cons, listItems_cons_cons,
            ← List.map_cons, ih]

theorem map_unbroken_attributeItems (constant : Attribute) :
    (attributeItems constant).map Item.unbroken = attributeItems constant.unbroken := by
  cases constant with
  | integer value ty =>
      simp only [attributeItems, Attribute.unbroken, List.map_append, List.map_cons,
        map_unbroken_eq (strings_intItems _), map_unbroken_eq (strings_tyItems _)]
      rfl
  | float value ty =>
      simp only [attributeItems, Attribute.unbroken, List.map_cons,
        map_unbroken_eq (strings_tyItems _)]
      rfl
  | bool value => cases value <;> rfl
  | string text => simp [attributeItems, Attribute.unbroken, Item.unbroken]
  | symbol name => rfl
  | type ty => exact map_unbroken_eq (strings_tyItems ty)

theorem map_unbroken_dictItems (attributes : Attributes) :
    (dictItems attributes).map Item.unbroken = dictItems
      (attributes.mapValues Attribute.unbroken) := by
  have hentry (entry : String × Attribute) :
      (entryItems entry).map Item.unbroken = entryItems (entry.1, entry.2.unbroken) := by
    simp only [entryItems, List.map_cons, map_unbroken_attributeItems]
    rfl
  simp only [dictItems, Dict.mapValues, List.map_cons, List.map_append, map_listItems,
    listItems_map, hentry, List.map_nil]
  rfl

theorem map_unbroken_headItems (head : Head) :
    (headItems head).map Item.unbroken = headItems head.unbroken := by
  have hattributes : (attributesItems head.attributes).map Item.unbroken
      = attributesItems (head.attributes.mapValues Attribute.unbroken) := by
    have hempty : (head.attributes.mapValues Attribute.unbroken).isEmpty
      = head.attributes.isEmpty := List.isEmpty_map
    unfold attributesItems
    rw [hempty]
    split
    · rfl
    · rw [List.map_cons, map_unbroken_dictItems]
      rfl
  simp only [headItems, List.map_append, List.map_cons, map_unbroken_eq (strings_resultItems _),
    map_unbroken_eq (strings_operandItems _), map_unbroken_eq (strings_typeItems _), hattributes]
  rfl

mutual

theorem map_unbroken_opItems (depth : ℕ) :
    (op : Operation) → (opItems depth op).map Item.unbroken
      = opItems depth (op.mapHeads Head.unbroken)
  | ⟨head, none⟩ => by rw [opItems, Operation.mapHeads, opItems, map_unbroken_headItems]
  | ⟨head, some []⟩ => by
      rw [opItems, Operation.mapHeads, Operation.mapHeadsOfAll, opItems, List.map_append,
        map_unbroken_headItems]
      rfl
  | ⟨head, some (op :: ops)⟩ => by
      rw [opItems, Operation.mapHeads, Operation.mapHeadsOfAll, opItems, ← Operation.mapHeadsOfAll]
      simp only [List.map_append, List.map_cons, map_unbroken_headItems,
        map_unbroken_eq (strings_indentItems _), map_unbroken_lineItems (depth + 1) (op :: ops)]
      rfl

theorem map_unbroken_lineItems (depth : ℕ) : (ops : List Operation) →
    (lineItems depth ops).map Item.unbroken = lineItems depth
      (Operation.mapHeadsOfAll Head.unbroken ops)
  | [] => rfl
  | op :: ops => by
      rw [lineItems, Operation.mapHeadsOfAll, lineItems]
      simp only [List.map_append, List.map_cons, map_unbroken_eq (strings_indentItems _),
        map_unbroken_opItems depth op, map_unbroken_lineItems depth ops]
      rfl

end

/-! ### Scanning up to a broken string -/

/-- The texts are the same, or the same up to a quote. -/
def SameUpToQuote (cs ds : List Char) : Prop :=
  cs = ds ∨ ∃ same cs' ds', cs = same ++ '"' :: cs' ∧ ds = same ++ '"' :: ds'

theorem SameUpToQuote.prepend {cs ds : List Char} (h : SameUpToQuote cs ds) (front : List Char) :
    SameUpToQuote (front ++ cs) (front ++ ds) := by
  rcases h with rfl | ⟨same, cs', ds', rfl, rfl⟩
  · exact .inl rfl
  · exact .inr ⟨front ++ same, cs', ds', (List.append_assoc ..).symm, (List.append_assoc ..).symm⟩

theorem takeWhile_quote {p : Char → Bool} (hp : p '"' = false) (cs ds : List Char) :
    (cs ++ '"' :: ds).takeWhile p = cs.takeWhile p := by
  induction cs with
  | nil => simp [hp]
  | cons c cs ih => simp only [List.cons_append, List.takeWhile_cons, ih]

theorem dropWhile_quote {p : Char → Bool} (hp : p '"' = false) (cs ds : List Char) :
    (cs ++ '"' :: ds).dropWhile p = cs.dropWhile p ++ '"' :: ds := by
  induction cs with
  | nil => simp [hp]
  | cons c cs ih =>
      simp only [List.cons_append, List.dropWhile_cons, ih]
      split <;> rfl

theorem numberPiece_quote (cs ds : List Char) : numberPiece (cs ++ '"' :: ds) = numberPiece cs := by
  have hdigit : Char.isDigit '"' = false := rfl
  unfold numberPiece
  rw [takeWhile_quote hdigit, dropWhile_quote hdigit]
  rcases cs.dropWhile Char.isDigit with _ | ⟨c, rest⟩
  · rfl
  · by_cases hc : c = '.'
    · subst hc
      simp only [List.cons_append, takeWhile_quote hdigit]
    · rw [List.cons_append]
      split
      next heq => exact absurd (List.cons.inj heq).1 hc
      next =>
        split
        next heq => exact absurd (List.cons.inj heq).1 hc
        next => rfl

/-- A word other than a string ends before the next quote, whatever stands behind that. -/
theorem pieceAt_quote {c : Char} {kind : Kind} {more : ℕ} {cs ds : List Char}
    (h : pieceAt c cs = .ok ⟨some kind, more⟩) (hkind : kind ≠ .string)
    (hsame : SameUpToQuote cs ds) : pieceAt c ds = .ok ⟨some kind, more⟩ := by
  rcases hsame with rfl | ⟨same, cs', ds', rfl, rfl⟩
  · exact h
  · have hname : continuesName '"' = false := by decide
    unfold pieceAt at h ⊢
    simp only [numberPiece_quote, takeWhile_quote hname] at h ⊢
    split at h
    all_goals try exact h
    · split at h <;> cases h
    · split at h
      · cases h
        exact absurd rfl hkind
      · cases h

/-- The words of strings stand between quotes, and hold none. -/
def Quoted (items : List Item) : Prop :=
  ∀ lexeme ∈ items.filterMap Item.string?, ∃ text : String, lexeme = quoted text ∧ '"' ∉ text.toList

theorem Quoted.tail {item : Item} {items : List Item} (h : Quoted (item :: items)) :
    Quoted items := by
  intro lexeme hlexeme
  refine h lexeme ?_
  rw [List.filterMap_cons]
  split
  · exact hlexeme
  · exact List.mem_cons_of_mem _ hlexeme

theorem Quoted.head {lexeme : List Char} {items : List Item}
    (h : Quoted (.word .string lexeme :: items)) :
    ∃ text : String, lexeme = quoted text ∧ '"' ∉ text.toList := h lexeme List.mem_cons_self

theorem sameUpToQuote_unbroken {items : List Item} (h : Quoted items) :
    SameUpToQuote (chars (items.map Item.unbroken)) (chars items) := by
  induction items with
  | nil => exact .inl rfl
  | cons item items ih =>
      have ih := ih h.tail
      cases item with
      | blank c => exact ih.prepend [c]
      | word kind lexeme =>
          by_cases hkind : kind = .string
          · subst hkind
            obtain ⟨text, rfl, -⟩ := h.head
            exact .inr ⟨[], _, _, rfl, rfl⟩
          · rw [List.map_cons, Item.unbroken_eq (Item.string?_of_ne hkind lexeme)]
            exact ih.prepend lexeme

/-- A newline ends a string before its quote. -/
theorem pieceAt_broken {body : List Char} (hbody : ∀ c ∈ body, inString c = true)
    (next : List Char) :
    pieceAt '"' (body ++ '\n' :: next) = .error .unterminatedString := by
  have htake : (body ++ '\n' :: next).takeWhile inString = body := by
    rw [List.takeWhile_append_of_pos hbody]
    simp [inString]
  simp only [pieceAt, htake]
  rw [if_neg (by simp)]

/-- A string with a newline is where scanning ends. -/
theorem exists_fault_of_broken {items : List Item} (location : Location)
    (h : Separated (items.map Item.unbroken)) (hquoted : Quoted items)
    (hbroken : ∃ lexeme ∈ items.filterMap Item.string?, '\n' ∈ lexeme) :
    ∃ fault, scanFrom location (chars items) = .error fault := by
  induction items generalizing location with
  | nil =>
      obtain ⟨lexeme, hlexeme, -⟩ := hbroken
      cases hlexeme
  | cons item items ih =>
      -- the fault is behind a word that is cut off as it should be
      have hbehind (hfirst : SeparatedBefore (chars items) [item])
        (hwhole : ∀ lexeme, item.string? = some lexeme → '\n' ∉ lexeme)
          (hrest : Separated (items.map Item.unbroken)) : ∃ fault,
            scanFrom location (chars (item :: items)) = .error fault := by
        have hbroken' : ∃ lexeme ∈ items.filterMap Item.string?, '\n' ∈ lexeme := by
          obtain ⟨lexeme, hlexeme, hnewline⟩ := hbroken
          rw [List.filterMap_cons] at hlexeme
          split at hlexeme
          next => exact ⟨lexeme, hlexeme, hnewline⟩
          next hstring =>
            rcases List.mem_cons.1 hlexeme with rfl | hlexeme
            · exact absurd hnewline (hwhole _ hstring)
            · exact ⟨lexeme, hlexeme, hnewline⟩
        obtain ⟨fault, hfault⟩ := ih (location.after (chars [item])) hrest hquoted.tail hbroken'
        refine ⟨fault, ?_⟩
        have hscan := scanFrom_chars_append location hfirst
        rw [hfault, ← chars_append] at hscan
        exact hscan
      cases item with
      | blank c =>
          obtain ⟨hblank, hrest⟩ := h
          exact hbehind ⟨hblank, trivial⟩ nofun hrest
      | word kind lexeme =>
          by_cases hkind : kind = .string
          · subst hkind
            obtain ⟨text, rfl, htext⟩ := hquoted.head
            by_cases hnewline : '\n' ∈ text.toList
            · obtain ⟨front, back, hsplit, hfront⟩ := List.eq_append_cons_of_mem hnewline
              have hin : ∀ c ∈ front, inString c = true := fun c hc => inString_of_ne
                (fun heq => htext (by rw [hsplit, ← heq]; exact List.mem_append_left _ hc))
                  fun heq => hfront (heq ▸ hc)
              refine ⟨(.unterminatedString, location), ?_⟩
              rw [chars_cons, Item.chars, quoted, hsplit, List.cons_append, scanFrom,
                List.append_assoc, List.append_assoc, List.cons_append, pieceAt_broken hin]
            · have hin : ∀ c ∈ text.toList, inString c = true := fun c hc =>
                inString_of_ne (fun heq => htext (heq ▸ hc)) fun heq => hnewline (heq ▸ hc)
              refine hbehind ⟨⟨'"', text.toList ++ ['"'], rfl, ?_⟩, trivial⟩ ?_ h.2
              · rw [List.append_assoc, List.length_append]
                exact pieceAt_string hin _
              · rintro _ ⟨⟩
                simpa [quoted] using hnewline
          · have hstring : Item.string? (.word kind lexeme) = none :=
              Item.string?_of_ne hkind lexeme
            rw [List.map_cons, Item.unbroken_eq hstring] at h
            obtain ⟨⟨c, more, rfl, hpiece⟩, hrest⟩ := h
            refine hbehind ⟨⟨c, more, rfl, ?_⟩, trivial⟩
              (fun _ hsome => by cases hstring.symm.trans hsome) hrest
            exact pieceAt_quote hpiece hkind ((sameUpToQuote_unbroken hquoted.tail).prepend more)

/-- The text of a tree one of whose strings holds a newline, and none a quote, is not scanned. -/
theorem exists_fault_of_scan_text {context : Context} {op : Operation}
    (hheads : ∀ head ∈ op.heads, head.WritableUpToStrings context)
    (hquotes : ∀ text ∈ op.strings, '"' ∉ text.toList)
    (hnewline : ∃ text ∈ op.strings, '\n' ∈ text.toList) :
    ∃ fault, scan op.text = .error fault := by
  have hseparated : Separated ((opItems 0 op).map Item.unbroken) := by
    have hunbroken : ∀ head ∈ (op.mapHeads Head.unbroken).heads, head.Writable context := by
      rw [Operation.heads_mapHeads, List.forall_mem_map]
      exact fun head hhead => (hheads head hhead).writable_unbroken fun text htext =>
        hquotes text (List.mem_flatMap.2 ⟨head, hhead, htext⟩)
    rw [map_unbroken_opItems]
    simpa using separated_op 0 _ hunbroken [] cut_nil
  have hquoted : Quoted (opItems 0 op) := by
    intro lexeme hlexeme
    rw [strings_opItems, List.mem_map] at hlexeme
    obtain ⟨text, htext, rfl⟩ := hlexeme
    exact ⟨text, rfl, hquotes text htext⟩
  have hchars : chars (opItems 0 op) = op.text.toList := chars_opItems 0 op
  rw [scan, ← hchars]
  refine exists_fault_of_broken .start hseparated hquoted ?_
  obtain ⟨text, htext, hnewline⟩ := hnewline
  refine ⟨quoted text, ?_, by simp [quoted, hnewline]⟩
  rw [strings_opItems]
  exact List.mem_map_of_mem htext

end Layout

/-- **Strings without quotes** cannot change what a text is read as. A module that can be written
but for the texts of its strings, none of which holds a quote, is read as itself or, if one of them
holds a newline, not at all. -/
theorem parse_text_eq_ok_iff {context : Context} {m m' : Operation}
    (hmodule : m.name = "builtin.module") (hverify : m.verify = .ok ()) (htyped : m.WellTyped)
    (hwritable : ∀ head ∈ m.heads, head.WritableUpToStrings context)
    (hquotes : ∀ text ∈ m.strings, '"' ∉ text.toList) :
    (parse m.text context).1 = .ok m' ↔ m' = m ∧ ∀ text ∈ m.strings, '\n' ∉ text.toList := by
  by_cases hnewline : ∃ text ∈ m.strings, '\n' ∈ text.toList
  · obtain ⟨fault, hfault⟩ := Layout.exists_fault_of_scan_text hwritable hquotes hnewline
    obtain ⟨text, htext, hnewline⟩ := hnewline
    constructor
    · intro h
      rw [parse, hfault] at h
      cases h
    · rintro ⟨-, hnone⟩
      exact absurd hnewline (hnone text htext)
  · have hnone : ∀ text ∈ m.strings, '\n' ∉ text.toList :=
      fun text htext hmem => hnewline ⟨text, htext, hmem⟩
    have hparse : (parse m.text context).1 = .ok m := by
      refine parse_text hmodule hverify htyped fun head hhead =>
        (hwritable head hhead).writable fun text htext c hc => ?_
      have hmem : text ∈ m.strings := List.mem_flatMap.2 ⟨head, hhead, htext⟩
      exact inString_of_ne (fun heq => hquotes text hmem (heq ▸ hc)) fun heq =>
        hnone text hmem (heq ▸ hc)
    rw [hparse, Except.ok.injEq, eq_comm, and_iff_left hnone]

/-- Strings that look like another attribute, a comment and the end of the dictionary. -/
theorem parse_text_eq_ok_iff_comment : ∃ m : Operation, m.strings = ["a, y = 1 // ", "\x7d"]
    ∧ (parse m.text { allowsUnregistered := true }).1 = .ok m := by
  refine ⟨Operation.module
    [{ name := "test.op",
       attributes := Dict.ofList [("x", .string "a, y = 1 // "), ("z", .string "\x7d")] }],
    by decide +kernel, ?_⟩
  rw [parse_text_eq_ok_iff rfl rfl (by decide +kernel) (by decide +kernel) (by decide +kernel)]
  exact ⟨rfl, by decide +kernel⟩

/-- A string with quotes is read as the end of one string, another attribute and the beginning of
its string. -/
theorem exists_parse_text_ne :
    ∃ m m' : Operation, m.name = "builtin.module" ∧ m.verify = .ok () ∧ m.WellTyped
    ∧ (∀ head ∈ m.heads, head.WritableUpToStrings { allowsUnregistered := true })
    ∧ (parse m.text { allowsUnregistered := true }).1 = .ok m' ∧ m' ≠ m := by
  let m := Operation.module
    [{ name := "test.op", attributes := Dict.ofList [("x", .string "a\", y = \"b")] }]
  let m' := Operation.module
    [{ name := "test.op", attributes := Dict.ofList [("x", .string "a"), ("y", .string "b")] }]
  have htext : m.text = m'.text := by decide +kernel
  refine ⟨m, m', rfl, rfl, by decide +kernel, by decide +kernel, ?_, fun heq => ?_⟩
  · rw [htext]
    exact parse_text rfl rfl (by decide +kernel) (by decide +kernel)
  · exact absurd (congrArg Operation.strings heq) (by decide +kernel)

end DialectIR
