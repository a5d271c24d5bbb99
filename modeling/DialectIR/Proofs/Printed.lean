import DialectIR.Operation.Print
import DialectIR.Proofs.Layout
import DialectIR.Proofs.Numeral
import DialectIR.Proofs.WellFormed

/-! The printed form as laid out text: which words and blanks a tree is printed as, and that every
word ends where it has to if the names in the tree are names of the textual form. -/

namespace DialectIR

open Token

/-- The text is scanned as a name by itself, and is no word for a truth value. -/
def Text.IsBare (text : String) : Prop :=
  (∃ c cs, text.toList = c :: cs ∧ startsName c = true ∧ c ≠ '@' ∧ c ≠ '%'
    ∧ ∀ d ∈ cs, continuesName d = true)
    ∧ text ≠ "true" ∧ text ≠ "false"

/-- The text consists of characters of names; it may be empty. -/
def Text.IsNamePart (text : String) : Prop := ∀ c ∈ text.toList, continuesName c = true

/-- The type is read back from how it is written. -/
def Ty.Writable : Ty → Prop
  | .foreign name => Text.IsBare name
  | ty => ty.Readable

/-- The attribute is read back from how it is written. A string has to do without quotes and
newlines, as there are no escapes. -/
def Attribute.Writable : Attribute → Prop
  | .integer value ty => ty.truncate value = value ∧ ty.Writable
  | .float _ _ => False
  | .bool _ => True
  | .string text => ∀ c ∈ text.toList, inString c = true
  | .symbol name => Text.IsNamePart name
  | .type ty => ty.Writable

-- To decide this for all characters there are would take too long.
instance (text : String) : Decidable (Text.IsBare text) :=
  match h : text.toList with
  | [] => isFalse (by simp [Text.IsBare, h])
  | c :: cs =>
      have : Decidable (∀ d ∈ cs, continuesName d = true) := List.decidableBAll _ cs
      decidable_of_iff ((startsName c = true ∧ c ≠ '@' ∧ c ≠ '%' ∧ ∀ d ∈ cs, continuesName d = true)
      ∧ text ≠ "true" ∧ text ≠ "false") (by simp [Text.IsBare, h])

instance (text : String) : Decidable (Text.IsNamePart text) :=
  List.decidableBAll (continuesName · = true) text.toList

instance : (ty : Ty) → Decidable ty.Writable
  | .int bits => inferInstanceAs (Decidable (1 ≤ bits.toNat ∧ bits.toNat ≤ 128))
  | .index => isTrue trivial
  | .float bits => inferInstanceAs (Decidable (bits = 16 ∨ bits = 32 ∨ bits = 64))
  | .none => isTrue trivial
  | .foreign name => inferInstanceAs (Decidable (Text.IsBare name))

instance : (constant : Attribute) → Decidable constant.Writable
  | .integer value ty => inferInstanceAs (Decidable (ty.truncate value = value ∧ ty.Writable))
  | .float _ _ => isFalse id
  | .bool _ => isTrue trivial
  | .string text => List.decidableBAll (inString · = true) text.toList
  | .symbol name => inferInstanceAs (Decidable (Text.IsNamePart name))
  | .type ty => inferInstanceAs (Decidable ty.Writable)

instance (context : Context) (name : OpName) : Decidable (context.Accepts name) :=
  inferInstanceAs
    (Decidable (context.allowsUnregistered = true ∨ (context.definition? name).isSome = true))

/-- The operation without its region is read back in a context from how it is written. -/
structure Head.Writable (context : Context) (head : Head) : Prop where
  name : Text.IsBare head.name.text ∧ head.name.text ≠ "module"
  accepted : context.Accepts head.name
  values : ∀ value ∈ head.operands ++ head.results, Text.IsNamePart value.name
  types : ∀ result ∈ head.results, result.ty.Writable
  attributes : ∀ entry ∈ head.attributes.entries, Text.IsBare entry.1 ∧ entry.2.Writable

instance (context : Context) (head : Head) : Decidable (head.Writable context) :=
  decidable_of_iff ((Text.IsBare head.name.text ∧ head.name.text ≠ "module")
    ∧ context.Accepts head.name
      ∧ (∀ value ∈ head.operands ++ head.results, Text.IsNamePart value.name)
      ∧ (∀ result ∈ head.results, result.ty.Writable)
      ∧ ∀ entry ∈ head.attributes.entries, Text.IsBare entry.1 ∧ entry.2.Writable)
    ⟨fun ⟨name, accepted, values, types, attributes⟩ => ⟨name, accepted, values, types, attributes⟩,
      fun h => ⟨h.name, h.accepted, h.values, h.types, h.attributes⟩⟩

namespace Layout

/-- A space between two words. -/
def space : Item := .blank ' '

/-- A list between commas. -/
def listItems {α : Type} (items : α → List Item) : List α → List Item
  | [] => []
  | [a] => items a
  | a :: rest => items a ++ .word .comma [','] :: space :: listItems items rest

theorem listItems_cons_cons {α : Type} (items : α → List Item) (a b : α) (rest : List α) :
    listItems items (a :: b :: rest) = items a ++ .word .comma [','] :: space :: listItems items
      (b :: rest) := by
  rw [listItems]
  simp

def tyItems : Ty → List Item
  | .foreign name => [.word .exclamation ['!'], .word .bare name.toList]
  | ty => [.word .bare ty.text.toList]

def valueItems (value : Value) : List Item := [.word .value ('%' :: value.name.toList)]

def intItems : Int → List Item
  | .ofNat n => [.word .integer (Nat.toDigits 10 n)]
  | .negSucc n => [.word .minus ['-'], .word .integer (Nat.toDigits 10 (n + 1))]

def attributeItems : Attribute → List Item
  | .integer value ty => intItems value.toInt ++ space :: .word .colon [':'] :: space :: tyItems ty
  | .float value ty =>
      .word .float value.text.toList :: space :: .word .colon [':'] :: space :: tyItems ty
  | .bool value => [if value then .word .true "true".toList else .word .false "false".toList]
  | .string text => [.word .string ('"' :: (text.toList ++ ['"']))]
  | .symbol name => [.word .symbol ('@' :: name.toList)]
  | .type ty => tyItems ty

def entryItems (entry : String × Attribute) : List Item :=
  .word .bare entry.1.toList :: space :: .word .equal ['='] :: space :: attributeItems entry.2

def dictItems (attributes : Attributes) : List Item :=
  .word .lbrace ['\x7b'] :: (listItems entryItems attributes.entries ++ [.word .rbrace ['\x7d']])

/-- The word that an operation is named by. -/
def nameWord (name : OpName) : String := if name = "builtin.module" then "module" else name.text

/-- The results with the equals sign behind them. -/
def resultItems (results : List Value) : List Item :=
  if results.isEmpty then [] else listItems valueItems results ++ [space, .word .equal ['='], space]

def operandItems (operands : List Value) : List Item :=
  if operands.isEmpty then [] else space :: listItems valueItems operands

def attributesItems (attributes : Attributes) : List Item :=
  if attributes.isEmpty then [] else space :: dictItems attributes

/-- The types of the results behind a colon. -/
def typeItems (results : List Value) : List Item :=
  if results.isEmpty then [] else
    space :: .word .colon [':'] :: space :: listItems (fun result => tyItems result.ty) results

def headItems (head : Head) : List Item :=
  resultItems head.results ++ .word .bare (nameWord head.name).toList
    :: (operandItems head.operands ++ (attributesItems head.attributes ++ typeItems head.results))

/-- The blanks in front of a line. -/
def indentItems (depth : Nat) : List Item := .replicate (2 * depth) space

mutual

def opItems (depth : Nat) : Operation → List Item
  | ⟨head, none⟩ => headItems head
  | ⟨head, some []⟩ => headItems head ++ [space, .word .lbrace ['\x7b'], .word .rbrace ['\x7d']]
  | ⟨head, some (op :: ops)⟩ =>
      headItems head ++ space :: .word .lbrace ['\x7b'] :: .blank '\n'
        :: (lineItems (depth + 1) (op :: ops) ++ (indentItems depth ++ [.word .rbrace ['\x7d']]))

def lineItems (depth : Nat) : List Operation → List Item
  | [] => []
  | op :: ops => indentItems depth ++ (opItems depth op ++ .blank '\n' :: lineItems depth ops)

end

/-- The region behind the head of an operation. -/
def regionItems (depth : Nat) : Option (List Operation) → List Item
  | none => []
  | some [] => [space, .word .lbrace ['\x7b'], .word .rbrace ['\x7d']]
  | some (op :: ops) =>
      space :: .word .lbrace ['\x7b'] :: .blank '\n'
        :: (lineItems (depth + 1) (op :: ops) ++ (indentItems depth ++ [.word .rbrace ['\x7d']]))

theorem opItems_eq (depth : Nat) (op : Operation) :
    opItems depth op = headItems op.toHead ++ regionItems depth op.region := by
  obtain ⟨head, _ | _ | ⟨op, ops⟩⟩ := op
  · rw [opItems, regionItems, List.append_nil]
  · rw [opItems, regionItems]
  · rw [opItems, regionItems]

theorem chars_listItems {α : Type} {items : α → List Item} {text : α → String}
    (h : ∀ a, chars (items a) = (text a).toList) (list : List α) :
    chars (listItems items list) = (Text.joinWith ", " (list.map text)).toList := by
  induction list with
  | nil => rfl
  | cons a rest ih =>
      cases rest with
      | nil => simp [listItems, Text.joinWith, h]
      | cons b rest =>
          rw [listItems_cons_cons, List.map_cons, List.map_cons, Text.joinWith, ← List.map_cons]
          · simp [h, ih, space, Item.chars]
          · simp

theorem chars_tyItems (ty : Ty) : chars (tyItems ty) = ty.text.toList := by
  cases ty <;> simp [tyItems, Ty.text, Item.chars]

theorem chars_valueItems (value : Value) : chars (valueItems value) = value.text.toList := by
  simp [valueItems, Value.text, Item.chars]

theorem chars_intItems (i : Int) : chars (intItems i) = (toString i).toList := by
  cases i with
  | ofNat n =>
      show Nat.toDigits 10 n ++ [] = (Nat.repr n).toList
      rw [Nat.toList_repr, List.append_nil]
  | negSucc n =>
      show '-' :: (Nat.toDigits 10 (n + 1) ++ []) = ("-" ++ Nat.repr (n + 1)).toList
      rw [String.toList_append, Nat.toList_repr, List.append_nil]
      rfl

theorem chars_attributeItems (constant : Attribute) :
    chars (attributeItems constant) = constant.text.toList := by
  cases constant with
  | integer value ty =>
      simp [attributeItems, Attribute.text, chars_intItems, chars_tyItems, space, Item.chars]
  | float value ty => simp [attributeItems, Attribute.text, chars_tyItems, space, Item.chars]
  | bool value => cases value <;> simp [attributeItems, Attribute.text, Item.chars]
  | string text => simp [attributeItems, Attribute.text, Item.chars]
  | symbol name => simp [attributeItems, Attribute.text, Item.chars]
  | type ty => exact chars_tyItems ty

theorem chars_entryItems (entry : String × Attribute) :
    chars (entryItems entry) = (entry.1 ++ " = " ++ entry.2.text).toList := by
  simp [entryItems, chars_attributeItems, space, Item.chars]

theorem chars_dictItems (attributes : Attributes) :
    chars (dictItems attributes) = attributes.text.toList := by
  simp [dictItems, Attributes.text, chars_listItems chars_entryItems, Item.chars]

theorem chars_headItems (head : Head) : chars (headItems head) = head.text.toList := by
  have hvalues := chars_listItems chars_valueItems
  have htypes := chars_listItems (fun result : Value => chars_tyItems result.ty) head.results
  have hresults : chars (resultItems head.results) = (if head.results.isEmpty then ""
      else Text.joinWith ", " (head.results.map Value.text) ++ " = ").toList := by
    unfold resultItems
    split
    · rfl
    · simp [hvalues, space, Item.chars]
  have hoperands : chars (operandItems head.operands) = (if head.operands.isEmpty then ""
      else " " ++ Text.joinWith ", " (head.operands.map Value.text)).toList := by
    unfold operandItems
    split
    · rfl
    · simp [hvalues, space, Item.chars]
  have hattributes : chars (attributesItems head.attributes) = (if head.attributes.isEmpty then ""
      else " " ++ Attributes.text head.attributes).toList := by
    unfold attributesItems
    split
    · rfl
    · simp [chars_dictItems, space, Item.chars]
  have hcolon : chars (typeItems head.results) = (if head.results.isEmpty then ""
      else " : " ++ Text.joinWith ", " (head.results.map fun result => result.ty.text)).toList := by
    unfold typeItems
    split
    · rfl
    · simp [htypes, space, Item.chars]
  simp only [headItems, Head.text, chars_append, chars_cons, Item.chars, String.toList_append,
    hresults, hoperands, hattributes, hcolon, nameWord, List.append_assoc]

theorem chars_indentItems (depth : Nat) :
    chars (indentItems depth) = (Text.indentation depth).toList := by
  rw [Text.indentation, Int.toNat_natCast, indentItems]
  induction depth with
  | zero => rfl
  | succ depth ih =>
      rw [Text.repeated, String.toList_append, ← ih, Nat.mul_succ, List.replicate_succ,
        List.replicate_succ]
      rfl

mutual

theorem chars_opItems (depth : Nat) :
    (op : Operation) → chars (opItems depth op) = (op.textAt depth).toList
  | ⟨head, none⟩ => by rw [opItems, Operation.textAt, chars_headItems]
  | ⟨head, some []⟩ => by
      simp [opItems, Operation.textAt, chars_headItems, space, Item.chars]
  | ⟨head, some (op :: ops)⟩ => by
      rw [opItems, Operation.textAt]
      simp [chars_headItems, chars_lineItems (depth + 1) (op :: ops), chars_indentItems,
        space, Item.chars]

theorem chars_lineItems (depth : Nat) :
    (ops : List Operation) → chars (lineItems depth ops) = (Operation.linesAt depth ops).toList
  | [] => rfl
  | op :: ops => by
      rw [lineItems, Operation.linesAt]
      simp [chars_indentItems, chars_opItems depth op, chars_lineItems depth ops, Item.chars]

end

/-! ### Words end where they have to -/

/-- A text that does not go on with a name, and whose own words end where they have to. -/
structure Cut (rest : List Item) : Prop where
  stops : Stops (chars rest)
  separated : Separated rest

theorem cut_nil : Cut [] := ⟨nofun, trivial⟩

theorem cut_blank {c : Char} (hc : c = ' ' ∨ c = '\n') {rest : List Item} (h : Separated rest) :
    Cut (.blank c :: rest) := by
  refine ⟨?_, hc, h⟩
  rintro d ⟨⟩
  rcases hc with rfl | rfl <;> decide

theorem cut_space {rest : List Item} (h : Separated rest) : Cut (space :: rest) :=
  cut_blank (.inl rfl) h

/-- A word of a single character that has no part in names. -/
theorem cut_mark {kind : Kind} {c : Char} (hpiece : ∀ more, pieceAt c more = .ok ⟨some kind, 0⟩)
    (hc : continuesName c = false) {rest : List Item} (h : Separated rest) :
    Cut (.word kind [c] :: rest) := by
  refine ⟨?_, ⟨c, [], rfl, hpiece _⟩, h⟩
  rintro d ⟨⟩
  exact hc

theorem cut_colon {rest : List Item} (h : Separated rest) : Cut (.word .colon [':'] :: rest) :=
  cut_mark (fun _ => rfl) (by decide) h

theorem cut_comma {rest : List Item} (h : Separated rest) : Cut (.word .comma [','] :: rest) :=
  cut_mark (fun _ => rfl) (by decide) h

theorem cut_equal {rest : List Item} (h : Separated rest) : Cut (.word .equal ['='] :: rest) :=
  cut_mark (fun _ => rfl) (by decide) h

theorem cut_lbrace {rest : List Item} (h : Separated rest) : Cut (.word .lbrace ['\x7b'] :: rest) :=
  cut_mark (fun _ => rfl) (by decide) h

theorem cut_rbrace {rest : List Item} (h : Separated rest) : Cut (.word .rbrace ['\x7d'] :: rest) :=
  cut_mark (fun _ => rfl) (by decide) h

theorem namePiece_bare {c : Char} {more : List Char} (hat : c ≠ '@') (hpercent : c ≠ '%')
    (htrue : c :: more ≠ "true".toList) (hfalse : c :: more ≠ "false".toList) :
    namePiece (c :: more) = ⟨some .bare, more.length⟩ := by
  unfold namePiece
  simp only [if_neg htrue, if_neg hfalse, List.length_cons, Nat.add_sub_cancel]
  split
  next heq => exact absurd (List.cons.inj heq).1 hat
  next heq => exact absurd (List.cons.inj heq).1 hpercent
  next => rfl

theorem separated_bare {text : String} (htext : Text.IsBare text) {rest : List Item}
    (h : Cut rest) :
    Separated (.word .bare text.toList :: rest) := by
  obtain ⟨⟨c, more, htoList, hstarts, hat, hpercent, hmore⟩, htrue, hfalse⟩ := htext
  refine ⟨⟨c, more, htoList, ?_⟩, h.separated⟩
  have hne : ∀ word : String, text ≠ word → c :: more ≠ word.toList := by
    intro word hword heq
    exact hword (String.toList_inj.1 (htoList.trans heq))
  rw [pieceAt_name hstarts hmore h.stops, namePiece_bare hat hpercent (hne _ htrue) (hne _ hfalse)]

/-- A name behind its mark. -/
theorem separated_marked {kind : Kind} {c : Char} {name : String} (hc : startsName c = true)
    (hkind : ∀ more, namePiece (c :: more) = ⟨some kind, more.length⟩)
    (hname : Text.IsNamePart name) {rest : List Item} (h : Cut rest) :
    Separated (.word kind (c :: name.toList) :: rest) := by
  refine ⟨⟨c, name.toList, rfl, ?_⟩, h.separated⟩
  rw [pieceAt_name hc hname h.stops, hkind]

theorem separated_value {value : Value} (hname : Text.IsNamePart value.name) {rest : List Item}
    (h : Cut rest) :
    Separated (valueItems value ++ rest) :=
  separated_marked (by decide) (fun _ => by simp [namePiece]) hname h

theorem separated_numeral (n : Nat) {rest : List Item} (h : Cut rest) :
    Separated (.word .integer (Nat.toDigits 10 n) :: rest) := by
  obtain ⟨c, more, htoDigits, hc, hmore⟩ := Text.exists_toDigits_eq_cons n
  exact ⟨⟨c, more, htoDigits, pieceAt_digits hc hmore fun _ => h.stops.endsNumber⟩, h.separated⟩

theorem separated_listItems {α : Type} {items : α → List Item} {list : List α}
    (hitems : ∀ a ∈ list, ∀ rest, Cut rest → Separated (items a ++ rest)) {rest : List Item}
    (h : Cut rest) :
    Separated (listItems items list ++ rest) := by
  induction list with
  | nil => exact h.separated
  | cons a tail ih =>
      cases tail with
      | nil => exact hitems a List.mem_cons_self rest h
      | cons b tail =>
          have htail := ih fun a ha => hitems a (List.mem_cons_of_mem _ ha)
          rw [listItems_cons_cons, List.append_assoc, List.cons_append, List.cons_append]
          exact hitems a List.mem_cons_self _ (cut_comma (cut_space htail).separated)

/-- A type other than a foreign one is written as a word. -/
theorem isBare_text {ty : Ty} (hty : ty.Writable) (hforeign : ∀ name, ty ≠ .foreign name) :
    Text.IsBare ty.text := by
  cases ty with
  | int bits =>
      have htoList : (Ty.int bits).text.toList = 'i' :: Nat.toDigits 10 bits.toNat := by
        simp [Ty.text]
      have hdigits : ∀ d ∈ Nat.toDigits 10 bits.toNat, continuesName d = true :=
        fun d hd => continuesName_of_isDigit (Text.isDigit_of_mem_toDigits hd)
      refine ⟨⟨'i', _, htoList, by decide, by decide, by decide, hdigits⟩, ?_, ?_⟩
      · intro heq
        rw [heq] at htoList
        cases htoList
      · intro heq
        rw [heq] at htoList
        cases htoList
  | index =>
      exact ⟨⟨'i', _, rfl, by decide, by decide, by decide, List.all_eq_true.1 (by decide)⟩,
        by decide, by decide⟩
  | float bits =>
      rcases hty with rfl | rfl | rfl <;>
        exact ⟨⟨'f', _, rfl, by decide, by decide, by decide, List.all_eq_true.1 (by decide)⟩,
          by decide, by decide⟩
  | none =>
      exact ⟨⟨'n', _, rfl, by decide, by decide, by decide, List.all_eq_true.1 (by decide)⟩,
        by decide, by decide⟩
  | foreign name => exact absurd rfl (hforeign name)

theorem separated_ty {ty : Ty} (hty : ty.Writable) {rest : List Item} (h : Cut rest) :
    Separated (tyItems ty ++ rest) := by
  cases ty with
  | foreign name => exact (cut_mark (fun _ => rfl) (by decide) (separated_bare hty h)).separated
  | _ => exact separated_bare (isBare_text hty fun _ h => by cases h) h

theorem separated_int (i : Int) {rest : List Item} (h : Cut rest) :
    Separated (intItems i ++ rest) := by
  cases i with
  | ofNat n => exact separated_numeral n h
  | negSucc n => exact (cut_mark (fun _ => rfl) (by decide) (separated_numeral (n + 1) h)).separated

theorem separated_attribute {constant : Attribute} (hconstant : constant.Writable)
    {rest : List Item} (h : Cut rest) : Separated (attributeItems constant ++ rest) := by
  cases constant with
  | integer value ty =>
      rw [attributeItems, List.append_assoc]
      exact separated_int _
        (cut_space (cut_colon (cut_space (separated_ty hconstant.2 h)).separated).separated)
  | float value ty => exact hconstant.elim
  | bool value =>
      cases value with
      | true =>
          exact ⟨⟨'t', _, rfl, pieceAt_name (by decide) (List.all_eq_true.1 (by decide)) h.stops⟩,
            h.separated⟩
      | false =>
          exact ⟨⟨'f', _, rfl, pieceAt_name (by decide) (List.all_eq_true.1 (by decide)) h.stops⟩,
            h.separated⟩
  | string text =>
      refine ⟨⟨'"', _, rfl, ?_⟩, h.separated⟩
      rw [List.append_assoc, List.length_append]
      exact pieceAt_string hconstant _
  | symbol name => exact separated_marked (by decide) (fun _ => by simp [namePiece]) hconstant h
  | type ty => exact separated_ty hconstant h

theorem cut_dict {attributes : Attributes}
    (hattributes : ∀ entry ∈ attributes.entries, Text.IsBare entry.1 ∧ entry.2.Writable)
    {rest : List Item} (h : Separated rest) : Cut (dictItems attributes ++ rest) := by
  rw [dictItems, List.cons_append, List.append_assoc]
  refine cut_lbrace (separated_listItems (fun entry hentry more hmore => ?_) (cut_rbrace h))
  obtain ⟨hkey, hvalue⟩ := hattributes entry hentry
  exact separated_bare hkey
    (cut_space (cut_equal (cut_space (separated_attribute hvalue hmore)).separated).separated)

theorem isBare_nameWord {context : Context} {head : Head} (hhead : head.Writable context) :
    Text.IsBare (nameWord head.name) := by
  unfold nameWord
  split
  · exact ⟨⟨'m', _, rfl, by decide, by decide, by decide, List.all_eq_true.1 (by decide)⟩,
      by decide, by decide⟩
  · exact hhead.name.1

theorem separated_head {context : Context} {head : Head} (hhead : head.Writable context)
    {rest : List Item} (h : Cut rest) : Separated (headItems head ++ rest) := by
  have hresult : ∀ value ∈ head.results, Text.IsNamePart value.name :=
    fun value hvalue => hhead.values value (List.mem_append_right _ hvalue)
  have hoperand : ∀ value ∈ head.operands, Text.IsNamePart value.name :=
    fun value hvalue => hhead.values value (List.mem_append_left _ hvalue)
  have htypes : Cut (typeItems head.results ++ rest) := by
    unfold typeItems
    split
    · exact h
    · refine cut_space (cut_colon (cut_space ?_).separated).separated
      exact separated_listItems (fun result hresult more hmore =>
        separated_ty (hhead.types result hresult) hmore) h
  have hattributes : Cut (attributesItems head.attributes ++ (typeItems head.results ++ rest)) := by
    unfold attributesItems
    split
    · exact htypes
    · exact cut_space (cut_dict hhead.attributes htypes.separated).separated
  have hoperands : Cut (operandItems head.operands
      ++ (attributesItems head.attributes ++ (typeItems head.results ++ rest))) := by
    unfold operandItems
    split
    · exact hattributes
    · exact cut_space
        (separated_listItems (fun value hvalue more => separated_value (hoperand value hvalue))
        hattributes)
  have hname := separated_bare (isBare_nameWord hhead) hoperands
  unfold headItems resultItems
  simp only [List.append_assoc, List.cons_append] at hname ⊢
  split
  · exact hname
  · rw [List.append_assoc]
    exact separated_listItems (fun value hvalue more => separated_value (hresult value hvalue))
      (cut_space (cut_equal (cut_space hname).separated).separated)

theorem separated_indent (depth : Nat) {rest : List Item} (h : Separated rest) :
    Separated (indentItems depth ++ rest) := by
  rw [indentItems]
  generalize 2 * depth = n
  induction n with
  | zero => exact h
  | succ n ih => exact (cut_space ih).separated

mutual

theorem separated_op {context : Context} (depth : Nat) : (op : Operation) →
    (∀ head ∈ op.heads, head.Writable context) → ∀ rest, Cut rest →
      Separated (opItems depth op ++ rest)
  | ⟨head, none⟩, hheads, rest, h => by
      rw [opItems]
      exact separated_head (hheads head (by simp [Operation.heads])) h
  | ⟨head, some []⟩, hheads, rest, h => by
      rw [opItems, List.append_assoc]
      exact separated_head (hheads head (by simp [Operation.heads]))
        (cut_space (cut_lbrace (cut_rbrace h.separated).separated).separated)
  | ⟨head, some (op :: ops)⟩, hheads, rest, h => by
      have hclose : Separated (indentItems depth ++ .word .rbrace ['\x7d'] :: rest) :=
        separated_indent depth (cut_rbrace h.separated).separated
      have hlines := separated_lines (depth + 1) (op :: ops)
        (fun head' hhead => hheads head' (by simp [Operation.heads, hhead])) _ hclose
      rw [opItems]
      simp only [List.append_assoc, List.cons_append, List.nil_append]
      exact separated_head (hheads head (by simp [Operation.heads]))
        (cut_space (cut_lbrace (cut_blank (.inr rfl) hlines).separated).separated)

theorem separated_lines {context : Context} (depth : Nat) : (ops : List Operation) →
    (∀ head ∈ Operation.headsOfAll ops, head.Writable context) →
    ∀ rest, Separated rest → Separated (lineItems depth ops ++ rest)
  | [], _, rest, h => h
  | op :: ops, hheads, rest, h => by
      have hlater := separated_lines depth ops
        (fun head hhead => hheads head (by simp [Operation.headsOfAll, hhead])) rest h
      have hop := separated_op depth op
        (fun head hhead => hheads head (by simp [Operation.headsOfAll, hhead]))
        _ (cut_blank (.inr rfl) hlater)
      rw [lineItems, List.append_assoc, List.append_assoc]
      exact separated_indent depth hop

end

/-- **Scanning undoes laying out.** The printed text is scanned as the words that it was printed
from. -/
theorem scan_text {context : Context} {op : Operation}
    (hheads : ∀ head ∈ op.heads, head.Writable context) :
    scan op.text = .ok (tokensFrom .start (opItems 0 op)
      ++ [⟨.eof, "", Location.start.after op.text.toList⟩]) := by
  have hchars : chars (opItems 0 op) = op.text.toList := chars_opItems 0 op
  have hseparated : Separated (opItems 0 op) := by
    simpa using separated_op 0 op hheads [] cut_nil
  rw [scan, ← hchars]
  exact scanFrom_chars .start hseparated

end Layout

end DialectIR
