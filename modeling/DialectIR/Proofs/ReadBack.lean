import DialectIR.Proofs.Keywords
import DialectIR.Proofs.Printed
import DialectIR.Proofs.Reader

/-! The parts of a printed operation are read back: types, attributes and lists between commas.
Every lemma starts the reader at the words of a part, with any other tokens behind them. -/

namespace DialectIR.Parse

open Layout Token

variable {α β : Type} {s : State} {rest : List Token}

/-- The state with other tokens to come. -/
def State.reading (s : State) : List Token → State
  | [] => s
  | here :: later => { s with here, later }

/-- The class of the first token; a text without tokens is at its end. -/
def firstKind : List Token → Kind
  | [] => .eof
  | token :: _ => token.kind

@[simp] theorem State.reading_context (s : State) (tokens : List Token) :
    (s.reading tokens).context = s.context := by
  cases tokens <;> rfl

@[simp] theorem State.reading_scopes (s : State) (tokens : List Token) :
    (s.reading tokens).scopes = s.scopes := by
  cases tokens <;> rfl

@[simp] theorem State.reading_defined (s : State) (tokens : List Token) :
    (s.reading tokens).defined = s.defined := by
  cases tokens <;> rfl

theorem State.kind_reading (s : State) (hrest : rest ≠ []) :
    (s.reading rest).here.kind = firstKind rest := by
  obtain ⟨token, later, rfl⟩ := List.exists_cons_of_ne_nil hrest
  rfl

theorem State.advance_reading (s : State) {token : Token} (hkind : token.kind ≠ .eof)
    (hrest : rest ≠ []) :
    (s.reading (token :: rest)).advance = s.reading rest := by
  obtain ⟨next, later, rfl⟩ := List.exists_cons_of_ne_nil hrest
  exact State.advance_eq _ next later rfl hkind

theorem firstKind_eq_head? (tokens : List Token) :
    firstKind tokens = (tokens.map Token.kind).head?.getD .eof := by
  cases tokens <;> rfl

theorem reads_expect {kind : Kind} {token : Token} (hkind : token.kind = kind) (heof : kind ≠ .eof)
    (hrest : rest ≠ []) :
    Returns (expect kind) (s.reading (token :: rest)) token (s.reading rest) := by
  rw [returns_expect, State.advance_reading s (hkind ▸ heof) hrest]
  exact ⟨hkind, rfl, rfl⟩

theorem reads_accept {kind : Kind} {token : Token} (hkind : token.kind = kind) (heof : kind ≠ .eof)
    (hrest : rest ≠ []) :
    Returns (accept kind) (s.reading (token :: rest)) true (s.reading rest) := by
  have hhere : (s.reading (token :: rest)).here.kind = kind := hkind
  rw [returns_accept, if_pos hhere, State.advance_reading s (hkind ▸ heof) hrest]
  exact ⟨by simp [hhere], rfl⟩

theorem reads_accept_none {kind : Kind} (hkind : firstKind rest ≠ kind) (hrest : rest ≠ []) :
    Returns (accept kind) (s.reading rest) false (s.reading rest) := by
  rw [← State.kind_reading s hrest] at hkind
  rw [returns_accept, if_neg hkind]
  exact ⟨by simp [hkind], rfl⟩

/-- A list between commas is read from its first item to its last. What is known of the result, in
view of the items that were read, has to carry over every further one. -/
theorem reads_listItems {item : α → Reader α} {items : β → List Item} {list : List β}
    (P : List β → α → Prop)
    (hitem : ∀ done b more a location rest, list = done ++ b :: more → P done a → rest ≠ [] →
      ∃ a', Returns (item a) (s.reading (tokensFrom location (items b) ++ rest)) a' (s.reading rest)
        ∧ P (done ++ [b]) a') {done todo : List β} {start : α} {steps : Nat} (location : Location)
    (hlist : list = done ++ todo) (hne : todo ≠ []) (hsteps : todo.length ≤ steps)
    (hstart : P done start) (hrest : rest ≠ []) (hcomma : firstKind rest ≠ .comma) :
    ∃ result, Returns (commaSeparated item steps start)
      (s.reading (tokensFrom location (listItems items todo) ++ rest)) result (s.reading rest)
        ∧ P list result := by
  induction todo generalizing done start steps location with
  | nil => exact absurd rfl hne
  | cons b more ih =>
      obtain ⟨steps, rfl⟩ : ∃ n, steps = n + 1 := ⟨steps - 1, by simp at hsteps; omega⟩
      cases more with
      | nil =>
          obtain ⟨a', hread, hP⟩ := hitem done b [] start location rest hlist hstart hrest
          refine ⟨a', ?_, hlist ▸ hP⟩
          rw [commaSeparated]
          refine Returns.bind_iff.2 ⟨a', _, hread, ?_⟩
          exact Returns.bind_iff.2 ⟨false, _, reads_accept_none hcomma hrest,
            Returns.pure_iff.2 ⟨rfl, rfl⟩⟩
      | cons c more =>
          rw [listItems_cons_cons, tokensFrom_append, List.append_assoc, tokensFrom,
            space, tokensFrom, List.cons_append]
          obtain ⟨a', hread, hP⟩ := hitem done b (c :: more) start location _ hlist hstart
            (List.cons_ne_nil _ _)
          obtain ⟨result, hresult, hall⟩ := @ih (done ++ [b]) a' steps
            (((location.after (chars (items b))).after [',']).next ' ')
            (by simp [hlist]) (by simp) (by simpa using hsteps) hP
          refine ⟨result, ?_, hall⟩
          rw [commaSeparated]
          refine Returns.bind_iff.2 ⟨a', _, hread, ?_⟩
          refine Returns.bind_iff.2 ⟨true, _, reads_accept rfl (by decide) (by simp [hrest]), ?_⟩
          exact hresult

theorem ofKeyword?_text {ty : Ty} (hty : ty.Writable) (hforeign : ∀ name, ty ≠ .foreign name) :
    Ty.ofKeyword? ty.text = some ty := by
  have hreadable : ty.Readable := by
    cases ty with
    | foreign name => trivial
    | _ => exact hty
  exact Ty.ofKeyword?_eq_some_iff.2
    ⟨Ty.hasKeyword_of_readable hreadable hforeign, ty.spelledAs_text⟩

theorem reads_type {ty : Ty} (hty : ty.Writable) (location : Location) (hrest : rest ≠ []) :
    Returns type (s.reading (tokensFrom location (tyItems ty) ++ rest)) ty (s.reading rest) := by
  by_cases hforeign : ∃ name, ty = .foreign name
  · obtain ⟨name, rfl⟩ := hforeign
    simp only [tyItems, tokensFrom_word, tokensFrom_nil, List.cons_append, List.nil_append]
    unfold type
    refine Returns.bind_iff.2 ⟨true, _, reads_accept rfl (by decide) (List.cons_ne_nil _ _), ?_⟩
    refine Returns.bind_iff.2 ⟨_, _, reads_expect rfl (by decide) hrest, ?_⟩
    exact Returns.pure_iff.2 ⟨by rw [String.ofList_toList], rfl⟩
  · have hbuiltin : ∀ name, ty ≠ .foreign name := fun name h => hforeign ⟨name, h⟩
    have hitems : tyItems ty = [.word .bare ty.text.toList] := by
      cases ty with
      | foreign name => exact absurd rfl (hbuiltin name)
      | _ => rfl
    simp only [hitems, tokensFrom_word, tokensFrom_nil, List.cons_append, List.nil_append]
    unfold type
    refine Returns.bind_iff.2
      ⟨false, _, reads_accept_none (by simp [firstKind]) (List.cons_ne_nil _ _), ?_⟩
    refine Returns.bind_iff.2 ⟨_, _, reads_expect rfl (by decide) hrest, ?_⟩
    simp only [String.ofList_toList, ofKeyword?_text hty hbuiltin]
    exact Returns.pure_iff.2 ⟨rfl, rfl⟩

/-- An integer in the range of its type is in range for the reader. -/
theorem fitsWidth_of_truncate {value : Int64} {ty : Ty} (hty : ty.Writable)
    (h : ty.truncate value = value) :
    ty.width?.all (fitsWidth value) = true := by
  rw [Option.all_eq_true]
  intro bits hbits
  by_cases hlt : bits < 64
  · have hpos : 0 < bits := by
      cases ty with
      | int bits' =>
          obtain rfl : bits' = bits := Option.some.inj hbits
          exact hty.1
      | index =>
          obtain rfl : (64 : UInt32) = bits := Option.some.inj hbits
          exact absurd hlt (by decide)
      | float bits' => cases hbits
      | none => cases hbits
      | foreign name => cases hbits
    have hpos' : 0 < bits.toNat := hpos
    have hinRange := Ty.toInt_truncate hbits hpos hlt value
    rw [h] at hinRange
    have hpow : 0 < 2 ^ bits.toNat := Nat.two_pow_pos _
    have hlow := Int.le_bmod (x := value.toInt) hpow
    have hhigh := Int.bmod_lt (x := value.toInt) hpow
    rw [← hinRange] at hlow hhigh
    have hhalf : 2 ^ bits.toNat = 2 * 2 ^ (bits.toNat - 1) := by
      rw [Nat.mul_comm, Nat.two_pow_pred_mul_two hpos']
    rw [hhalf] at hlow hhigh
    simp only [fitsWidth, Nat.one_shiftLeft, Bool.or_eq_true, Bool.and_eq_true, decide_eq_true_eq]
    omega
  · have hge : 64 ≤ bits := UInt32.not_lt.1 hlt
    simp [fitsWidth, hge]

theorem reads_literalType {default ty : Ty} (hty : ty.Writable) (location : Location)
    (hrest : rest ≠ []) :
    Returns (literalType default) (s.reading (tokensFrom location
      (.word .colon [':'] :: space :: tyItems ty) ++ rest)) ty (s.reading rest) := by
  rw [tokensFrom_word, space, tokensFrom_blank, List.cons_append]
  unfold literalType
  refine Returns.bind_iff.2 ⟨true, _, reads_accept rfl (by decide) (by simp [hrest]), ?_⟩
  exact reads_type hty _ hrest

theorem reads_integerAttribute {negative : Bool} {n : Nat} {value : Int64} {ty : Ty}
    (hvalue : Text.readInt64? (if negative = true then "-" ++ String.ofList (Nat.toDigits 10 n)
      else String.ofList (Nat.toDigits 10 n)) = some value)
    (hconstant : (Attribute.integer value ty).Writable) (location : Location) (hrest : rest ≠ []) :
    Returns (integerAttribute negative) (s.reading (tokensFrom location
      (.word .integer (Nat.toDigits 10 n) :: space :: .word .colon [':'] :: space :: tyItems ty)
        ++ rest))
      (.integer value ty) (s.reading rest) := by
  obtain ⟨htruncate, hty⟩ := hconstant
  rw [tokensFrom_word, List.cons_append]
  conv => arg 2; arg 2; arg 2; rw [space, tokensFrom_blank]
  unfold integerAttribute
  refine Returns.bind_iff.2 ⟨_, _, reads_expect rfl (by decide) (by simp), ?_⟩
  simp only [hvalue]
  refine Returns.bind_iff.2 ⟨ty, _, reads_literalType hty _ hrest, ?_⟩
  rw [if_pos (fitsWidth_of_truncate hty htruncate)]
  exact Returns.pure_iff.2 ⟨by rw [Attribute.wrapped, htruncate], rfl⟩

theorem unquoted_quoted {text : String} (htext : ∀ c ∈ text.toList, inString c = true) :
    unquoted (String.ofList ('"' :: (text.toList ++ ['"']))) = text := by
  have hquote : ∀ c ∈ text.toList, ¬ c = '"' := by
    intro c hc
    have hin := htext c hc
    simp only [inString, Bool.and_eq_true, decide_eq_true_eq] at hin
    exact hin.1
  unfold unquoted
  rw [String.toList_ofList]
  rcases List.eq_nil_or_concat text.toList with hnil | ⟨cs, last, hlast⟩
  · rw [hnil, ← String.toList_inj]
    simp [hnil]
  · have hlast' : ¬ last = '"' := hquote last (by simp [hlast])
    rw [hlast] at hquote
    cases cs with
    | nil => 
        rw [← String.toList_inj]
        simp [hlast, hlast']
    | cons c cs =>
        have hc : ¬ c = '"' := hquote c (by simp)
        rw [← String.toList_inj]
        simp [hlast, hlast', hc]

/-- A word that stands for a value by itself. -/
theorem reads_taken {token : Token} (hkind : token.kind ≠ .eof) {a result : α} (ha : result = a)
    (hrest : rest ≠ []) :
    Returns (do modify State.advance; return a : Reader α) (s.reading (token :: rest)) result
      (s.reading rest) := by
  rw [Returns.modify_bind_iff, State.advance_reading s hkind hrest]
  exact Returns.pure_iff.2 ⟨ha, rfl⟩

theorem reads_integer {value : Int64} {ty : Ty} (hconstant : (Attribute.integer value ty).Writable)
    (location : Location) (hrest : rest ≠ []) :
    Returns attributeValue
      (s.reading (tokensFrom location (attributeItems (.integer value ty)) ++ rest))
      (.integer value ty) (s.reading rest) := by
  unfold attributeValue
  rw [Returns.get_bind_iff]
  cases hint : value.toInt with
  | ofNat n =>
      have hvalue := Text.readInt64?_of_nonneg hint
      simp only [attributeItems, hint, intItems]
      exact @reads_integerAttribute _ _ false _ _ _ hvalue hconstant location hrest
  | negSucc n =>
      have hvalue := @Text.readInt64?_of_neg value (n + 1) hint
      have hread := @reads_integerAttribute s rest true _ _ _ hvalue hconstant
        (location.after ['-']) hrest
      simp only [attributeItems, hint, intItems, List.cons_append, List.nil_append]
      rw [tokensFrom_word, List.cons_append]
      apply Returns.modify_bind_iff.2
      rw [State.advance_reading _ (by simp) (by simp), returns_isNext_bind,
        State.kind_reading _ (by simp)]
      exact hread

theorem reads_attribute {constant : Attribute} (hconstant : constant.Writable) (location : Location)
    (hrest : rest ≠ []) :
    Returns attributeValue (s.reading (tokensFrom location (attributeItems constant) ++ rest))
      constant
      (s.reading rest) := by
  cases constant with
  | integer value ty => exact reads_integer hconstant location hrest
  | float value ty => exact hconstant.elim
  | bool value =>
      unfold attributeValue
      rw [Returns.get_bind_iff]
      cases value with
      | true => exact reads_taken (by simp) rfl hrest
      | false => exact reads_taken (by simp) rfl hrest
  | string text =>
      unfold attributeValue
      rw [Returns.get_bind_iff]
      simp only [attributeItems, tokensFrom_word, tokensFrom_nil, List.cons_append, List.nil_append]
      exact reads_taken (by simp) (congrArg Attribute.string (unquoted_quoted hconstant).symm) hrest
  | symbol name =>
      have hname : unmarked (String.ofList ('@' :: name.toList)) = name := by
        rw [unmarked, String.toList_ofList, List.drop_one, List.tail_cons, String.ofList_toList]
      unfold attributeValue
      rw [Returns.get_bind_iff]
      simp only [attributeItems, tokensFrom_word, tokensFrom_nil, List.cons_append, List.nil_append]
      exact reads_taken (by simp) (congrArg Attribute.symbol hname.symm) hrest
  | type ty =>
      have hread : Returns (Attribute.type <$> type)
        (s.reading (tokensFrom location (tyItems ty) ++ rest))
          (.type ty) (s.reading rest) :=
        Returns.map_iff.2 ⟨ty, reads_type hconstant location hrest, rfl⟩
      unfold attributeValue
      rw [Returns.get_bind_iff]
      cases ty with
      | foreign name => exact hread
      | _ => exact hread

/-! ### Dictionaries -/

/-- A key behind all others goes to the end. -/
theorem insertEntry_of_lt {key : String} {value : α} {entries : List (String × α)}
    (h : ∀ entry ∈ entries, entry.1 < key) :
    Dict.insertEntry key value entries = entries ++ [(key, value)] := by
  induction entries with
  | nil => rfl
  | cons entry entries ih =>
      have hlt := h entry List.mem_cons_self
      rw [Dict.insertEntry, if_neg (String.lt_asymm hlt),
        if_neg (fun heq => String.lt_irrefl _ (heq ▸ hlt)),
        ih fun other hother => h other (List.mem_cons_of_mem _ hother), List.cons_append]

theorem contains_eq_false {map : Dict α} {key : String} (h : ∀ entry ∈ map.entries, entry.1 ≠ key) :
    map.contains key = false := by
  rw [Dict.contains, Dict.get?, Option.isSome_eq_false_iff, Option.isNone_iff_eq_none,
    List.lookup_eq_none_iff]
  intro entry hentry
  simpa using (h entry hentry).symm

theorem reads_entry {attributes : Attributes} {entry : String × Attribute}
    (hvalue : entry.2.Writable) (hlt : ∀ other ∈ attributes.entries, other.1 < entry.1)
    (location : Location) (hrest : rest ≠ []) :
    Returns (attributeEntry attributes) (s.reading (tokensFrom location (entryItems entry) ++ rest))
      (attributes.insert entry.1 entry.2) (s.reading rest) := by
  have hnew : attributes.contains entry.1 = false :=
    contains_eq_false fun other hother heq => String.lt_irrefl _ (heq ▸ hlt other hother)
  simp only [entryItems, space, tokensFrom_word, tokensFrom_blank, List.cons_append]
  unfold attributeEntry
  refine Returns.bind_iff.2 ⟨_, _, reads_expect rfl (by decide) (List.cons_ne_nil _ _), ?_⟩
  refine Returns.bind_iff.2 ⟨_, _, reads_expect rfl (by decide) (by simp [hrest]), ?_⟩
  refine Returns.bind_iff.2 ⟨_, _, reads_attribute hvalue _ hrest, ?_⟩
  rw [String.ofList_toList, hnew]
  exact Returns.pure_iff.2 ⟨rfl, rfl⟩

/-- The entries are read in order, so that each one goes behind those before it. -/
theorem reads_attributes {attributes : Attributes} {steps : Nat}
    (hattributes : ∀ entry ∈ attributes.entries, Text.IsBare entry.1 ∧ entry.2.Writable)
    (hne : attributes.entries ≠ []) (hsteps : attributes.entries.length ≤ steps)
    (location : Location) (hrest : rest ≠ []) :
    Returns (Parse.attributes steps)
      (s.reading (tokensFrom location (dictItems attributes) ++ rest)) attributes
      (s.reading rest) := by
  have hitem : ∀ done entry more (a : Attributes) location rest,
    attributes.entries = done ++ entry :: more →
      a.entries = done → rest ≠ [] → ∃ a', Returns (attributeEntry a)
        (s.reading (tokensFrom location (entryItems entry) ++ rest)) a' (s.reading rest)
          ∧ a'.entries = done ++ [entry] := by
    intro done entry more a location rest hlist ha hrest
    obtain ⟨-, hvalue⟩ := hattributes entry (by simp [hlist])
    have hlt : ∀ other ∈ a.entries, other.1 < entry.1 := by
      intro other hother
      have hsorted := attributes.sorted
      rw [hlist, List.pairwise_append] at hsorted
      exact hsorted.2.2 other (ha ▸ hother) entry List.mem_cons_self
    refine ⟨a.insert entry.1 entry.2, reads_entry hvalue hlt location hrest, ?_⟩
    exact (insertEntry_of_lt hlt).trans (by rw [ha])
  obtain ⟨close, hclose, htokens⟩ : ∃ close : Token, close.kind = .rbrace
    ∧ tokensFrom location (dictItems attributes)
      = ⟨.lbrace, "\x7b", location⟩ :: (tokensFrom (location.after ['\x7b'])
        (listItems entryItems attributes.entries) ++ [close]) := by
    refine ⟨⟨.rbrace, "\x7d", (location.after ['\x7b']).after
      (chars (listItems entryItems attributes.entries))⟩, rfl, ?_⟩
    rw [dictItems, tokensFrom_word, tokensFrom_append]
    rfl
  rw [htokens, List.cons_append, List.append_assoc, List.singleton_append]
  obtain ⟨result, hresult, hentries⟩ := @reads_listItems _ _ s (close :: rest) _ _ _
    (fun done (a : Attributes) => a.entries = done) hitem [] _ .empty steps
      (location.after ['\x7b'])
    (List.nil_append _).symm hne hsteps rfl (List.cons_ne_nil _ _) (by simp [firstKind, hclose])
  unfold Parse.attributes
  refine Returns.bind_iff.2 ⟨_, _, reads_expect rfl (by decide) (by simp), ?_⟩
  refine Returns.bind_iff.2 ⟨_, _, hresult, ?_⟩
  refine Returns.bind_iff.2 ⟨_, _, reads_expect hclose (by decide) hrest, ?_⟩
  exact Returns.pure_iff.2 ⟨(Dict.ext_entries hentries).symm, rfl⟩

/-- A dictionary is recognized by its brace and the name and the equals sign behind it. -/
theorem startsAttributes_reading (s : State) (hrest : rest ≠ []) :
    (s.reading rest).startsAttributes = true ↔ [.lbrace, .bare, .equal] <+: rest.map
      Token.kind := by
  obtain ⟨first, later, rfl⟩ := List.exists_cons_of_ne_nil hrest
  rw [State.startsAttributes]
  rcases later with _ | ⟨second, _ | ⟨third, later⟩⟩
  · simp [State.reading]
  · simp [State.reading]
  · simp only [State.reading, List.map_cons, List.cons_prefix_cons, List.nil_prefix, and_true,
      Bool.and_eq_true, decide_eq_true_eq]
    constructor
    · exact fun ⟨hbrace, hname, hequal⟩ =>
        ⟨(of_decide_eq_true hbrace).symm, hname.symm, hequal.symm⟩
    · exact fun ⟨hbrace, hname, hequal⟩ => ⟨decide_eq_true hbrace.symm, hname.symm, hequal.symm⟩

theorem reads_attributes? {attributes : Attributes} {steps : Nat}
    (hattributes : ∀ entry ∈ attributes.entries, Text.IsBare entry.1 ∧ entry.2.Writable)
    (hsteps : attributes.entries.length ≤ steps) (location : Location) (hrest : rest ≠ [])
    (hnone : ¬ [.lbrace, .bare, .equal] <+: rest.map Token.kind) :
    Returns (attributes? steps)
      (s.reading (tokensFrom location (attributesItems attributes) ++ rest)) attributes
      (s.reading rest) := by
  unfold attributes?
  rw [Returns.get_bind_iff]
  by_cases hempty : attributes.entries = []
  · have hitems : attributesItems attributes = [] := by
      simp [attributesItems, Dict.isEmpty, hempty]
    rw [hitems, tokensFrom_nil, List.nil_append, if_neg fun h =>
      hnone ((startsAttributes_reading s hrest).1 h)]
    exact Returns.pure_iff.2 ⟨Dict.ext_entries hempty, rfl⟩
  · have hitems : attributesItems attributes = space :: dictItems attributes := by
      simp [attributesItems, Dict.isEmpty, hempty]
    rw [hitems, space, tokensFrom_blank, if_pos]
    · exact reads_attributes hattributes hempty hsteps _ hrest
    · rw [startsAttributes_reading s (by simp [hrest]), List.map_append,
        map_kind_tokensFrom, dictItems]
      obtain ⟨entry, entries, hentries⟩ := List.exists_cons_of_ne_nil hempty
      cases entries with
      | nil => simp [hentries, listItems, entryItems, space, kinds]
      | cons other entries => simp [hentries, listItems_cons_cons, entryItems, space, kinds]

/-! ### Values -/

theorem unmarked_ofList (name : String) : unmarked (String.ofList ('%' :: name.toList)) = name := by
  rw [unmarked, String.toList_ofList, List.drop_one, List.tail_cons, String.ofList_toList]

/-- A name of name characters has no percent sign of its own. -/
theorem named_eq {name : String} (hname : Text.IsNamePart name) (ty : Ty) :
    Value.named name ty = ⟨name, ty⟩ := by
  unfold Value.named
  split
  next rest htoList =>
    have hpercent := hname '%' (htoList ▸ List.mem_cons_self)
    rw [percent_not_continuesName] at hpercent
    cases hpercent
  next => rfl

/-- The visible values can be looked up, and what is found is known. -/
def Sees (scopes : List (Dict Ty)) (visible : List String) (known : List Value) : Prop :=
  ∀ name ∈ visible, ∃ ty, scopes.findSome? (·.get? name) = some ty ∧ ⟨name, ty⟩ ∈ known

theorem reads_operand {visible : List String} {known : List Value} {value : Value}
    (hsees : Sees s.scopes visible known) (hvisible : value.name ∈ visible)
    (htyped : ∀ result ∈ known, result.name = value.name → result.ty = value.ty)
    (hname : Text.IsNamePart value.name) (location : Location) (hrest : rest ≠ []) :
    Returns operand (s.reading (tokensFrom location (valueItems value) ++ rest)) value
      (s.reading rest) := by
  obtain ⟨ty, hfound, hknown⟩ := hsees value.name hvisible
  have hty : ty = value.ty := htyped _ hknown rfl
  unfold operand
  refine Returns.bind_iff.2 ⟨_, _, reads_expect rfl (by decide) hrest, ?_⟩
  simp only [unmarked_ofList, Returns.get_bind_iff, State.reading_scopes, hfound,
    named_eq hname, hty]
  exact Returns.pure_iff.2 ⟨rfl, rfl⟩

theorem exists_tokensFrom_values {values : List Value} (hne : values ≠ []) (location : Location) :
    ∃ lexeme later, tokensFrom location (listItems valueItems values)
      = ⟨.value, lexeme, location⟩ :: later := by
  obtain ⟨value, _ | ⟨other, values⟩, rfl⟩ := List.exists_cons_of_ne_nil hne
  · exact ⟨_, _, rfl⟩
  · rw [listItems_cons_cons]
    exact ⟨_, _, rfl⟩

/-- Operands are read if they start on the line of the name. -/
theorem reads_operands {visible : List String} {known values : List Value} {line steps : Nat}
    (hsees : Sees s.scopes visible known) (hvisible : ∀ value ∈ values, value.name ∈ visible)
    (htyped : ∀ value ∈ values, ∀ result ∈ known, result.name = value.name → result.ty = value.ty)
    (hnames : ∀ value ∈ values, Text.IsNamePart value.name) (hsteps : values.length ≤ steps)
    {location : Location} (hline : location.line = line) (hrest : rest ≠ [])
    (hcomma : firstKind rest ≠ .comma)
    (hnone : values = [] → ∀ token ∈ rest.head?, token.kind = .value → token.location.line ≠ line) :
    Returns (operands line steps)
      (s.reading (tokensFrom location (operandItems values) ++ rest)) values
      (s.reading rest) := by
  unfold operands
  rw [Returns.get_bind_iff]
  by_cases hempty : values = []
  · subst hempty
    obtain ⟨token, later, rfl⟩ := List.exists_cons_of_ne_nil hrest
    have hother : ¬ (token.kind = .value ∧ token.location.line = line) :=
      fun h => hnone rfl token rfl h.1 h.2
    simp only [operandItems, List.isEmpty_nil, if_true, tokensFrom_nil, List.nil_append,
      State.reading, Bool.and_eq_true, decide_eq_true_eq, if_neg hother]
    exact Returns.pure_iff.2 ⟨rfl, rfl⟩
  · have hitems : operandItems values = space :: listItems valueItems values := by
      simp [operandItems, hempty]
    have hitem : ∀ done value more (a : List Value) location rest,
      values = done ++ value :: more → a = done →
        rest ≠ [] → ∃ a', Returns (do return a ++ [← operand])
          (s.reading (tokensFrom location (valueItems value) ++ rest)) a' (s.reading rest)
            ∧ a' = done ++ [value] := by
      rintro done value more a location rest hlist rfl hrest
      have hmem : value ∈ values := by simp [hlist]
      refine ⟨a ++ [value], Returns.bind_iff.2 ⟨value, _, ?_, Returns.pure_iff.2 ⟨rfl, rfl⟩⟩, rfl⟩
      exact reads_operand hsees (hvisible value hmem) (htyped value hmem) (hnames value hmem)
        location hrest
    obtain ⟨result, hresult, rfl⟩ := reads_listItems (fun done a => a = done) hitem
      (location.next ' ')
      (List.nil_append _).symm hempty hsteps rfl hrest hcomma
    obtain ⟨lexeme, later, htokens⟩ := exists_tokensFrom_values hempty (location.next ' ')
    rw [hitems, space, tokensFrom_blank, if_pos]
    · exact hresult
    · rw [htokens, List.cons_append, ← hline]
      simp [State.reading, Location.next]

/-- The results are read up to the equals sign; their tokens carry their names. -/
theorem reads_resultTokens {results : List Value} {steps : Nat} (hsteps : results.length ≤ steps)
    (location : Location) (hrest : rest ≠ []) (hname : firstKind rest = .bare) :
    ∃ tokens, Returns (resultTokens steps)
      (s.reading (tokensFrom location (resultItems results) ++ rest)) tokens
      (s.reading rest) ∧ tokens.map (unmarked ·.lexeme) = results.map Value.name := by
  unfold resultTokens
  simp only [returns_isNext_bind]
  by_cases hempty : results = []
  · subst hempty
    refine ⟨[], ?_, rfl⟩
    simp only [resultItems, List.isEmpty_nil, if_true, tokensFrom_nil, List.nil_append,
      State.kind_reading s hrest, hname]
    exact Returns.pure_iff.2 ⟨rfl, rfl⟩
  · have hitems : resultItems results = listItems valueItems results
      ++ [space, .word .equal ['='], space] := by
      simp [resultItems, hempty]
    have hitem : ∀ done value more (a : List Token) location rest, results = done ++ value :: more →
        a.map (unmarked ·.lexeme) = done.map Value.name → rest ≠ [] →
        ∃ a', Returns (do return a ++ [← expect .value])
          (s.reading (tokensFrom location (valueItems value) ++ rest)) a' (s.reading rest)
            ∧ a'.map (unmarked ·.lexeme) = (done ++ [value]).map Value.name := by
      intro done value more a location rest _ ha hrest
      refine ⟨_, Returns.bind_iff.2 ⟨_, _, reads_expect rfl (by decide) hrest,
        Returns.pure_iff.2 ⟨rfl, rfl⟩⟩, ?_⟩
      rw [List.map_append, List.map_append, ha, List.map_singleton, List.map_singleton,
        unmarked_ofList]
    obtain ⟨lexeme, later, htokens⟩ := exists_tokensFrom_values hempty location
    obtain ⟨equal, hequal, hall⟩ : ∃ equal : Token, equal.kind = .equal
        ∧ tokensFrom location (resultItems results) = tokensFrom location
          (listItems valueItems results) ++ [equal] := by
      refine ⟨⟨.equal, "=", (location.after (chars (listItems valueItems results))).next ' '⟩,
        rfl, ?_⟩
      rw [hitems, tokensFrom_append]
      rfl
    rw [hall, List.append_assoc, List.singleton_append]
    obtain ⟨tokens, hresult, hlexemes⟩ := @reads_listItems _ _ s (equal :: rest) _ _ _
      (fun done (a : List Token) => a.map (unmarked ·.lexeme) = done.map Value.name) hitem [] _ []
        steps location
      (List.nil_append _).symm hempty hsteps rfl (List.cons_ne_nil _ _)
        (by simp [firstKind, hequal])
    refine ⟨tokens, ?_, hlexemes⟩
    rw [if_pos (by rw [htokens]; rfl)]
    refine Returns.bind_iff.2 ⟨_, _, hresult, ?_⟩
    refine Returns.bind_iff.2 ⟨_, _, reads_expect hequal (by decide) hrest, ?_⟩
    exact Returns.pure_iff.2 ⟨rfl, rfl⟩

theorem reads_resultTypes {results : List Value} {steps : Nat}
    (htypes : ∀ result ∈ results, result.ty.Writable) (hsteps : results.length ≤ steps)
    (location : Location) (hrest : rest ≠ []) (hcolon : firstKind rest ≠ .colon)
    (hcomma : firstKind rest ≠ .comma) :
    Returns (resultTypes steps) (s.reading (tokensFrom location (typeItems results) ++ rest))
      (results.map Value.ty) (s.reading rest) := by
  unfold resultTypes
  by_cases hempty : results = []
  · subst hempty
    simp only [typeItems, List.isEmpty_nil, if_true, tokensFrom_nil, List.nil_append]
    exact Returns.bind_iff.2 ⟨false, _, reads_accept_none hcolon hrest,
      Returns.pure_iff.2 ⟨rfl, rfl⟩⟩
  · have hitems : typeItems results = space :: .word .colon [':'] :: space
        :: listItems (fun result => tyItems result.ty) results := by
      simp [typeItems, hempty]
    have hitem : ∀ done (value : Value) more (a : List Ty) location rest,
      results = done ++ value :: more →
        a = done.map Value.ty → rest ≠ [] → ∃ a', Returns (do return a ++ [← type])
          (s.reading (tokensFrom location (tyItems value.ty) ++ rest)) a' (s.reading rest)
            ∧ a' = (done ++ [value]).map Value.ty := by
      rintro done value more a location rest hlist rfl hrest
      have hty := htypes value (by simp [hlist])
      refine ⟨_, Returns.bind_iff.2 ⟨_, _, reads_type hty location hrest,
        Returns.pure_iff.2 ⟨rfl, rfl⟩⟩, ?_⟩
      rw [List.map_append, List.map_singleton]
    obtain ⟨types, hresult, rfl⟩ := reads_listItems (fun done a => a = done.map Value.ty) hitem
      (((location.next ' ').after [':']).next ' ') (List.nil_append _).symm hempty hsteps
        rfl hrest hcomma
    rw [hitems, space, tokensFrom_blank, tokensFrom_word, tokensFrom_blank, List.cons_append]
    refine Returns.bind_iff.2 ⟨true, _, reads_accept rfl (by decide) (by simp [hrest]), ?_⟩
    exact hresult

/-- What readers leave behind: the visible values can be looked up, only some names were defined,
and only the innermost scope and the loaded dialects may differ. -/
structure Leaves (visible : List String) (known : List Value) (names : List String)
    (s s' : State) : Prop where
  sees : Sees s'.scopes visible known
  inner : s'.scopes ≠ []
  tail : s'.scopes.tail = s.scopes.tail
  defined : ∀ name ∈ s'.defined, name ∈ names ∨ name ∈ s.defined
  dialects : s.context.SameDialects s'.context

namespace Leaves

variable {visible visible' names names' : List String} {known : List Value} {s' s'' : State}

theorem refl (hsees : Sees s.scopes visible known) (hinner : s.scopes ≠ []) :
    Leaves visible known [] s s :=
  ⟨hsees, hinner, rfl, fun _ hname => .inr hname, .refl _⟩

theorem trans (h : Leaves visible known names s s') (h' : Leaves visible' known names' s' s'') :
    Leaves visible' known (names ++ names') s s'' where
  sees := h'.sees
  inner := h'.inner
  tail := h'.tail.trans h.tail
  defined name hname := by
    rcases h'.defined name hname with hname | hname
    · exact .inl (List.mem_append_right _ hname)
    · exact (h.defined name hname).imp_left (List.mem_append_left _)
  dialects := h.dialects.trans h'.dialects

theorem mono (h : Leaves visible known names s s') (hvisible : visible' ⊆ visible)
    (hnames : names ⊆ names') :
    Leaves visible' known names' s s' where
  sees name hname := h.sees name (hvisible hname)
  inner := h.inner
  tail := h.tail
  defined name hname := (h.defined name hname).imp_left (hnames ·)
  dialects := h.dialects

theorem define {result : Value} (hsees : Sees s.scopes visible known) (hinner : s.scopes ≠ [])
    (hresult : result ∈ known) :
    Leaves (result.name :: visible) known [result.name] s (s.define result.name result.ty) := by
  obtain ⟨scope, outer, hscopes⟩ := List.exists_cons_of_ne_nil hinner
  have hdefine : (s.define result.name result.ty).scopes
    = scope.insert result.name result.ty :: outer := by
    simp only [State.define, hscopes]
  refine ⟨fun name hname => ?_, by simp [hdefine], by simp [hdefine, hscopes],
    fun name hname => ?_, .refl _⟩
  · rw [hdefine, List.findSome?_cons, Dict.get?_insert]
    by_cases heq : name = result.name
    · exact ⟨result.ty, by rw [if_pos heq], heq ▸ hresult⟩
    · obtain ⟨ty, hfound, hknown⟩ := hsees name ((List.mem_cons.1 hname).resolve_left heq)
      rw [hscopes, List.findSome?_cons] at hfound
      exact ⟨ty, by rwa [if_neg heq], hknown⟩
  · exact (List.mem_cons.1 hname).imp_left List.mem_singleton.2

end Leaves

theorem reads_define {token : Token} {result : Value} (htoken : unmarked token.lexeme = result.name)
    (hname : Text.IsNamePart result.name) (hnew : result.name ∉ s.defined) :
    Returns (define token result.ty) (s.reading rest) result
      ((s.define result.name result.ty).reading rest) := by
  have hnot : ¬ (s.reading rest).defined.contains result.name = true := by
    rw [State.reading_defined, List.contains_iff_mem]
    exact hnew
  unfold define
  rw [htoken, Returns.get_bind_iff, if_neg hnot, Returns.modify_bind_iff, named_eq hname]
  refine Returns.pure_iff.2 ⟨rfl, ?_⟩
  cases rest <;> rfl

/-- Distinct new results are defined, whatever tokens come next. -/
theorem reads_defineAll {visible : List String} {known : List Value} {tokens : List Token}
    {results : List Value} (htokens : tokens.map (unmarked ·.lexeme) = results.map Value.name)
    (hnames : ∀ result ∈ results, Text.IsNamePart result.name)
    (hnodup : (results.map Value.name).Nodup) (hnew : ∀ result ∈ results, result.name ∉ s.defined)
    (hknown : results ⊆ known) (hsees : Sees s.scopes visible known) (hinner : s.scopes ≠ []) :
    ∃ s' : State, Returns (defineAll (tokens.zip (results.map Value.ty))) (s.reading rest) results
      (s'.reading rest)
      ∧ Leaves (results.map Value.name ++ visible) known (results.map Value.name) s s' := by
  induction results generalizing s tokens visible with
  | nil =>
      refine ⟨s, ?_, .refl hsees hinner⟩
      rw [List.map_nil, List.zip_nil_right, defineAll]
      exact Returns.pure_iff.2 ⟨rfl, rfl⟩
  | cons result results ih =>
      obtain ⟨token, tokens, rfl⟩ : ∃ token tokens', tokens = token :: tokens' := by
        cases tokens with
        | nil => cases htokens
        | cons token tokens => exact ⟨_, _, rfl⟩
      rw [List.map_cons, List.map_cons, List.cons.injEq] at htokens
      rw [List.map_cons, List.nodup_cons] at hnodup
      obtain ⟨hresult, hresults⟩ := List.cons_subset.1 hknown
      have hfirst := Leaves.define hsees hinner hresult
      have hnew1 : ∀ other ∈ results, other.name ∉ (s.define result.name result.ty).defined := by
        intro other hother hmem
        rcases List.mem_cons.1 hmem with heq | hmem
        · exact hnodup.1 (heq ▸ List.mem_map_of_mem hother)
        · exact hnew other (List.mem_cons_of_mem _ hother) hmem
      obtain ⟨s', hread, hleaves⟩ := ih htokens.2
        (fun other hother => hnames other (List.mem_cons_of_mem _ hother)) hnodup.2 hnew1 hresults
        hfirst.sees hfirst.inner
      have hdefine := @reads_define s rest token result htokens.1 (hnames result List.mem_cons_self)
        (hnew result List.mem_cons_self)
      refine ⟨s', ?_, (hfirst.trans hleaves).mono List.perm_middle.symm.subset (List.Subset.refl _)⟩
      rw [List.map_cons, List.zip_cons_cons, defineAll]
      exact Returns.bind_iff.2
        ⟨_, _, hdefine, Returns.bind_iff.2 ⟨_, _, hread, Returns.pure_iff.2 ⟨rfl, rfl⟩⟩⟩

end DialectIR.Parse
