import DialectIR.Proofs.Accepted
import DialectIR.Proofs.Growth

/-! Two readers side by side, on tokens that differ in their places only and in contexts that may
differ. Only the start of the operands depends on places, and only the names of operations are
checked in the context. So if the tokens agree in the one and the second context accepts what the
first one does, then the second reader gives the result of the first. -/

namespace DialectIR.Parse

variable {α β γ δ : Type}

/-- Tokens of one class that were read from the same characters, perhaps at different places. -/
def SameWord (token token' : Token) : Prop :=
  token.kind = token'.kind ∧ token.lexeme = token'.lexeme

/-- A value right behind a name is on the line of the name in both lists of tokens or in none. -/
def SameLines : List Token → List Token → Prop
  | name :: value :: tokens, name' :: value' :: tokens' =>
      (name.kind = .bare → value.kind = .value →
          (value.location.line = name.location.line ↔ value'.location.line = name'.location.line))
        ∧ SameLines (value :: tokens) (value' :: tokens')
  | _, _ => True

theorem SameWord.refl (token : Token) : SameWord token token := ⟨rfl, rfl⟩

theorem SameLines.refl (tokens : List Token) : SameLines tokens tokens := by
  induction tokens with
  | nil => trivial
  | cons name tokens ih =>
      cases tokens with
      | nil => trivial
      | cons value tokens => exact ⟨fun _ _ => Iff.rfl, ih⟩

/-- How the contexts of two readers are related. If the coupling is strict, then the second reader
fails where the first one does; else it may go on. -/
structure Coupling where
  Contexts : Context → Context → Prop
  strict : Prop
  load : ∀ {context other}, Contexts context other → ∀ name,
    Contexts (context.load name) (other.load name)
  accepts : ∀ {context other}, Contexts context other → ∀ name, context.Accepts name →
    other.Accepts name
  refuses : strict → ∀ {context other}, Contexts context other → ∀ name, other.Accepts name →
    context.Accepts name

namespace Coupling

variable (coupling : Coupling)

/-- The states of two readers that read the same words. -/
structure States (s s' : State) : Prop where
  words : List.Forall₂ SameWord s.tokens s'.tokens
  lines : SameLines s.tokens s'.tokens
  contexts : coupling.Contexts s.context s'.context
  scopes : s.scopes = s'.scopes
  defined : s.defined = s'.defined

/-- The second reader follows the first one: to a result that is related to the result of the first,
and if the coupling is strict, also to an error. -/
def Follows (related : α → β → State → State → Prop) (reader : Reader α) (s : State)
    (reader' : Reader β) (s' : State) : Prop :=
  match runFrom reader s with
  | (.ok a, t) => ∃ b t', runFrom reader' s' = (.ok b, t') ∧ related a b t t'
  | (.error _, t) =>
      coupling.strict → ∃ error t', runFrom reader' s' = (.error error, t')
        ∧ coupling.Contexts t.context t'.context

/-- Started in coupled states the second reader follows the first one, to a related result and to
coupled states. -/
def Keeps (related : α → β → Prop) (reader : Reader α) (reader' : Reader β) : Prop :=
  ∀ ⦃s s'⦄, coupling.States s s' → coupling.Follows
    (fun a b t t' => related a b ∧ coupling.States t t') reader s reader' s'

variable {coupling} {s s' : State}

section

variable {related : α → β → State → State → Prop} {related' : γ → δ → State → State → Prop}
  {reader : Reader α} {reader' : Reader β} {next : α → Reader γ} {next' : β → Reader δ}

theorem Follows.mono {weaker : α → β → State → State → Prop}
    (h : coupling.Follows related reader s reader' s')
    (hweaker : ∀ a b t t', Returns reader s a t → Returns reader' s' b t' → related a b t t' →
      weaker a b t t') :
    coupling.Follows weaker reader s reader' s' := by
  unfold Follows at h ⊢
  rcases hrun : runFrom reader s with ⟨error | a, t⟩
  · rwa [hrun] at h
  · rw [hrun] at h
    obtain ⟨b, t', hrun', hrelated⟩ := h
    exact ⟨b, t', hrun', hweaker a b t t' hrun hrun' hrelated⟩

theorem Follows.bind (h : coupling.Follows related reader s reader' s')
    (hnext : ∀ a b t t', related a b t t' → coupling.Follows related' (next a) t (next' b) t') :
    coupling.Follows related' (reader >>= next) s (reader' >>= next') s' := by
  unfold Follows at h ⊢
  rw [runFrom_bind, runFrom_bind]
  rcases hrun : runFrom reader s with ⟨error | a, t⟩
  · rw [hrun] at h
    intro hstrict
    obtain ⟨error', t', hrun', hcontexts⟩ := h hstrict
    exact ⟨error', t', by rw [hrun'], hcontexts⟩
  · rw [hrun] at h
    obtain ⟨b, t', hrun', hrelated⟩ := h
    rw [hrun']
    exact hnext a b t t' hrelated

end

namespace Keeps

variable {related : α → β → Prop} {related' : γ → δ → Prop} {reader : Reader α} {reader' : Reader β}
  {next : α → Reader γ} {next' : β → Reader δ}

theorem pure {a : α} {b : β} (h : related a b) : coupling.Keeps related (pure a) (pure b) :=
  fun _ _ hstates => ⟨b, _, rfl, h, hstates⟩

theorem fault (location location' : Location) (reason reason' : SyntaxFault) :
    coupling.Keeps related (Parse.fault location reason) (Parse.fault location' reason') :=
  fun _ s' hstates _ => ⟨(reason', location'), s', rfl, hstates.contexts⟩

theorem modify {f f' : State → State}
    (h : ∀ s s', coupling.States s s' → coupling.States (f s) (f' s')) :
    coupling.Keeps Eq (modify f : Reader PUnit) (modify f' : Reader PUnit) :=
  fun s s' hstates => ⟨⟨⟩, f' s', rfl, rfl, h s s' hstates⟩

theorem bind (h : coupling.Keeps related reader reader')
    (hnext : ∀ a b, related a b → coupling.Keeps related' (next a) (next' b)) :
    coupling.Keeps related' (reader >>= next) (reader' >>= next') :=
  fun _ _ hstates => (h hstates).bind fun a b _ _ hpost => hnext a b hpost.1 hpost.2

/-- Behind equal results. -/
theorem bind_eq {reader reader' : Reader α} {next : α → Reader γ} {next' : α → Reader δ}
    (h : coupling.Keeps Eq reader reader')
    (hnext : ∀ a, coupling.Keeps related' (next a) (next' a)) :
    coupling.Keeps related' (reader >>= next) (reader' >>= next') :=
  h.bind fun a _ heq => heq ▸ hnext a

theorem get_bind {next : State → Reader γ} {next' : State → Reader δ}
    (h : ∀ s s', coupling.States s s' → coupling.Keeps related' (next s) (next' s')) :
    coupling.Keeps related' (get >>= next) (get >>= next') :=
  fun s s' hstates => h s s' hstates hstates

theorem ite {condition condition' : Prop} [Decidable condition] [Decidable condition']
    {yes no : Reader α} {yes' no' : Reader β} (hcondition : condition ↔ condition')
    (hyes : coupling.Keeps related yes yes') (hno : coupling.Keeps related no no') :
    coupling.Keeps related (if condition then yes else no) (if condition' then yes' else no') := by
  by_cases h : condition
  · rw [if_pos h, if_pos (hcondition.1 h)]
    exact hyes
  · rw [if_neg h, if_neg (mt hcondition.2 h)]
    exact hno

end Keeps

namespace States

theorem here (h : coupling.States s s') : SameWord s.here s'.here := (List.forall₂_cons.1 h.words).1

theorem later (h : coupling.States s s') : List.Forall₂ SameWord s.later s'.later :=
  (List.forall₂_cons.1 h.words).2

theorem kind (h : coupling.States s s') (kind : Token.Kind) :
    s.here.kind = kind ↔ s'.here.kind = kind := by rw [h.here.1]

/-- There is nothing behind the next tokens, or words that go together. -/
theorem later_cases (h : coupling.States s s') : s.later = [] ∧ s'.later = []
    ∨ ∃ token tokens token' tokens', s.later = token :: tokens ∧ s'.later = token' :: tokens'
      ∧ (s.here.kind = .bare → token.kind = .value →
          (token.location.line = s.here.location.line ↔ token'.location.line
            = s'.here.location.line))
      ∧ List.Forall₂ SameWord (token :: tokens) (token' :: tokens')
      ∧ SameLines (token :: tokens) (token' :: tokens') := by
  have hlater := h.later
  have hlines := h.lines
  unfold State.tokens at hlines
  generalize s.later = later, s'.later = later' at hlater hlines
  cases hlater with
  | nil => exact .inl ⟨rfl, rfl⟩
  | cons hword hwords => exact .inr ⟨_, _, _, _, rfl, rfl, hlines.1, .cons hword hwords, hlines.2⟩

theorem advance (h : coupling.States s s') : coupling.States s.advance s'.advance := by
  by_cases heof : s.here.kind = .eof
  · rw [State.advance, State.advance, if_pos heof, if_pos ((h.kind _).1 heof)]
    exact h
  · rcases h.later_cases with ⟨hs, hs'⟩
      | ⟨token, tokens, token', tokens', hs, hs', -, hwords, hlines⟩
    · simpa only [State.advance, hs, hs', ite_self] using h
    · rw [State.advance_eq s token tokens hs heof,
        State.advance_eq s' token' tokens' hs' (mt (h.kind _).2 heof)]
      exact ⟨hwords, hlines, h.contexts, h.scopes, h.defined⟩

theorem startsAttributes (h : coupling.States s s') : s.startsAttributes = s'.startsAttributes := by
  have hlater := h.later
  unfold State.startsAttributes
  rw [h.here.1]
  generalize s.later = tokens, s'.later = tokens' at hlater
  rcases hlater with _ | ⟨hfirst, _ | ⟨hsecond, _⟩⟩
  · rfl
  · rfl
  · dsimp only
    rw [hfirst.1, hsecond.1]

end States

theorem keeps_advance :
    coupling.Keeps Eq (modify State.advance : Reader PUnit) (modify State.advance : Reader PUnit) :=
  .modify fun _ _ h => h.advance

theorem keeps_isNext (kind : Token.Kind) : coupling.Keeps Eq (isNext kind) (isNext kind) :=
  .get_bind fun _ _ h => .pure (by rw [h.here.1])

theorem keeps_accept (kind : Token.Kind) : coupling.Keeps Eq (accept kind) (accept kind) :=
  (keeps_isNext kind).bind_eq fun _ =>
    .ite .rfl (keeps_advance.bind_eq fun _ => .pure rfl) (.pure rfl)

theorem keeps_expect (kind : Token.Kind) : coupling.Keeps SameWord (expect kind) (expect kind) :=
  .get_bind fun _ _ h => .ite (h.kind kind) (keeps_advance.bind_eq fun _ => .pure h.here)
    (.fault _ _ _ _)

theorem keeps_outOfSteps {related : α → α → Prop} : coupling.Keeps related
    (do Parse.fault (← get).here.location .outOfSteps : Reader α)
    (do Parse.fault (← get).here.location .outOfSteps : Reader α) :=
  .get_bind fun _ _ _ => .fault _ _ _ _

theorem keeps_commaSeparated {related : α → α → Prop} {item : α → Reader α}
    (hitem : ∀ a b, related a b → coupling.Keeps related (item a) (item b)) (steps : Nat) {a b : α}
    (h : related a b) :
    coupling.Keeps related (commaSeparated item steps a) (commaSeparated item steps b) := by
  induction steps generalizing a b with
  | zero => exact keeps_outOfSteps
  | succ steps ih =>
      refine (hitem a b h).bind fun a b h => (keeps_accept .comma).bind_eq fun found => ?_
      exact .ite .rfl (ih h) (.pure h)

/-- Lists whose items are read one after the other. -/
theorem keeps_items {related : α → α → Prop} {item : Reader α}
    (hitem : coupling.Keeps related item item) (steps : Nat) :
    coupling.Keeps (List.Forall₂ related)
      (commaSeparated (fun items => return items ++ [← item]) steps [])
      (commaSeparated (fun items => return items ++ [← item]) steps []) :=
  keeps_commaSeparated (fun _ _ hitems => hitem.bind fun _ _ h =>
    .pure (List.rel_append hitems (.cons h .nil))) steps .nil

theorem keeps_items_eq {item : Reader α} (hitem : coupling.Keeps Eq item item) (steps : Nat) :
    coupling.Keeps Eq (commaSeparated (fun items => return items ++ [← item]) steps [])
      (commaSeparated (fun items => return items ++ [← item]) steps []) := by
  have hread := keeps_items hitem steps
  rwa [List.forall₂_eq_eq_eq] at hread

theorem keeps_operand : coupling.Keeps Eq operand operand := by
  refine (keeps_expect .value).bind fun token token' hword => .get_bind fun s s' h => ?_
  rw [hword.2, h.scopes]
  split
  · exact .pure rfl
  · exact .fault _ _ _ _

theorem keeps_type : coupling.Keeps Eq type type := by
  refine (keeps_accept .exclamation).bind_eq fun found => .ite .rfl ?_ ?_
  · exact (keeps_expect .bare).bind fun token token' hword => .pure (congrArg Ty.foreign hword.2)
  · refine (keeps_expect .bare).bind fun token token' hword => ?_
    rw [hword.2]
    split
    · exact .pure rfl
    · exact .fault _ _ _ _

theorem keeps_literalType (default : Ty) :
    coupling.Keeps Eq (literalType default) (literalType default) :=
  (keeps_accept .colon).bind_eq fun _ => .ite .rfl keeps_type (.pure rfl)

theorem keeps_integerAttribute (negative : Bool) :
    coupling.Keeps Eq (integerAttribute negative) (integerAttribute negative) := by
  refine (keeps_expect .integer).bind fun token token' hword => ?_
  rw [hword.2]
  split
  · exact .fault _ _ _ _
  · exact (keeps_literalType _).bind_eq fun ty => .ite .rfl (.pure rfl) (.fault _ _ _ _)

theorem keeps_floatAttribute (negative : Bool) :
    coupling.Keeps Eq (floatAttribute negative) (floatAttribute negative) := by
  refine (keeps_expect .float).bind fun token token' hword => ?_
  rw [hword.2]
  split
  · exact .fault _ _ _ _
  · exact (keeps_literalType _).bind_eq fun ty => .pure rfl

theorem keeps_attributeValue : coupling.Keeps Eq attributeValue attributeValue := by
  have htaken (value : Attribute) : coupling.Keeps Eq
      (do
        modify State.advance
        return value : Reader Attribute)
      (do
        modify State.advance
        return value : Reader Attribute) := keeps_advance.bind_eq fun _ => .pure rfl
  refine .get_bind fun s s' h => ?_
  dsimp only
  rw [h.here.1, h.here.2]
  split
  · refine keeps_advance.bind_eq fun _ => (keeps_isNext .float).bind_eq fun _ => ?_
    exact .ite .rfl (keeps_floatAttribute true) (keeps_integerAttribute true)
  · exact keeps_integerAttribute false
  · exact keeps_floatAttribute false
  · exact htaken _
  · exact htaken _
  · exact htaken _
  · exact htaken _
  · exact keeps_type.bind_eq fun _ => .pure rfl
  · exact keeps_type.bind_eq fun _ => .pure rfl
  · exact .fault _ _ _ _

theorem keeps_attributeEntry (attributes : Attributes) :
    coupling.Keeps Eq (attributeEntry attributes) (attributeEntry attributes) := by
  refine (keeps_expect .bare).bind fun name name' hword =>
    (keeps_expect .equal).bind fun _ _ _ => ?_
  refine keeps_attributeValue.bind_eq fun value => ?_
  rw [hword.2]
  exact .ite .rfl (.fault _ _ _ _) (.pure rfl)

theorem keeps_attributes? (steps : Nat) :
    coupling.Keeps Eq (attributes? steps) (attributes? steps) := by
  refine .get_bind fun s s' h => .ite (by rw [h.startsAttributes]) ?_ (.pure rfl)
  refine (keeps_expect .lbrace).bind fun _ _ _ => ?_
  refine (keeps_commaSeparated (fun attributes _ heq => heq ▸ keeps_attributeEntry attributes) steps
    rfl).bind_eq fun _ => ?_
  exact (keeps_expect .rbrace).bind fun _ _ _ => .pure rfl

theorem keeps_resultTokens (steps : Nat) :
    coupling.Keeps (List.Forall₂ SameWord) (resultTokens steps) (resultTokens steps) := by
  refine (keeps_isNext .value).bind_eq fun found => .ite .rfl ?_ (.pure .nil)
  refine (keeps_items (keeps_expect .value) steps).bind fun tokens tokens' h => ?_
  exact (keeps_expect .equal).bind fun _ _ _ => .pure h

theorem keeps_resultTypes (steps : Nat) :
    coupling.Keeps Eq (resultTypes steps) (resultTypes steps) :=
  (keeps_accept .colon).bind_eq fun _ => .ite .rfl (keeps_items_eq keeps_type steps) (.pure rfl)

theorem keeps_checkCount (token token' : Token) (results types : Nat) :
    coupling.Keeps Eq (checkCount token results types) (checkCount token' results types) :=
  .ite .rfl (.pure rfl) (.fault _ _ _ _)

theorem keeps_define {token token' : Token} (hword : SameWord token token') (ty : Ty) :
    coupling.Keeps Eq (define token ty) (define token' ty) := by
  refine .get_bind fun s s' h => ?_
  rw [hword.2, h.defined]
  refine .ite .rfl (.fault _ _ _ _) (Keeps.bind_eq (.modify fun s s' h => ?_) fun _ => .pure rfl)
  refine ⟨h.words, h.lines, h.contexts, ?_, ?_⟩
  · rw [State.define, State.define, h.scopes]
  · rw [State.define, State.define, h.defined]

theorem keeps_defineAll {tokens tokens' : List Token}
    (hwords : List.Forall₂ SameWord tokens tokens') (types : List Ty) :
    coupling.Keeps Eq (defineAll (tokens.zip types)) (defineAll (tokens'.zip types)) := by
  induction hwords generalizing types with
  | nil => exact .pure rfl
  | cons hword _ ih =>
      cases types with
      | nil => exact .pure rfl
      | cons ty types =>
          exact (keeps_define hword ty).bind_eq fun _ => (ih types).bind_eq fun _ => .pure rfl

/-! ### Names and operands -/

/-- The readers are behind names. If a value comes next, then it is on the line of its name for both
or for none. -/
structure Level (coupling : Coupling) (name name' : Token) (s s' : State) : Prop where
  states : coupling.States s s'
  line : s.here.kind = .value →
    (s.here.location.line = name.location.line ↔ s'.here.location.line = name'.location.line)

theorem follows_expect_bare (h : coupling.States s s') :
    coupling.Follows (fun name name' t t' => SameWord name name' ∧ coupling.Level name name' t t')
      (expect .bare) s (expect .bare) s' := by
  refine (keeps_expect .bare h).mono fun name name' t t' hreturns hreturns' hrelated =>
    ⟨hrelated.1, hrelated.2, fun hvalue => ?_⟩
  obtain ⟨hkind, rfl, rfl⟩ := returns_expect.1 hreturns
  obtain ⟨hkind', rfl, rfl⟩ := returns_expect.1 hreturns'
  have heof : s.here.kind ≠ .eof := by simp [hkind]
  have heof' : s'.here.kind ≠ .eof := by simp [hkind']
  rcases h.later_cases with ⟨hs, -⟩ | ⟨token, tokens, token', tokens', hs, hs', hline, -, -⟩
  · -- the name stays the next token, and it is no value
    rw [State.advance, if_neg heof, hs, hkind] at hvalue
    cases hvalue
  · rw [State.advance_eq s token tokens hs heof] at hvalue ⊢
    rw [State.advance_eq s' token' tokens' hs' heof']
    exact hline hkind hvalue

theorem runFrom_checkName (name : OpName) (token : Token) (s : State) :
    runFrom (checkName name token) s = (match nameFault? (s.context.load name.dialect) name with
      | some reason => .error (reason, token.location)
      | none => .ok (), { s with context := s.context.load name.dialect }) := by
  show runFrom (match nameFault? (s.context.load name.dialect) name with
    | some reason => Parse.fault token.location reason
    | none => pure ()) { s with context := s.context.load name.dialect } = _
  split
  · rfl
  · rfl

/-- The only place where contexts matter. -/
theorem follows_checkName {token token' : Token} (h : coupling.Level token token' s s')
    (name : OpName) :
    coupling.Follows (fun _ _ t t' => coupling.Level token token' t t') (checkName name token) s
      (checkName name token') s' := by
  have hcontexts := coupling.load h.states.contexts name.dialect
  unfold Follows
  rw [runFrom_checkName, runFrom_checkName]
  cases hfault : nameFault? (s.context.load name.dialect) name with
  | none =>
      have hfault' := nameFault?_eq_none_iff.2
        (coupling.accepts hcontexts name (nameFault?_eq_none_iff.1 hfault))
      rw [hfault']
      exact ⟨(), _, rfl, ⟨h.states.words, h.states.lines, hcontexts, h.states.scopes,
        h.states.defined⟩, h.line⟩
  | some reason =>
      intro hstrict
      cases hfault' : nameFault? (s'.context.load name.dialect) name with
      | none =>
          have hnone := nameFault?_eq_none_iff.2
            (coupling.refuses hstrict hcontexts name (nameFault?_eq_none_iff.1 hfault'))
          rw [hfault] at hnone
          cases hnone
      | some reason' => exact ⟨_, _, rfl, hcontexts⟩

theorem follows_operands {name name' : Token} (h : coupling.Level name name' s s') (steps : Nat) :
    coupling.Follows (fun values values' t t' => values = values' ∧ coupling.States t t')
      (operands name.location.line steps) s
      (operands name'.location.line steps) s' := by
  have hcondition : (decide (s.here.kind = .value)
    && decide (s.here.location.line = name.location.line)) = true
      ↔ (decide (s'.here.kind = .value) && decide (s'.here.location.line = name'.location.line))
        = true := by
    simp only [Bool.and_eq_true, decide_eq_true_eq]
    exact (and_congr_right h.line).trans (and_congr_left' (h.states.kind _))
  exact Keeps.ite hcondition (keeps_items_eq keeps_operand steps) (.pure rfl) h.states

theorem keeps_operationsUntil {close : Token.Kind} {operation : Reader Operation}
    (h : coupling.Keeps Eq operation operation) (steps : Nat) :
    coupling.Keeps Eq (operationsUntil close operation steps)
      (operationsUntil close operation steps) := by
  induction steps with
  | zero => exact keeps_outOfSteps
  | succ steps ih =>
      refine (keeps_isNext close).bind_eq fun found => .ite .rfl (.pure rfl) ?_
      exact h.bind_eq fun op => ih.bind_eq fun ops => .pure rfl

theorem keeps_region? {operation : Reader Operation} (h : coupling.Keeps Eq operation operation)
    (steps : Nat) :
    coupling.Keeps Eq (region? operation steps) (region? operation steps) := by
  have hscopes (f : List (Dict Ty) → List (Dict Ty)) :
      coupling.Keeps Eq (modify fun s => { s with scopes := f s.scopes } : Reader PUnit)
        (modify fun s => { s with scopes := f s.scopes } : Reader PUnit) :=
    .modify fun _ _ h => ⟨h.words, h.lines, h.contexts, congrArg f h.scopes, h.defined⟩
  refine (keeps_isNext _).bind_eq fun found => .ite .rfl ?_ (.pure rfl)
  refine Keeps.bind_eq ?_ fun ops => .pure rfl
  refine (keeps_expect _).bind fun _ _ _ => (hscopes (.empty :: ·)).bind_eq fun _ => ?_
  refine (keeps_operationsUntil h steps).bind_eq fun ops => (keeps_expect _).bind fun _ _ _ => ?_
  exact (hscopes List.tail).bind_eq fun _ => .pure rfl

theorem keeps_operation (steps : Nat) : coupling.Keeps Eq (operation steps) (operation steps) := by
  induction steps with
  | zero => exact keeps_outOfSteps
  | succ steps ih =>
      refine (keeps_resultTokens _).bind fun tokens tokens' htokens s s' h => ?_
      -- up to the operands it matters on which lines the names stand
      refine (follows_expect_bare h).bind fun name name' s s' ⟨hname, h⟩ => ?_
      rw [hname.2]
      refine (follows_checkName h _).bind fun _ _ s s' h => ?_
      refine (follows_operands h _).bind fun operands _ s s' ⟨hoperands, h⟩ => ?_
      rw [hoperands, htokens.length_eq]
      refine Keeps.bind_eq (keeps_attributes? _) (fun attributes => ?_) h
      refine (keeps_resultTypes _).bind_eq fun types =>
        (keeps_checkCount _ _ _ _).bind_eq fun _ => ?_
      exact (keeps_region? ih _).bind_eq fun region =>
        (keeps_defineAll htokens types).bind_eq fun results => .pure rfl

/-! ### Modules -/

/-- **The second reader follows the first one.** It reads the same operations, and if the coupling
is strict, it reads operations only if the first one does, and it leaves a related context. -/
theorem topLevel_follows (coupling : Coupling) {tokens tokens' : List Token}
    (hwords : List.Forall₂ SameWord tokens tokens') (hlines : SameLines tokens tokens')
    {context other : Context} (h : coupling.Contexts context other) :
    (∀ ops, (topLevel tokens context).1 = .ok ops → (topLevel tokens' other).1 = .ok ops)
      ∧ (coupling.strict → (topLevel tokens context).1.toOption
        = (topLevel tokens' other).1.toOption
        ∧ coupling.Contexts (topLevel tokens context).2 (topLevel tokens' other).2) := by
  cases hwords with
  | nil => exact ⟨nofun, fun _ => ⟨rfl, h⟩⟩
  | @cons here here' later later' hhere hlater =>
      have hlength : (here :: later).length = (here' :: later').length :=
        congrArg (· + 1) hlater.length_eq
      have hstart : coupling.States { here, later, context }
        { here := here', later := later', context := other } :=
        ⟨.cons hhere hlater, hlines, h, rfl, rfl⟩
      have hread : coupling.Keeps Eq
        (operationsUntil .eof (operation (here :: later).length) (here :: later).length) _ :=
        keeps_operationsUntil (keeps_operation _) _
      have hfollows := hread hstart
      have htop (here : Token) (later : List Token) (context : Context) : topLevel
        (here :: later) context
        = ((runFrom (operationsUntil .eof (operation (here :: later).length) (here :: later).length)
          { here, later, context }).1,
          (runFrom (operationsUntil .eof (operation (here :: later).length) (here :: later).length)
            { here, later, context }).2.context) := rfl
      unfold Follows at hfollows
      rw [htop, htop, ← hlength]
      split at hfollows
      next ops t hrun =>
        obtain ⟨ops', t', hrun', rfl, hstates⟩ := hfollows
        rw [hrun, hrun']
        exact ⟨fun _ => id, fun _ => ⟨rfl, hstates.contexts⟩⟩
      next error t hrun =>
        rw [hrun]
        refine ⟨nofun, fun hstrict => ?_⟩
        obtain ⟨error', t', hrun', hcontexts⟩ := hfollows hstrict
        rw [hrun']
        exact ⟨rfl, hcontexts⟩

/-- Readers in the same context. -/
def same : Coupling where
  Contexts := Eq
  strict := True
  load h _ := h ▸ rfl
  accepts h _ := h ▸ id
  refuses _ := fun h _ => h ▸ id

/-- Readers of which the second one has a context that accepts what the context of the first
accepts. -/
def accepting : Coupling where
  Contexts context other := ∀ name, context.Accepts name → other.Accepts name
  strict := False
  load {context other} h asked name haccepts :=
    ((other.sameDialects_load asked).accepts_iff name).2
      (h name (((context.sameDialects_load asked).accepts_iff name).1 haccepts))
  accepts h := h
  refuses := nofun

end Coupling

end DialectIR.Parse

namespace DialectIR

open Parse

variable {source : String} {context other : Context}

/-- What is read from a text is read from its tokens. -/
theorem parse_of_scan {tokens : List Token} (h : Token.scan source = .ok tokens)
    (context : Context) :
    (parse source context).1.toOption = (topLevel tokens context).1.toOption.map asModule
      ∧ (parse source context).2 = (topLevel tokens context).2 := by
  unfold parse Parse.module
  rw [h]
  dsimp only
  rcases topLevel tokens context with ⟨_ | ops, after⟩
  · exact ⟨rfl, rfl⟩
  · exact ⟨rfl, rfl⟩

/-- **Layout only matters for the start of operands.** Texts of the same words are read to the same
module in the same context, or both are refused, and the same dialects are loaded, if a value right
behind a name is on the line of the name in both texts or in none. -/
theorem parse_eq_of_sameLines {source' : String} {tokens tokens' : List Token}
    (hscan : Token.scan source = .ok tokens) (hscan' : Token.scan source' = .ok tokens')
    (hwords : List.Forall₂ SameWord tokens tokens') (hlines : SameLines tokens tokens')
    (context : Context) :
    (parse source context).1.toOption = (parse source' context).1.toOption
      ∧ (parse source context).2 = (parse source' context).2 := by
  obtain ⟨hresult, hafter⟩ := parse_of_scan hscan context
  obtain ⟨hresult', hafter'⟩ := parse_of_scan hscan' context
  obtain ⟨hsame, hcontexts⟩ := (Coupling.same.topLevel_follows hwords hlines rfl).2 trivial
  rw [hresult, hresult', hafter, hafter', hsame]
  exact ⟨rfl, hcontexts⟩

/-- An operation without results before one with a result, on two lines and laid out in another
way. -/
theorem parse_eq_of_sameLines_return :
    (parse "func.return\n%a = func.func : index" (.ofRegistry .standard)).1.isOk = true
      ∧ (parse "func.return\n%a = func.func : index" (.ofRegistry .standard)).1.toOption
        = (parse "  func.return // nothing\n\n%a\n= func.func:index" (.ofRegistry .standard)).1.toOption
      ∧ (parse "func.return\n%a = func.func : index" (.ofRegistry .standard)).2
        = (parse "  func.return // nothing\n\n%a\n= func.func:index" (.ofRegistry .standard)).2 := by
  have hscan : Token.scan "func.return\n%a = func.func : index"
    = .ok [⟨.bare, "func.return", ⟨0, 0⟩⟩, ⟨.value, "%a", ⟨1, 0⟩⟩,
    ⟨.equal, "=", ⟨1, 3⟩⟩, ⟨.bare, "func.func", ⟨1, 5⟩⟩, ⟨.colon, ":", ⟨1, 15⟩⟩,
    ⟨.bare, "index", ⟨1, 17⟩⟩, ⟨.eof, "", ⟨1, 22⟩⟩] := by decide +kernel
  have hscan' : Token.scan "  func.return // nothing\n\n%a\n= func.func:index"
    = .ok [⟨.bare, "func.return", ⟨0, 2⟩⟩,
    ⟨.value, "%a", ⟨2, 0⟩⟩, ⟨.equal, "=", ⟨3, 0⟩⟩, ⟨.bare, "func.func", ⟨3, 2⟩⟩,
    ⟨.colon, ":", ⟨3, 11⟩⟩, ⟨.bare, "index", ⟨3, 12⟩⟩, ⟨.eof, "", ⟨3, 17⟩⟩] := by decide +kernel
  exact ⟨by decide +kernel, parse_eq_of_sameLines hscan hscan' (by simp [SameWord])
    (by simp [SameLines]) (.ofRegistry .standard)⟩

namespace Context

theorem Sound.dialect?_eq (h : context.Sound) (name : String) :
    context.dialect? name = context.registry.get? name := by
  unfold dialect?
  split
  next found hfound => exact (h.registered hfound).symm
  next => rfl

/-- A context with more dialects accepts more, whatever was loaded. -/
theorem Sound.accepts_of_grows (h : context.Sound) (h' : other.Sound)
    (hregistry : context.registry.Grows other.registry)
    (hallows : context.allowsUnregistered = true → other.allowsUnregistered = true) {name : OpName}
    (haccepts : context.Accepts name) :
    other.Accepts name := by
  unfold Accepts definition? at haccepts ⊢
  rw [h.dialect?_eq] at haccepts
  rw [h'.dialect?_eq]
  refine haccepts.imp hallows fun hdefined => ?_
  cases hget : context.registry.get? name.dialect with
  | none =>
      rw [hget] at hdefined
      cases hdefined
  | some dialect =>
      rw [hget] at hdefined
      rw [hregistry hget]
      exact hdefined

end Context

/-- **A context with more dialects reads more.** What is read in one context is read alike in
another that has the dialects of the first registered and allows unregistered ones if the first
does, whatever was loaded in either of them. All contexts in use are sound. -/
theorem parse_of_grows {m : Operation} {after : Context} (hsound : context.Sound)
    (hsound' : other.Sound) (hregistry : context.registry.Grows other.registry)
    (hallows : context.allowsUnregistered = true → other.allowsUnregistered = true)
    (h : parse source context = (.ok m, after)) :
    ∃ after', parse source other = (.ok m, after') := by
  obtain ⟨tokens, hscan⟩ : ∃ tokens, Token.scan source = .ok tokens := by
    cases hscan : Token.scan source with
    | ok tokens => exact ⟨tokens, rfl⟩
    | error fault =>
        unfold parse at h
        rw [hscan] at h
        cases h
  have hresult := (parse_of_scan hscan context).1
  rw [h] at hresult
  obtain ⟨ops, hops, rfl⟩ := Option.map_eq_some_iff.1 hresult.symm
  have hwords : List.Forall₂ SameWord tokens tokens :=
    List.forall₂_same.2 fun token _ => .refl token
  have haccepts : Coupling.accepting.Contexts context other :=
    fun _ => hsound.accepts_of_grows hsound' hregistry hallows
  have hread := (Coupling.accepting.topLevel_follows hwords (.refl tokens) haccepts).1 ops
    (eq_ok_of_toOption hops)
  have hother := (parse_of_scan hscan other).1
  rw [hread] at hother
  exact ⟨_, Prod.ext (eq_ok_of_toOption hother) rfl⟩

/-- A further dialect is registered and loaded. -/
theorem parse_of_grows_arith : ∃ m after after',
    parse "%a = arith.constant \x7bvalue = 1\x7d : i64"
      (.ofRegistry (Registry.empty.insertAll [.arith]).1) = (.ok m, after)
      ∧ parse "%a = arith.constant \x7bvalue = 1\x7d : i64"
        ((Context.ofRegistry ((Registry.empty.insertAll [.arith]).1.insertAll [.llvm]).1).load
          "llvm") = (.ok m, after') := by
  obtain ⟨m, after, hread, -⟩ := exists_ok_and (P := fun _ _ => True)
    (show (parse "%a = arith.constant \x7bvalue = 1\x7d : i64"
      (.ofRegistry (Registry.empty.insertAll [.arith]).1)).1.isOk = true by decide +kernel)
        fun _ _ _ => trivial
  have hregistry : (Registry.empty.insertAll [.arith]).1.Grows
      ((Context.ofRegistry ((Registry.empty.insertAll [.arith]).1.insertAll [.llvm]).1).load
        "llvm").registry := by
    rw [Context.registry_load]
    exact Registry.grows_insertAll _ [.llvm]
  obtain ⟨after', hread'⟩ :=
    parse_of_grows (Context.sound_ofRegistry _) ((Context.sound_ofRegistry _).load "llvm")
      hregistry nofun hread
  exact ⟨m, after, after', hread, hread'⟩

end DialectIR
