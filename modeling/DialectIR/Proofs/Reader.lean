import DialectIR.Parse
import DialectIR.Proofs.Returns

/-! What the readers of the textual form do to the state when they succeed: the small ones exactly,
and lists between commas by an invariant. Those that only take tokens keep whatever taking a token
keeps. -/

namespace DialectIR.Parse

variable {α : Type} {before after : State}

theorem State.advance_eq (s : State) (token : Token) (later : List Token)
    (hlater : s.later = token :: later) (hkind : s.here.kind ≠ .eof) :
    s.advance = { s with here := token, later } := by
  rw [State.advance, if_neg hkind, hlater]

theorem State.advance_context (s : State) : s.advance.context = s.context := by
  unfold State.advance
  split
  · rfl
  · split <;> rfl

theorem State.advance_scopes (s : State) : s.advance.scopes = s.scopes := by
  unfold State.advance
  split
  · rfl
  · split <;> rfl

theorem State.advance_defined (s : State) : s.advance.defined = s.defined := by
  unfold State.advance
  split
  · rfl
  · split <;> rfl

/-- The tokens to come. -/
def State.tokens (s : State) : List Token := s.here :: s.later

theorem State.tokens_advance_subset (s : State) : s.advance.tokens ⊆ s.tokens := by
  unfold State.advance State.tokens
  split
  · exact List.Subset.refl _
  · split
    next token later h =>
      rw [h]
      exact List.subset_cons_self _ _
    next => exact List.Subset.refl _

@[simp] theorem returns_fault {location : Location} {reason : SyntaxFault} {result : α} :
    ¬ Returns (fault location reason) before result after := Returns.throw_iff

theorem returns_isNext_bind {kind : Token.Kind} {next : Bool → Reader α} {result : α} :
    Returns (isNext kind >>= next) before result after
      ↔ Returns (next (decide (before.here.kind = kind))) before result after := by
  unfold isNext
  rw [bind_assoc, Returns.get_bind_iff, pure_bind]

theorem returns_expect {kind : Token.Kind} {token : Token} :
    Returns (expect kind) before token after
      ↔ before.here.kind = kind ∧ token = before.here ∧ after = before.advance := by
  unfold expect
  rw [Returns.get_bind_iff, Returns.ite_iff]
  split
  next h => simp only [Returns.modify_bind_iff, Returns.pure_iff, h, true_and]
  next h => simp only [returns_fault, h, false_and]

theorem returns_accept {kind : Token.Kind} {found : Bool} :
    Returns (accept kind) before found after
      ↔ found = decide (before.here.kind = kind)
        ∧ after = if before.here.kind = kind then before.advance else before := by
  unfold accept
  rw [returns_isNext_bind]
  by_cases h : before.here.kind = kind
  · simp only [h, decide_true, if_true, Returns.modify_bind_iff, Returns.pure_iff]
  · simp only [h, decide_false, if_false, Bool.false_eq_true, Returns.pure_iff]

/-- What holds of the initial result and is kept by reading a further item and by commas holds of a
list between commas. -/
theorem commaSeparated_induction {item : α → Reader α} (P : α → State → Prop)
    (hitem : ∀ a s a' s', P a s → Returns (item a) s a' s' → P a' s')
    (hcomma : ∀ a s, P a s → P a s.advance) {steps : Nat} {start result : α}
    (h : Returns (commaSeparated item steps start) before result after) (hstart : P start before) :
    P result after := by
  induction steps generalizing start before with
  | zero =>
      rw [commaSeparated] at h
      simp at h
  | succ steps ih =>
      rw [commaSeparated, Returns.bind_iff] at h
      obtain ⟨a, s, hread, h⟩ := h
      have hkept := hitem _ _ _ _ hstart hread
      obtain ⟨found, s', haccept, h⟩ := Returns.bind_iff.1 h
      obtain ⟨rfl, rfl⟩ := returns_accept.1 haccept
      by_cases hcomma' : s.here.kind = .comma
      · simp only [hcomma', decide_true, if_true] at h
        exact ih h (hcomma _ _ hkept)
      · simp only [hcomma', decide_false, if_false, Bool.false_eq_true, Returns.pure_iff] at h
        rw [h.1, h.2]
        exact hkept

section

variable {P : State → Prop} (hadvance : ∀ s : State, P s → P s.advance)

theorem maintains_isNext (kind : Token.Kind) : Maintains P (isNext kind) :=
  .get_bind fun _ => .pure _

include hadvance

theorem maintains_accept (kind : Token.Kind) : Maintains P (accept kind) :=
  (maintains_isNext kind).bind fun _ =>
    .ite ((Maintains.modify hadvance).bind fun _ => .pure _) (.pure _)

theorem maintains_expect (kind : Token.Kind) : Maintains P (expect kind) :=
  .get_bind fun _ => .ite ((Maintains.modify hadvance).bind fun _ => .pure _) (.throw _)

theorem maintains_commaSeparated {item : α → Reader α} (h : ∀ a, Maintains P (item a)) (steps : Nat)
    (start : α) :
    Maintains P (commaSeparated item steps start) := by
  induction steps generalizing start with
  | zero => exact .get_bind fun _ => .throw _
  | succ steps ih =>
      exact (h start).bind fun a => (maintains_accept hadvance _).bind fun found =>
        .ite (ih a) (.pure a)

theorem maintains_operand : Maintains P operand := by
  refine (maintains_expect hadvance _).bind fun token => .get_bind fun s => ?_
  split
  · exact .pure _
  · exact .throw _

theorem maintains_type : Maintains P type := by
  refine (maintains_accept hadvance _).bind fun found =>
    .ite ((maintains_expect hadvance _).bind fun _ => .pure _) ?_
  refine (maintains_expect hadvance _).bind fun token => ?_
  split
  · exact .pure _
  · exact .throw _

theorem maintains_literalType (default : Ty) : Maintains P (literalType default) :=
  (maintains_accept hadvance _).bind fun _ => .ite (maintains_type hadvance) (.pure _)

theorem maintains_integerAttribute (negative : Bool) : Maintains P (integerAttribute negative) := by
  refine (maintains_expect hadvance _).bind fun token => ?_
  split
  · exact .throw _
  · exact (maintains_literalType hadvance _).bind fun ty => .ite (.pure _) (.throw _)

theorem maintains_floatAttribute (negative : Bool) : Maintains P (floatAttribute negative) := by
  refine (maintains_expect hadvance _).bind fun token => ?_
  split
  · exact .throw _
  · exact (maintains_literalType hadvance _).bind fun ty => .pure _

theorem maintains_attributeValue : Maintains P attributeValue := by
  have htaken (value : Attribute) : Maintains P (do
      modify State.advance
      return value : Reader Attribute) := (Maintains.modify hadvance).bind fun _ => .pure _
  refine .get_bind fun s => ?_
  dsimp only
  split
  · refine (Maintains.modify hadvance).bind fun _ => (maintains_isNext _).bind fun _ => ?_
    exact .ite (maintains_floatAttribute hadvance true) (maintains_integerAttribute hadvance true)
  · exact maintains_integerAttribute hadvance false
  · exact maintains_floatAttribute hadvance false
  · exact htaken _
  · exact htaken _
  · exact htaken _
  · exact htaken _
  · exact (maintains_type hadvance).bind fun _ => .pure _
  · exact (maintains_type hadvance).bind fun _ => .pure _
  · exact .throw _

theorem maintains_attributeEntry (attributes : Attributes) :
    Maintains P (attributeEntry attributes) :=
  (maintains_expect hadvance _).bind fun _ => (maintains_expect hadvance _).bind fun _ =>
    (maintains_attributeValue hadvance).bind fun _ => .ite (.throw _) (.pure _)

theorem maintains_attributes? (steps : Nat) : Maintains P (attributes? steps) := by
  refine .get_bind fun s => .ite ?_ (.pure _)
  refine (maintains_expect hadvance _).bind fun _ => ?_
  exact (maintains_commaSeparated hadvance (maintains_attributeEntry hadvance) steps _).bind
    fun _ =>
    (maintains_expect hadvance _).bind fun _ => .pure _

theorem maintains_resultTokens (steps : Nat) : Maintains P (resultTokens steps) := by
  refine (maintains_isNext _).bind fun found => .ite ?_ (.pure _)
  refine (maintains_commaSeparated hadvance (fun _ => ?_) _ _).bind fun _ =>
    (maintains_expect hadvance _).bind fun _ => .pure _
  exact (maintains_expect hadvance _).bind fun _ => .pure _

theorem maintains_operands (line steps : Nat) : Maintains P (operands line steps) := by
  refine .get_bind fun s => .ite (maintains_commaSeparated hadvance (fun _ => ?_) _ _) (.pure _)
  exact (maintains_operand hadvance).bind fun _ => .pure _

theorem maintains_resultTypes (steps : Nat) : Maintains P (resultTypes steps) := by
  refine (maintains_accept hadvance _).bind fun found =>
    .ite (maintains_commaSeparated hadvance (fun _ => ?_) _ _) (.pure _)
  exact (maintains_type hadvance).bind fun _ => .pure _

end

/-- The operations of a source are read from its first token to the one that ends it. -/
theorem returns_of_topLevel {tokens : List Token} {context other : Context} {ops : List Operation}
    (h : topLevel tokens context = (.ok ops, other)) : ∃ here later s, tokens = here :: later
      ∧ Returns (operationsUntil .eof (operation tokens.length) tokens.length)
        { here, later, context } ops s
      ∧ s.context = other := by
  cases tokens with
  | nil => cases h
  | cons here later =>
      have hanswer := congrArg Prod.fst h
      exact ⟨here, later, _, rfl, Prod.ext hanswer rfl, congrArg Prod.snd h⟩

end DialectIR.Parse
