import DialectIR.Proofs.IndexedReader
import DialectIR.Proofs.ScopeDepth
import DialectIR.Proofs.TokenCount

/-! The reader always gets on, and never leaves its tokens. The two readers, the one with the tokens
that are left and the one with an index, are run side by side: what the first one takes from its
list is what the second one goes past. -/

namespace DialectIR.Parse.Indexed

variable {α β : Type} {tokens : List Token} {cursor cursor' : Cursor} {s s' : State}

theorem returns_peekAt {index : Nat} {token : Token} (h : cursor.tokens[index]? = some token) :
    Returns (peekAt index) cursor token cursor := by
  unfold peekAt
  rw [Returns.get_bind_iff, h]
  exact Returns.pure_iff.2 ⟨rfl, rfl⟩

/-- The cursor stands where the other reader does. -/
structure At (tokens : List Token) (cursor : Cursor) (s : State) : Prop where
  list : cursor.tokens = tokens
  rest : tokens.drop cursor.index = s.tokens
  ended : ∃ last ∈ s.tokens.getLast?, last.kind = .eof
  context : cursor.context = s.context
  scopes : cursor.scopes = s.scopes
  defined : cursor.defined = s.defined

namespace At

theorem index_add (h : At tokens cursor s) : cursor.index + s.tokens.length = tokens.length := by
  have hlength := congrArg List.length h.rest
  rw [List.length_drop] at hlength
  have hpos : 0 < s.tokens.length := Nat.succ_pos _
  omega

theorem length_le (h : At tokens cursor s) : s.tokens.length ≤ tokens.length :=
  h.index_add ▸ Nat.le_add_left _ _

theorem getElem?_add (h : At tokens cursor s) (count : Nat) :
    cursor.tokens[cursor.index + count]? = s.tokens[count]? := by
  rw [h.list, ← h.rest, List.getElem?_drop]

theorem here (h : At tokens cursor s) : cursor.tokens[cursor.index]? = some s.here :=
  h.getElem?_add 0

theorem advance (h : At tokens cursor s) (hkind : s.here.kind ≠ .eof) :
    At tokens { cursor with index := cursor.index + 1 } s.advance := by
  have hended := (shortens_advance_of_ne (.refl h.ended) hkind).ended
  have hrest : tokens.drop (cursor.index + 1) = s.advance.tokens := by
    obtain ⟨token, later, hlater⟩ := exists_later h.ended hkind
    rw [← List.tail_drop, h.rest, s.advance_eq token later hlater hkind]
    exact hlater
  exact ⟨h.list, hrest, hended, h.context.trans s.advance_context.symm,
    h.scopes.trans s.advance_scopes.symm, h.defined.trans s.advance_defined.symm⟩

end At

theorem returns_peek (h : At tokens cursor s) : Returns peek cursor s.here cursor := by
  unfold peek
  rw [Returns.get_bind_iff]
  exact returns_peekAt h.here

theorem returns_advance (h : At tokens cursor s) (hkind : s.here.kind ≠ .eof) :
    Returns advance cursor s.here { cursor with index := cursor.index + 1 } := by
  have hprevious : Returns previous { cursor with index := cursor.index + 1 } s.here
    { cursor with index := cursor.index + 1 } := by
    unfold previous
    rw [Returns.get_bind_iff]
    exact returns_peekAt h.here
  unfold advance
  refine Returns.bind_iff.2 ⟨s.here, cursor, returns_peek h, ?_⟩
  rw [if_pos hkind, Returns.modify_bind_iff]
  exact Returns.bind_iff.2 ⟨_, _, returns_peek (h.advance hkind), hprevious⟩

/-- Started at the cursor the one reader does what the other one does from its state; and neither
runs out of steps. -/
def Mirrors (tokens : List Token) (walk : Walk α) (reader : Reader α) (cursor : Cursor)
    (s : State) : Prop :=
  match runFrom reader s with
  | (.ok a, s') => ∃ cursor', runFrom walk cursor = (.ok a, cursor') ∧ At tokens cursor' s'
  | (.error (reason, location), s') =>
      reason ≠ .outOfSteps ∧ ∃ cursor', runFrom walk cursor
        = (.error (.fault reason location), cursor') ∧ At tokens cursor' s'

namespace Mirrors

variable {walk : Walk α} {reader : Reader α} {next : α → Walk β} {next' : α → Reader β}

theorem pure (h : At tokens cursor s) (a : α) : Mirrors tokens (pure a) (pure a) cursor s :=
  ⟨cursor, rfl, h⟩

theorem fault (h : At tokens cursor s) (location : Location) {reason : SyntaxFault}
    (hreason : reason ≠ .outOfSteps) :
    Mirrors tokens (Indexed.fault location reason : Walk α) (Parse.fault location reason) cursor
      s := ⟨hreason, cursor, rfl, h⟩

theorem bind (h : Mirrors tokens walk reader cursor s)
    (hnext : ∀ a cursor' s', Returns reader s a s' → At tokens cursor' s' →
      Mirrors tokens (next a) (next' a) cursor' s') :
    Mirrors tokens (walk >>= next) (reader >>= next') cursor s := by
  unfold Mirrors at h
  rw [Mirrors, runFrom_bind, runFrom_bind]
  rcases hrun : runFrom reader s with ⟨⟨reason, location⟩ | a, s'⟩
  · rw [hrun] at h
    obtain ⟨hreason, cursor', hwalk, hat⟩ := h
    rw [hwalk]
    exact ⟨hreason, cursor', rfl, hat⟩
  · rw [hrun] at h
    obtain ⟨cursor', hwalk, hat⟩ := h
    rw [hwalk]
    exact hnext a cursor' s' hrun hat

theorem ite {condition : Prop} [Decidable condition] {walk' : Walk α} {reader' : Reader α}
    (hyes : condition → Mirrors tokens walk reader cursor s)
    (hno : ¬ condition → Mirrors tokens walk' reader' cursor s) :
    Mirrors tokens (if condition then walk else walk') (if condition then reader else reader')
      cursor s := by
  split
  next h => exact hyes h
  next h => exact hno h

theorem get_bind {next : Cursor → Walk β} {next' : State → Reader β}
    (h : Mirrors tokens (next cursor) (next' s) cursor s) :
    Mirrors tokens (get >>= next) (get >>= next') cursor s := h

theorem modify_bind {f : Cursor → Cursor} {f' : State → State} {next : PUnit → Walk β}
    {next' : PUnit → Reader β} (h : Mirrors tokens (next ⟨⟩) (next' ⟨⟩) (f cursor) (f' s)) :
    Mirrors tokens (modify f >>= next) (modify f' >>= next') cursor s := h

theorem returns_bind {a : α} {reader : Reader β} (hreturns : Returns walk cursor a cursor')
    (h : Mirrors tokens (next a) reader cursor' s) :
    Mirrors tokens (walk >>= next) reader cursor s := by
  unfold Mirrors at h ⊢
  rw [runFrom_bind, hreturns]
  exact h

theorem peek_bind {next : Token → Walk β} {next' : State → Reader β} (hat : At tokens cursor s)
    (h : Mirrors tokens (next s.here) (next' s) cursor s) :
    Mirrors tokens (peek >>= next) (get >>= next') cursor s :=
  returns_bind (returns_peek hat) h

theorem advance_bind {next : Token → Walk β} {next' : PUnit → Reader β} (hat : At tokens cursor s)
    (hkind : s.here.kind ≠ .eof)
    (h : Mirrors tokens (next s.here) (next' ⟨⟩) { cursor with index := cursor.index + 1 } s.advance) :
    Mirrors tokens (advance >>= next) (modify State.advance >>= next') cursor s :=
  returns_bind (returns_advance hat hkind) h

theorem isNext_bind {kind : Token.Kind} {next : Bool → Walk β} {next' : Bool → Reader β}
    (hat : At tokens cursor s) (h : Mirrors tokens (next (decide (s.here.kind = kind)))
      (next' (decide (s.here.kind = kind))) cursor s) :
    Mirrors tokens (isNext kind >>= next) (Parse.isNext kind >>= next') cursor s := by
  unfold isNext Parse.isNext
  rw [bind_assoc, bind_assoc]
  exact peek_bind hat (by simpa only [pure_bind] using h)

end Mirrors

theorem mirrors_accept (hat : At tokens cursor s) {kind : Token.Kind} (hkind : kind ≠ .eof) :
    Mirrors tokens (accept kind) (Parse.accept kind) cursor s := by
  refine .isNext_bind hat (.ite (fun hhere => ?_) fun _ => .pure hat false)
  -- at the end of the source `advance` would stay, and give the token before it
  have hne : s.here.kind ≠ .eof := (of_decide_eq_true hhere).symm ▸ hkind
  exact .advance_bind hat hne (.pure (hat.advance hne) true)

theorem mirrors_expect (hat : At tokens cursor s) {kind : Token.Kind} (hkind : kind ≠ .eof) :
    Mirrors tokens (expect kind) (Parse.expect kind) cursor s := by
  refine .peek_bind hat (.ite (fun hhere => ?_) fun _ => .fault hat _ (by simp))
  exact ⟨_, returns_advance hat (hhere ▸ hkind), hat.advance (hhere ▸ hkind)⟩

/-- A round of a list takes the comma at its end, so there are not more rounds than tokens. -/
theorem mirrors_commaSeparated {walk : α → Walk α} {item : α → Reader α}
    (hitem : ∀ a {cursor s}, At tokens cursor s → Mirrors tokens (walk a) (item a) cursor s)
    (hkeeps : ∀ before a, Maintains (Shortens 0 before) (item a)) {rounds steps : Nat} {a : α}
    (hat : At tokens cursor s) (hrounds : s.tokens.length ≤ rounds)
    (hsteps : s.tokens.length ≤ steps) :
    Mirrors tokens (commaSeparated walk rounds a) (Parse.commaSeparated item steps a) cursor s := by
  have hpos : 0 < s.tokens.length := Nat.succ_pos _
  induction steps generalizing cursor s rounds a with
  | zero => omega
  | succ steps ih =>
      obtain ⟨rounds, rfl⟩ := Nat.exists_eq_add_one_of_ne_zero
        (Nat.ne_of_gt (Nat.lt_of_lt_of_le hpos hrounds))
      rw [commaSeparated, Parse.commaSeparated]
      refine .bind (hitem a hat) fun a' cursor' s' hreturns hat' => ?_
      have hshorter := (hkeeps s a).of_returns (.refl hat.ended) hreturns
      refine .bind (mirrors_accept hat' (by decide)) fun found cursor'' s'' haccept hat'' => ?_
      refine .ite (fun hfound => ?_) fun _ => .pure hat'' a'
      obtain ⟨rfl, rfl⟩ := returns_accept.1 haccept
      have hcomma : s'.here.kind = .comma := of_decide_eq_true hfound
      rw [if_pos hcomma] at hat'' ⊢
      have hfewer := (shortens_advance_of_ne hshorter (by simp [hcomma])).fewer
      exact ih hat'' (by omega) (by omega) (Nat.succ_pos _)

theorem mirrors_operand (hat : At tokens cursor s) :
    Mirrors tokens operand Parse.operand cursor s := by
  refine .bind (mirrors_expect hat (by decide)) fun token cursor' s' _ hat' => ?_
  refine .get_bind ?_
  rw [hat'.scopes]
  cases s'.scopes.findSome? (·.get? (unmarked token.lexeme)) with
  | some ty => exact .pure hat' _
  | none => exact .fault hat' _ (by simp)

theorem mirrors_define (hat : At tokens cursor s) (token : Token) (ty : Ty) :
    Mirrors tokens (define token ty) (Parse.define token ty) cursor s := by
  refine .get_bind ?_
  rw [hat.defined]
  refine .ite (fun _ => .fault hat _ (by simp)) fun _ => .modify_bind (.pure ?_ _)
  have hscopes : (cursor.define (unmarked token.lexeme) ty).scopes
    = (s.define (unmarked token.lexeme) ty).scopes := by
    cases hcase : s.scopes with
    | nil => simp only [Cursor.define, State.define, hat.scopes, hcase]
    | cons scope outer => simp only [Cursor.define, State.define, hat.scopes, hcase]
  exact ⟨hat.list, hat.rest, hat.ended, hat.context, hscopes,
    congrArg (unmarked token.lexeme :: ·) hat.defined⟩

theorem mirrors_type (hat : At tokens cursor s) : Mirrors tokens type Parse.type cursor s := by
  refine .bind (mirrors_accept hat (by decide)) fun found cursor1 s1 _ hat1 =>
    .ite (fun _ => ?_) fun _ => ?_
  · exact .bind (mirrors_expect hat1 (by decide)) fun token cursor2 s2 _ hat2 => .pure hat2 _
  · refine .bind (mirrors_expect hat1 (by decide)) fun token cursor2 s2 _ hat2 => ?_
    cases Ty.ofKeyword? token.lexeme with
    | some ty => exact .pure hat2 _
    | none => exact .fault hat2 _ (by simp)

theorem mirrors_literalType (hat : At tokens cursor s) (default : Ty) :
    Mirrors tokens (literalType default) (Parse.literalType default) cursor s :=
  .bind (mirrors_accept hat (by decide)) fun _ _ _ _ hat' =>
    .ite (fun _ => mirrors_type hat') fun _ => .pure hat' _

theorem mirrors_integerAttribute (hat : At tokens cursor s) (negative : Bool) :
    Mirrors tokens (integerAttribute negative) (Parse.integerAttribute negative) cursor s := by
  refine .bind (mirrors_expect hat (by decide)) fun token cursor1 s1 _ hat1 => ?_
  cases Text.readInt64? (if negative then "-" ++ token.lexeme else token.lexeme) with
  | none => exact .fault hat1 _ (by simp)
  | some value =>
      refine .bind (mirrors_literalType hat1 _) fun ty cursor2 s2 _ hat2 => ?_
      exact .ite (fun _ => .pure hat2 _) fun _ => .fault hat2 _ (by simp)

theorem mirrors_floatAttribute (hat : At tokens cursor s) (negative : Bool) :
    Mirrors tokens (floatAttribute negative) (Parse.floatAttribute negative) cursor s := by
  refine .bind (mirrors_expect hat (by decide)) fun token cursor1 s1 _ hat1 => ?_
  cases Binary64.read? token.lexeme with
  | none => exact .fault hat1 _ (by simp)
  | some value => exact .bind (mirrors_literalType hat1 _) fun ty cursor2 s2 _ hat2 => .pure hat2 _

theorem mirrors_attributeValue (hat : At tokens cursor s) :
    Mirrors tokens attributeValue Parse.attributeValue cursor s := by
  have htaken (hkind : s.here.kind ≠ .eof) (value : Attribute) : Mirrors tokens (do
      let _ ← advance
      return value) (do
      modify State.advance
      return value) cursor s := .advance_bind hat hkind (.pure (hat.advance hkind) value)
  refine .peek_bind hat ?_
  dsimp only
  cases hkind : s.here.kind with
  | minus =>
      have hne : s.here.kind ≠ .eof := by simp [hkind]
      refine .advance_bind hat hne ?_
      refine .isNext_bind (hat.advance hne) ?_
      exact .ite (fun _ => mirrors_floatAttribute (hat.advance hne) true) fun _ =>
        mirrors_integerAttribute (hat.advance hne) true
  | integer => exact mirrors_integerAttribute hat false
  | float => exact mirrors_floatAttribute hat false
  | true | false | string | symbol => exact htaken (by simp [hkind]) _
  | bare | exclamation => exact .bind (mirrors_type hat) fun ty cursor' s' _ hat' => .pure hat' _
  | _ => exact .fault hat _ (by simp)

theorem mirrors_attributeEntry (attributes : Attributes) (hat : At tokens cursor s) :
    Mirrors tokens (attributeEntry attributes) (Parse.attributeEntry attributes) cursor s := by
  refine .bind (mirrors_expect hat (by decide)) fun name cursor1 s1 _ hat1 => ?_
  refine .bind (mirrors_expect hat1 (by decide)) fun _ cursor2 s2 _ hat2 => ?_
  refine .bind (mirrors_attributeValue hat2) fun value cursor3 s3 _ hat3 => ?_
  exact .ite (fun _ => .fault hat3 _ (by simp)) fun _ => .pure hat3 _

theorem returns_isNext (hat : At tokens cursor s) (kind : Token.Kind) :
    Returns (isNext kind) cursor (decide (s.here.kind = kind)) cursor :=
  Returns.bind_iff.2 ⟨s.here, cursor, returns_peek hat, Returns.pure_iff.2 ⟨rfl, rfl⟩⟩

theorem returns_peekBehind (hat : At tokens cursor s) {count : Nat} {token : Token}
    (htoken : s.tokens[count]? = some token) :
    Returns (peekBehind count) cursor token cursor := by
  have hindex := hat.index_add
  have hlt := (List.getElem?_eq_some_iff.1 htoken).1
  have hmin : min (cursor.index + count) (cursor.tokens.length - 1) = cursor.index + count := by
    rw [hat.list]
    omega
  unfold peekBehind
  rw [Returns.get_bind_iff, hmin]
  exact returns_peekAt ((hat.getElem?_add count).trans htoken)

/-- It does not matter that the one reader looks no further than to the last token: a dictionary
does not start so close to it. -/
theorem returns_startsAttributes (hat : At tokens cursor s) :
    Returns startsAttributes cursor s.startsAttributes cursor := by
  unfold startsAttributes State.startsAttributes
  refine Returns.bind_iff.2 ⟨_, cursor, returns_isNext hat .lbrace, ?_⟩
  by_cases hbrace : s.here.kind = .lbrace
  · have hne : s.here.kind ≠ .eof := by simp [hbrace]
    obtain ⟨first, later, hlater⟩ := exists_later hat.ended hne
    have hfirst : s.tokens[1]? = some first := by rw [State.tokens, hlater]; rfl
    have hended := (hat.advance hne).ended
    rw [s.advance_eq first later hlater hne] at hended
    simp only [hbrace, decide_true, if_true, Bool.true_and, hlater]
    refine Returns.bind_iff.2 ⟨first, cursor, returns_peekBehind hat hfirst, ?_⟩
    by_cases hbare : first.kind = .bare
    · obtain ⟨second, rest, rfl⟩ := exists_later hended (by simp [hbare])
      have hsecond : s.tokens[2]? = some second := by rw [State.tokens, hlater]; rfl
      simp only [hbare, if_true, decide_true, Bool.true_and]
      exact Returns.bind_iff.2 ⟨second, cursor, returns_peekBehind hat hsecond,
        Returns.pure_iff.2 ⟨rfl, rfl⟩⟩
    · rw [if_neg hbare]
      cases later with
      | nil => exact Returns.pure_iff.2 ⟨rfl, rfl⟩
      | cons second rest => exact Returns.pure_iff.2 ⟨by simp [hbare], rfl⟩
  · rw [if_neg (by simpa using hbrace)]
    exact Returns.pure_iff.2 ⟨by simp [hbrace], rfl⟩

section

variable {limit : Nat} (hlimit : tokens.length ≤ limit)

include hlimit

theorem mirrors_attributes? {steps : Nat} (hat : At tokens cursor s)
    (hsteps : s.tokens.length ≤ steps) :
    Mirrors tokens (attributes? limit) (Parse.attributes? steps) cursor s := by
  refine .returns_bind (returns_startsAttributes hat) (.ite (fun _ => ?_) fun _ => .pure hat _)
  refine .bind (mirrors_expect hat (by decide)) fun _ cursor1 s1 hopen hat1 => ?_
  have hfewer := (shortens_expect (.refl hat.ended) (by decide) hopen).fewer
  refine .bind (mirrors_commaSeparated (fun a => mirrors_attributeEntry a)
    (fun before a => maintains_attributeEntry shortens_advance a) hat1
      (hat1.length_le.trans hlimit) (by omega))
    fun entries cursor2 s2 _ hat2 => ?_
  exact .bind (mirrors_expect hat2 (by decide)) fun _ cursor3 s3 _ hat3 => .pure hat3 _

/-! ### Operations -/

theorem mirrors_resultTokens {steps : Nat} (hat : At tokens cursor s)
    (hsteps : s.tokens.length ≤ steps) :
    Mirrors tokens (resultTokens limit) (Parse.resultTokens steps) cursor s := by
  refine .isNext_bind hat (.ite (fun _ => ?_) fun _ => .pure hat _)
  refine .bind (mirrors_commaSeparated (fun found _ _ hat => ?_) (fun before found => ?_) hat
    (hat.length_le.trans hlimit) hsteps)
    fun found cursor1 s1 _ hat1 => .bind (mirrors_expect hat1 (by decide))
      fun _ cursor2 s2 _ hat2 => .pure hat2 _
  · exact .bind (mirrors_expect hat (by decide)) fun token cursor' s' _ hat' => .pure hat' _
  · exact (maintains_expect shortens_advance _).bind fun _ => .pure _

theorem mirrors_operands {line steps : Nat} (hat : At tokens cursor s)
    (hsteps : s.tokens.length ≤ steps) :
    Mirrors tokens (operands line limit) (Parse.operands line steps) cursor s := by
  refine .peek_bind hat (.ite (fun _ => ?_) fun _ => .pure hat _)
  refine mirrors_commaSeparated (fun values _ _ hat => ?_) (fun before values => ?_) hat
    (hat.length_le.trans hlimit) hsteps
  · exact .bind (mirrors_operand hat) fun value cursor' s' _ hat' => .pure hat' _
  · exact (maintains_operand shortens_advance).bind fun _ => .pure _

theorem mirrors_resultTypes {steps : Nat} (hat : At tokens cursor s)
    (hsteps : s.tokens.length ≤ steps) :
    Mirrors tokens (resultTypes limit) (Parse.resultTypes steps) cursor s := by
  refine .bind (mirrors_accept hat (by decide)) fun found cursor1 s1 haccept hat1 =>
    .ite (fun _ => ?_) fun _ => .pure hat1 _
  have hfewer := ((maintains_accept shortens_advance _).of_returns (.refl hat.ended) haccept).fewer
  refine mirrors_commaSeparated (fun types _ _ hat => ?_) (fun before types => ?_) hat1
    (hat1.length_le.trans hlimit) (by omega)
  · exact .bind (mirrors_type hat) fun ty cursor' s' _ hat' => .pure hat' _
  · exact (maintains_type shortens_advance).bind fun _ => .pure _

end

theorem nameFault?_ne_outOfSteps (context : Context) (name : OpName) :
    nameFault? context name ≠ some .outOfSteps := by
  unfold nameFault?
  split
  · simp
  · split
    · simp
    · split <;> simp

theorem mirrors_checkName (hat : At tokens cursor s) (name : OpName) (token : Token) :
    Mirrors tokens (checkName name token) (Parse.checkName name token) cursor s := by
  have hloaded : At tokens { cursor with context := cursor.context.load name.dialect }
      { s with context := s.context.load name.dialect } :=
    ⟨hat.list, hat.rest, hat.ended, congrArg (Context.load · name.dialect) hat.context,
      hat.scopes, hat.defined⟩
  refine .modify_bind (.get_bind ?_)
  rw [hloaded.context]
  cases hfault : nameFault? (s.context.load name.dialect) name with
  | none => exact .pure hloaded ()
  | some reason => exact .fault hloaded _ fun heq => nameFault?_ne_outOfSteps _ _ (heq ▸ hfault)

theorem mirrors_checkCount (hat : At tokens cursor s) (token : Token) (results types : Nat) :
    Mirrors tokens (checkCount token results types)
      (Parse.checkCount token results types) cursor s :=
  .ite (fun _ => .pure hat ()) fun _ => .fault hat _ (by simp)

theorem mirrors_defineAll (hat : At tokens cursor s) (pairs : List (Token × Ty)) :
    Mirrors tokens (defineAll pairs) (Parse.defineAll pairs) cursor s := by
  induction pairs generalizing cursor s with
  | nil => exact .pure hat []
  | cons pair pairs ih =>
      obtain ⟨token, ty⟩ := pair
      refine .bind (mirrors_define hat token ty) fun value cursor1 s1 _ hat1 => ?_
      exact .bind (ih hat1) fun values cursor2 s2 _ hat2 => .pure hat2 _

section

variable {walk : Walk Operation} {reader : Reader Operation} {bound : Nat}
  (hoperation : ∀ {cursor s}, At tokens cursor s → s.tokens.length ≤ bound →
    Mirrors tokens walk reader cursor s)
  (htakes : ∀ {s op s'}, (∃ last ∈ s.tokens.getLast?, last.kind = .eof) → Returns reader s op s' →
    Shortens 1 s s')

include hoperation htakes

/-- A round takes the tokens of an operation, of which there is one at least. -/
theorem mirrors_operationsUntil {rounds steps : Nat} (close : Token.Kind) (hat : At tokens cursor s)
    (hbound : s.tokens.length ≤ bound) (hrounds : s.tokens.length ≤ rounds)
    (hsteps : s.tokens.length ≤ steps) :
    Mirrors tokens (operationsUntil close walk rounds) (Parse.operationsUntil close reader steps)
      cursor s := by
  have hpos : 0 < s.tokens.length := Nat.succ_pos _
  induction steps generalizing cursor s rounds with
  | zero => omega
  | succ steps ih =>
      obtain ⟨rounds, rfl⟩ := Nat.exists_eq_add_one_of_ne_zero
        (Nat.ne_of_gt (Nat.lt_of_lt_of_le hpos hrounds))
      rw [operationsUntil, Parse.operationsUntil]
      refine .isNext_bind hat (.ite (fun _ => .pure hat _) fun _ => ?_)
      refine .bind (hoperation hat hbound) fun op cursor1 s1 hop hat1 => ?_
      have hfewer := (htakes hat.ended hop).fewer
      exact .bind (ih hat1 (by omega) (by omega) (by omega) (Nat.succ_pos _))
        fun ops cursor2 s2 _ hat2 => .pure hat2 _

theorem mirrors_region? {limit steps : Nat} (hlimit : tokens.length ≤ limit)
    (hat : At tokens cursor s) (hbound : s.tokens.length ≤ bound + 1)
    (hsteps : s.tokens.length ≤ steps) :
    Mirrors tokens (region? walk limit) (Parse.region? reader steps) cursor s := by
  refine .isNext_bind hat (.ite (fun _ => ?_) fun _ => .pure hat _)
  rw [map_eq_pure_bind, map_eq_pure_bind]
  refine .bind ?_ fun ops cursor1 s1 _ hat1 => .pure hat1 _
  refine .bind (mirrors_expect hat (by decide)) fun _ cursor1 s1 hopen hat1 => .modify_bind ?_
  have hfewer : s1.tokens.length + 1 ≤ s.tokens.length :=
    (shortens_expect (.refl hat.ended) (by decide) hopen).fewer
  have hentered : At tokens { cursor1 with scopes := .empty :: cursor1.scopes }
    { s1 with scopes := .empty :: s1.scopes } :=
    ⟨hat1.list, hat1.rest, hat1.ended, hat1.context,
      congrArg (Dict.empty :: ·) hat1.scopes, hat1.defined⟩
  refine .bind (mirrors_operationsUntil hoperation htakes .rbrace hentered
    (Nat.le_of_succ_le_succ (hfewer.trans hbound))
    (hentered.length_le.trans hlimit) (Nat.le_of_succ_le (hfewer.trans hsteps)))
      fun ops cursor2 s2 _ hat2 => ?_
  refine .bind (mirrors_expect hat2 (by decide)) fun _ cursor3 s3 _ hat3 =>
    .modify_bind (.pure ?_ ops)
  exact ⟨hat3.list, hat3.rest, hat3.ended, hat3.context,
    congrArg List.tail hat3.scopes, hat3.defined⟩

end

theorem shortens_operation {steps : Nat} {op : Operation}
    (hended : ∃ last ∈ s.tokens.getLast?, last.kind = .eof)
    (hreturns : Returns (Parse.operation steps) s op s') : Shortens 1 s s' := by
  refine (shortens_of_returns_operation (.refl hended) hreturns).weaken ?_
  rw [extent_cons]
  omega

/-- In a region there are fewer tokens left than in front of the operation, so operations are not
nested deeper than there are tokens. -/
theorem mirrors_operation {limit levels steps : Nat} (hlimit : tokens.length ≤ limit)
    (hat : At tokens cursor s) (hlevels : s.tokens.length ≤ levels)
    (hsteps : s.tokens.length ≤ steps) :
    Mirrors tokens (operation limit levels) (Parse.operation steps) cursor s := by
  have hpos : 0 < s.tokens.length := Nat.succ_pos _
  induction levels generalizing cursor s steps with
  | zero => omega
  | succ levels ih =>
      obtain ⟨steps, rfl⟩ := Nat.exists_eq_add_one_of_ne_zero
        (Nat.ne_of_gt (Nat.lt_of_lt_of_le hpos hsteps))
      rw [operation, Parse.operation]
      refine .bind (mirrors_resultTokens hlimit hat hsteps)
        fun results cursor1 s1 hresults hat1 => ?_
      have h1 := (maintains_resultTokens shortens_advance _).of_returns (.refl hat.ended) hresults
      refine .bind (mirrors_expect hat1 (by decide)) fun nameToken cursor2 s2 hname hat2 => ?_
      have h2 := shortens_expect h1 (by decide) hname
      refine .bind (mirrors_checkName hat2 _ _) fun _ cursor3 s3 hcheck hat3 => ?_
      have h3 : Shortens 1 s s3 := h2.of_tokens (by rw [(returns_checkName.1 hcheck).2]; rfl)
      have hfewer3 := h3.fewer
      refine .bind (mirrors_operands hlimit hat3 (by omega))
        fun values cursor4 s4 hvalues hat4 => ?_
      have h4 := (maintains_operands shortens_advance _ _).of_returns h3 hvalues
      have hfewer4 := h4.fewer
      refine .bind (mirrors_attributes? hlimit hat4 (by omega))
        fun entries cursor5 s5 hentries hat5 => ?_
      have h5 := (maintains_attributes? shortens_advance _).of_returns h4 hentries
      have hfewer5 := h5.fewer
      refine .bind (mirrors_resultTypes hlimit hat5 (by omega))
        fun types cursor6 s6 htypes hat6 => ?_
      have h6 := (maintains_resultTypes shortens_advance _).of_returns h5 htypes
      refine .bind (mirrors_checkCount hat6 _ _ _) fun _ cursor7 s7 hcount hat7 => ?_
      obtain ⟨-, rfl⟩ := returns_checkCount.1 hcount
      have hfewer6 := h6.fewer
      have hnested {cursor s} (hat : At tokens cursor s)
        (hle : s.tokens.length ≤ min levels steps) :
          Mirrors tokens (operation limit levels) (Parse.operation steps) cursor s :=
        ih hat (hle.trans (Nat.min_le_left _ _)) (hle.trans (Nat.min_le_right _ _)) (Nat.succ_pos _)
      refine .bind (mirrors_region? hnested shortens_operation hlimit hat7 (by omega) (by omega))
        fun region cursor8 s8 _ hat8 => ?_
      exact .bind (mirrors_defineAll hat8 _) fun values cursor9 s9 _ hat9 => .pure hat9 _

/-! ### Runs on tokens -/

/-- What holds at every point of a run: there is a next token. -/
structure InBounds (tokens : List Token) (cursor : Cursor) : Prop where
  list : cursor.tokens = tokens
  index : cursor.index < tokens.length

theorem At.inBounds (hat : At tokens cursor s) : InBounds tokens cursor := by
  have hindex := hat.index_add
  have hpos : 0 < s.tokens.length := Nat.succ_pos _
  exact ⟨hat.list, by omega⟩

/-- Every cursor within the bounds is where the other reader can be. -/
theorem InBounds.exists_at (h : InBounds tokens cursor)
    (hended : ∃ last ∈ tokens.getLast?, last.kind = .eof) :
    ∃ s, At tokens cursor s := by
  cases hrest : tokens.drop cursor.index with
  | nil =>
      have hle := List.drop_eq_nil_iff.1 hrest
      exact absurd h.index (Nat.not_lt.2 hle)
  | cons here later =>
      have hlast : (here :: later).getLast? = tokens.getLast? := by
        rw [← hrest, List.getLast?_drop, if_neg (Nat.not_le.2 h.index)]
      exact ⟨⟨here, later, cursor.context, cursor.scopes, cursor.defined⟩, h.list, hrest,
        hlast ▸ hended, rfl, rfl, rfl⟩

/-- A whole run gives what the reader with a bound on its steps gives, which it does not reach. -/
theorem runFrom_module {limit : Nat} (hended : ∃ last ∈ tokens.getLast?, last.kind = .eof)
    (hlimit : tokens.length ≤ limit) (context : Context) :
    ∃ cursor, runFrom (module limit) { tokens, context }
      = ((Parse.module tokens context).1.mapError Stop.of, cursor)
        ∧ cursor.context = (Parse.module tokens context).2 ∧ InBounds tokens cursor
        ∧ ∀ location, (Parse.module tokens context).1 ≠ .error (.outOfSteps, location) := by
  cases tokens with
  | nil =>
      obtain ⟨_, ⟨⟩, _⟩ := hended
  | cons here later =>
      let steps := (here :: later).length
      let reader := Parse.operationsUntil .eof (Parse.operation steps) steps
      have hmodule : Parse.module (here :: later) context
          = (asModule <$> (runFrom reader { here, later, context }).1,
            (runFrom reader { here, later, context }).2.context) := rfl
      have hstart : At (here :: later) { tokens := here :: later, context }
        { here, later, context } :=
        ⟨rfl, rfl, hended, rfl, rfl, rfl⟩
      have hoperation {cursor s} (hat : At (here :: later) cursor s)
        (hle : s.tokens.length ≤ steps) :
          Mirrors (here :: later) (operation limit limit) (Parse.operation steps) cursor s :=
        mirrors_operation hlimit hat (hat.length_le.trans hlimit) hle
      have hmirrors : Mirrors (here :: later)
        (operationsUntil .eof (operation limit limit) limit) reader
          { tokens := here :: later, context } { here, later, context } :=
        mirrors_operationsUntil hoperation shortens_operation .eof hstart (Nat.le_refl _) hlimit
          (Nat.le_refl _)
      unfold Mirrors at hmirrors
      rw [module, map_eq_pure_bind, runFrom_bind, hmodule]
      rcases hrun : runFrom reader { here, later, context } with ⟨⟨reason, location⟩ | ops, s⟩
      · rw [hrun] at hmirrors
        obtain ⟨hreason, cursor, hwalk, hat⟩ := hmirrors
        rw [hwalk]
        refine ⟨cursor, rfl, hat.context, hat.inBounds, fun location heq => ?_⟩
        cases heq
        exact hreason rfl
      · rw [hrun] at hmirrors
        obtain ⟨cursor, hwalk, hat⟩ := hmirrors
        rw [hwalk]
        exact ⟨cursor, rfl, hat.context, hat.inBounds, fun location heq => by cases heq⟩

theorem runFrom_operation {limit levels : Nat} (hended : ∃ last ∈ tokens.getLast?, last.kind = .eof)
    (hlimit : tokens.length ≤ limit) (h : InBounds tokens cursor)
    (hlevels : tokens.length ≤ cursor.index + levels) :
    ∃ result cursor', runFrom (operation limit levels) cursor = (result, cursor')
      ∧ InBounds tokens cursor'
      ∧ result ≠ .error .outside ∧ result ≠ .error .exhausted
      ∧ ∀ op, result = .ok op → cursor.index < cursor'.index
      ∧ cursor'.scopes.length = cursor.scopes.length := by
  obtain ⟨s, hat⟩ := h.exists_at hended
  have hindex := hat.index_add
  have hmirrors := mirrors_operation hlimit hat (by omega : s.tokens.length ≤ levels)
    (Nat.le_refl _)
  unfold Mirrors at hmirrors
  rcases hrun : runFrom (Parse.operation s.tokens.length) s with ⟨⟨reason, location⟩ | op, s'⟩
  · rw [hrun] at hmirrors
    obtain ⟨-, cursor', hwalk, hat'⟩ := hmirrors
    exact ⟨_, cursor', hwalk, hat'.inBounds, by simp, by simp, fun op heq => by cases heq⟩
  · rw [hrun] at hmirrors
    obtain ⟨cursor', hwalk, hat'⟩ := hmirrors
    refine ⟨_, cursor', hwalk, hat'.inBounds, by simp, by simp, fun _ _ => ⟨?_, ?_⟩⟩
    · have hfewer := (shortens_operation hat.ended hrun).fewer
      have hindex' := hat'.index_add
      omega
    · rw [hat'.scopes, hat.scopes]
      exact keepsDepth_operation _ hrun

/-- **The reader always gets on, and never leaves its tokens**, if the last one ends the source. Its
loops end after as many rounds as there are tokens, or fewer: with this limit or any greater one,
the result is that of the reader that has a step for each token, which does not run out of them. So
the index is always one of the list, and never the first where the token before it is asked for.
Wherever an operation is read, at least one token is taken, and there are as many scopes behind it
as before. -/
theorem module_progress {tokens : List Token} {limit : Nat}
    (hended : ∃ last ∈ tokens.getLast?, last.kind = .eof) (hlimit : tokens.length ≤ limit)
    (context : Context) :
    (∃ cursor, runFrom (module limit) { tokens, context }
      = ((Parse.module tokens context).1.mapError Stop.of, cursor)
        ∧ cursor.context = (Parse.module tokens context).2 ∧ InBounds tokens cursor
        ∧ ∀ location, (Parse.module tokens context).1 ≠ .error (.outOfSteps, location))
      ∧ ∀ cursor levels, InBounds tokens cursor → tokens.length ≤ cursor.index + levels →
        ∃ result cursor', runFrom (operation limit levels) cursor = (result, cursor')
          ∧ InBounds tokens cursor'
          ∧ result ≠ .error .outside ∧ result ≠ .error .exhausted
          ∧ ∀ op, result = .ok op → cursor.index < cursor'.index
          ∧ cursor'.scopes.length = cursor.scopes.length :=
  ⟨runFrom_module hended hlimit context, fun _ _ => runFrom_operation hended hlimit⟩

/-- A region that is not closed. -/
theorem module_progress_unclosed :
    let last : Token := ⟨.eof, "", .start⟩
    let tokens : List Token := [⟨.bare, "a.b", .start⟩, ⟨.lbrace, "\x7b", .start⟩, last]
    ∃ cursor, runFrom (module 3) { tokens, context := { allowsUnregistered := true } }
        = (.error (.fault (.expected .bare last) .start), cursor) ∧ cursor.index < 3 := by
  intro last tokens
  have hended : ∃ last ∈ tokens.getLast?, last.kind = .eof := ⟨last, rfl, rfl⟩
  obtain ⟨⟨cursor, hrun, -, hbounds, -⟩, -⟩ :=
    module_progress hended (Nat.le_refl 3) { allowsUnregistered := true }
  exact ⟨cursor, hrun, hbounds.index⟩

end DialectIR.Parse.Indexed
