import DialectIR.Proofs.ReadBack
import DialectIR.Proofs.Accepted
import DialectIR.Proofs.Spelling

/-! What is read from a text without floating point literals can be written again. -/

namespace DialectIR

/-- The operation can be written, where its name is accepted and its operands are results of other
operations. -/
structure Head.Legible (head : Head) : Prop where
  name : Text.IsBare head.name.text ∧ head.name.text ≠ "module"
  results : ∀ result ∈ head.results, Text.IsNamePart result.name ∧ result.ty.Writable
  attributes : ∀ entry ∈ head.attributes.entries, Text.IsBare entry.1 ∧ entry.2.Writable

namespace Parse

open Token

variable {before after : State} {kind : Kind} {token : Token}

/-- The tokens to come are spelled as they should be. -/
def State.Spelled (s : State) : Prop := ∀ token ∈ s.tokens, token.Spelled

/-- The tokens to come are spelled as they should be, and none is a floating point literal. -/
def State.Legible (s : State) : Prop := ∀ token ∈ s.tokens, token.Spelled ∧ token.kind ≠ .float

theorem State.Legible.spelled (hs : before.Legible) : before.Spelled :=
  fun token htoken => (hs token htoken).1

/-- What readers do to scopes, definitions and the context takes no token. -/
theorem State.Legible.of_tokens (hs : before.Legible) (htokens : after.tokens = before.tokens) :
    after.Legible :=
  fun token htoken => hs token (htokens ▸ htoken)

theorem spelled_advance (s : State) (hs : s.Spelled) : s.advance.Spelled :=
  fun token htoken => hs token (s.tokens_advance_subset htoken)

theorem legible_advance (s : State) (hs : s.Legible) : s.advance.Legible :=
  fun token htoken => hs token (s.tokens_advance_subset htoken)

theorem legible_expect (hs : before.Legible) (h : Returns (expect kind) before token after) :
    after.Legible :=
  (maintains_expect legible_advance kind).of_returns hs h

theorem spells_of_returns_expect (hs : before.Spelled)
    (h : Returns (expect kind) before token after) :
    Spells kind token.lexeme.toList := by
  obtain ⟨hhere, rfl, -⟩ := returns_expect.1 h
  have hspelled := hs before.here List.mem_cons_self
  rw [Token.Spelled, hhere] at hspelled
  exact hspelled

theorem isBare_of_spells {lexeme : String} (h : Spells .bare lexeme.toList) :
    Text.IsBare lexeme := by
  rw [Spells, String.ofList_toList] at h
  exact h

/-- Behind its mark a name consists of the characters of names. -/
theorem isNamePart_unmarked {lexeme : String} {mark : Char} {name : List Char}
    (hlexeme : lexeme.toList = mark :: name) (hname : ∀ c ∈ name, continuesName c = true) :
    Text.IsNamePart (unmarked lexeme) := by
  rw [Text.IsNamePart, unmarked, hlexeme, String.toList_ofList]
  exact hname

theorem ofKeyword?_writable {word : String} {ty : Ty} (h : Ty.ofKeyword? word = some ty) :
    ty.Writable := by
  have hkeyword := (Ty.ofKeyword?_eq_some_iff.1 h).1
  cases ty with
  | foreign name => exact hkeyword.elim
  | _ => exact hkeyword

theorem writable_of_returns_type {ty : Ty} (hs : before.Spelled)
    (h : Returns type before ty after) : ty.Writable := by
  unfold type at h
  obtain ⟨found, s, haccept, h⟩ := Returns.bind_iff.1 h
  have haccepted := (maintains_accept spelled_advance _).of_returns hs haccept
  split at h
  · obtain ⟨token, s', hexpect, h⟩ := Returns.bind_iff.1 h
    obtain ⟨rfl, rfl⟩ := Returns.pure_iff.1 h
    exact isBare_of_spells (spells_of_returns_expect haccepted hexpect)
  · obtain ⟨token, s', hexpect, h⟩ := Returns.bind_iff.1 h
    split at h
    next ty' hty =>
      obtain ⟨rfl, rfl⟩ := Returns.pure_iff.1 h
      exact ofKeyword?_writable hty
    next => exact absurd h returns_fault

theorem writable_of_returns_literalType {default ty : Ty} (hs : before.Spelled)
    (hdefault : default.Writable) (h : Returns (literalType default) before ty after) :
    ty.Writable := by
  unfold literalType at h
  obtain ⟨found, s, haccept, h⟩ := Returns.bind_iff.1 h
  split at h
  · exact writable_of_returns_type ((maintains_accept spelled_advance _).of_returns hs haccept) h
  · obtain ⟨rfl, rfl⟩ := Returns.pure_iff.1 h
    exact hdefault

theorem writable_of_returns_integer {negative : Bool} {constant : Attribute} (hs : before.Legible)
    (h : Returns (integerAttribute negative) before constant after) : constant.Writable := by
  unfold integerAttribute at h
  obtain ⟨token, s, hexpect, h⟩ := Returns.bind_iff.1 h
  split at h
  next => exact absurd h returns_fault
  next value _ =>
    obtain ⟨ty, s', hty, h⟩ := Returns.bind_iff.1 h
    have hwritable := writable_of_returns_literalType (legible_expect hs hexpect).spelled
      (by decide) hty
    split at h
    · obtain ⟨rfl, rfl⟩ := Returns.pure_iff.1 h
      exact ⟨ty.truncate_truncate value, hwritable⟩
    · exact absurd h returns_fault

theorem not_returns_floatAttribute {negative : Bool} {constant : Attribute} (hs : before.Legible) :
    ¬ Returns (floatAttribute negative) before constant after := by
  intro h
  unfold floatAttribute at h
  obtain ⟨token, s, hexpect, -⟩ := Returns.bind_iff.1 h
  exact (hs before.here List.mem_cons_self).2 (returns_expect.1 hexpect).1

/-- The next token stands for a value by itself. -/
theorem writable_of_taken {constant result : Attribute}
    (h : Returns (do modify State.advance; return constant : Reader Attribute) before result after)
    (hconstant : constant.Writable) : result.Writable := by
  rw [Returns.modify_bind_iff] at h
  obtain ⟨rfl, rfl⟩ := Returns.pure_iff.1 h
  exact hconstant

theorem writable_of_returns_attributeValue {constant : Attribute} (hs : before.Legible)
    (h : Returns attributeValue before constant after) : constant.Writable := by
  have hspelled := (hs before.here List.mem_cons_self).1
  unfold Token.Spelled at hspelled
  unfold attributeValue at h
  rw [Returns.get_bind_iff] at h
  dsimp only at h
  split at h
  next =>
    rw [Returns.modify_bind_iff, returns_isNext_bind] at h
    have hadvanced := legible_advance before hs
    split at h
    · exact absurd h (not_returns_floatAttribute hadvanced)
    · exact writable_of_returns_integer hadvanced h
  next => exact writable_of_returns_integer hs h
  next => exact absurd h (not_returns_floatAttribute hs)
  next => exact writable_of_taken h trivial
  next => exact writable_of_taken h trivial
  next hkind =>
    rw [hkind] at hspelled
    obtain ⟨body, hlexeme, hbody⟩ := hspelled
    have hquoted : before.here.lexeme = String.ofList
      ('"' :: ((String.ofList body).toList ++ ['"'])) := by
      rw [String.toList_ofList, ← hlexeme, String.ofList_toList]
    have htext : ∀ c ∈ (String.ofList body).toList, inString c = true := by
      rw [String.toList_ofList]
      exact hbody
    refine writable_of_taken h ?_
    rw [hquoted, unquoted_quoted htext]
    exact htext
  next hkind =>
    rw [hkind] at hspelled
    obtain ⟨name, hlexeme, hname⟩ := hspelled
    exact writable_of_taken h (isNamePart_unmarked hlexeme hname)
  case h_8 | h_9 =>
    obtain ⟨ty, s, hty, h⟩ := Returns.bind_iff.1 h
    obtain ⟨rfl, rfl⟩ := Returns.pure_iff.1 h
    exact writable_of_returns_type hs.spelled hty
  case h_10 => exact absurd h returns_fault

/-- The attributes can be written, and so can what follows. -/
def ReadEntries (attributes : Attributes) (s : State) : Prop :=
  (∀ entry ∈ attributes.entries, Text.IsBare entry.1 ∧ entry.2.Writable) ∧ s.Legible

theorem ReadEntries.entry {start result : Attributes} (hread : ReadEntries start before)
    (h : Returns (attributeEntry start) before result after) : ReadEntries result after := by
  refine ⟨?_, (maintains_attributeEntry legible_advance start).of_returns hread.2 h⟩
  unfold attributeEntry at h
  obtain ⟨name, s1, hname, h⟩ := Returns.bind_iff.1 h
  obtain ⟨equal, s2, hequal, h⟩ := Returns.bind_iff.1 h
  obtain ⟨value, s3, hvalue, h⟩ := Returns.bind_iff.1 h
  have hnamed := legible_expect hread.2 hname
  split at h
  · exact absurd h returns_fault
  · obtain ⟨rfl, rfl⟩ := Returns.pure_iff.1 h
    intro entry hentry
    rcases Dict.key_mem_insertEntry hentry with rfl | hentry
    · exact ⟨isBare_of_spells (spells_of_returns_expect hread.2.spelled hname),
        writable_of_returns_attributeValue (legible_expect hnamed hequal) hvalue⟩
    · exact hread.1 entry hentry

theorem writable_of_returns_attributes? {steps : Nat} {result : Attributes} (hs : before.Legible)
    (h : Returns (attributes? steps) before result after) :
    ∀ entry ∈ result.entries, Text.IsBare entry.1 ∧ entry.2.Writable := by
  have hempty : ∀ entry ∈ (Dict.empty : Attributes).entries, Text.IsBare entry.1
    ∧ entry.2.Writable := nofun
  unfold attributes? at h
  rw [Returns.get_bind_iff] at h
  split at h
  · unfold attributes at h
    obtain ⟨_, s1, hopen, h⟩ := Returns.bind_iff.1 h
    obtain ⟨entries, s2, hentries, h⟩ := Returns.bind_iff.1 h
    obtain ⟨_, s3, hclose, h⟩ := Returns.bind_iff.1 h
    obtain ⟨rfl, rfl⟩ := Returns.pure_iff.1 h
    have hread : ReadEntries result s2 :=
      commaSeparated_induction ReadEntries (fun _ _ _ _ hread hentry => hread.entry hentry)
        (fun _ s hread => ⟨hread.1, legible_advance s hread.2⟩) hentries
          ⟨hempty, legible_expect hs hopen⟩
    exact hread.1
  · obtain ⟨rfl, rfl⟩ := Returns.pure_iff.1 h
    exact hempty

/-- The tokens are those of values, and what follows can be written. -/
def ReadMarked (tokens : List Token) (s : State) : Prop :=
  (∀ token ∈ tokens, token.kind = .value ∧ Spells .value token.lexeme.toList) ∧ s.Legible

theorem marked_of_returns_resultTokens {steps : Nat} {tokens : List Token} (hs : before.Legible)
    (h : Returns (resultTokens steps) before tokens after) :
    ∀ token ∈ tokens, token.kind = .value ∧ Spells .value token.lexeme.toList := by
  unfold resultTokens at h
  rw [returns_isNext_bind] at h
  split at h
  · obtain ⟨found, s, hlist, h⟩ := Returns.bind_iff.1 h
    obtain ⟨_, s', hequal, h⟩ := Returns.bind_iff.1 h
    obtain ⟨rfl, rfl⟩ := Returns.pure_iff.1 h
    have hread : ReadMarked tokens s := by
      refine commaSeparated_induction ReadMarked (fun found s _ _ hread hitem => ?_)
        (fun _ s hread => ⟨hread.1, legible_advance s hread.2⟩) hlist ⟨nofun, hs⟩
      obtain ⟨token, s', hexpect, hitem⟩ := Returns.bind_iff.1 hitem
      obtain ⟨rfl, rfl⟩ := Returns.pure_iff.1 hitem
      have hspells := spells_of_returns_expect hread.2.spelled hexpect
      have hlegible := legible_expect hread.2 hexpect
      obtain ⟨hkind, rfl, -⟩ := returns_expect.1 hexpect
      exact ⟨List.forall_mem_append.2 ⟨hread.1, List.forall_mem_singleton.2 ⟨hkind, hspells⟩⟩,
        hlegible⟩
    exact hread.1
  · obtain ⟨rfl, rfl⟩ := Returns.pure_iff.1 h
    exact nofun

/-- The types can be written, and so can what follows. -/
def ReadWritable (types : List Ty) (s : State) : Prop := (∀ ty ∈ types, ty.Writable) ∧ s.Legible

theorem writable_of_returns_resultTypes {steps : Nat} {types : List Ty} (hs : before.Legible)
    (h : Returns (resultTypes steps) before types after) : ∀ ty ∈ types, ty.Writable := by
  unfold resultTypes at h
  obtain ⟨found, s, haccept, h⟩ := Returns.bind_iff.1 h
  have haccepted := (maintains_accept legible_advance _).of_returns hs haccept
  split at h
  · have hread : ReadWritable types after := by
      refine commaSeparated_induction ReadWritable (fun types s _ _ hread hitem => ?_)
        (fun _ s hread => ⟨hread.1, legible_advance s hread.2⟩) h ⟨nofun, haccepted⟩
      obtain ⟨ty, s', hty, hitem⟩ := Returns.bind_iff.1 hitem
      obtain ⟨rfl, rfl⟩ := Returns.pure_iff.1 hitem
      have hwritable := writable_of_returns_type hread.2.spelled hty
      exact ⟨List.forall_mem_append.2 ⟨hread.1, List.forall_mem_singleton.2 hwritable⟩,
        (maintains_type legible_advance).of_returns hread.2 hty⟩
    exact hread.1
  · obtain ⟨rfl, rfl⟩ := Returns.pure_iff.1 h
    exact nofun

/-- Results are named as their tokens say. -/
theorem writable_of_returns_defineAll {pairs : List (Token × Ty)} {results : List Value}
    (hs : before.Legible)
    (hpairs : ∀ pair ∈ pairs, (pair.1.kind = .value ∧ Spells .value pair.1.lexeme.toList)
      ∧ pair.2.Writable)
    (h : Returns (defineAll pairs) before results after) :
    (∀ result ∈ results, Text.IsNamePart result.name ∧ result.ty.Writable) ∧ after.Legible := by
  induction pairs generalizing before results with
  | nil =>
      unfold defineAll at h
      obtain ⟨rfl, rfl⟩ := Returns.pure_iff.1 h
      exact ⟨List.forall_mem_nil _, hs⟩
  | cons pair pairs ih =>
      obtain ⟨token, ty⟩ := pair
      unfold defineAll at h
      obtain ⟨value, s, hvalue, h⟩ := Returns.bind_iff.1 h
      obtain ⟨rest, s', hrest, h⟩ := Returns.bind_iff.1 h
      obtain ⟨rfl, rfl⟩ := Returns.pure_iff.1 h
      obtain ⟨⟨⟨hkind, hspells⟩, hty⟩, hpairs⟩ := List.forall_mem_cons.1 hpairs
      unfold define at hvalue
      rw [Returns.get_bind_iff] at hvalue
      split at hvalue
      · exact absurd hvalue returns_fault
      · rw [Returns.modify_bind_iff] at hvalue
        obtain ⟨rfl, rfl⟩ := Returns.pure_iff.1 hvalue
        rw [named_unmarked (fun _ => hspells) hkind]
        have hdefine : (before.define (unmarked token.lexeme) ty).Legible := hs.of_tokens rfl
        obtain ⟨hresults, hlegible⟩ := ih hdefine hpairs hrest
        obtain ⟨name, hlexeme, hname⟩ := hspells
        exact ⟨List.forall_mem_cons.2 ⟨⟨isNamePart_unmarked hlexeme hname, hty⟩, hresults⟩,
          hlegible⟩

/-! ### Operations -/

open Operation

/-- The operations can be written, and so can what follows. -/
def ReadsLegible (ops : List Operation) (after : State) : Prop :=
  (∀ head ∈ headsOfAll ops, head.Legible) ∧ after.Legible

theorem readsLegible_cons {op : Operation} {ops : List Operation}
    (hop : ∀ head ∈ headsOfAll [op], head.Legible) (hops : ReadsLegible ops after) :
    ReadsLegible (op :: ops) after := by
  rw [headsOfAll_singleton] at hop
  rw [ReadsLegible, headsOfAll]
  exact ⟨List.forall_mem_append.2 ⟨hop, hops.1⟩, hops.2⟩

section

variable {operation : Reader Operation}
  (hoperation : ∀ s op s', s.Legible → Returns operation s op s' → ReadsLegible [op] s')

include hoperation

theorem readsLegible_of_returns_operationsUntil {close : Kind} {steps : Nat} {ops : List Operation}
    (hs : before.Legible) (h : Returns (operationsUntil close operation steps) before ops after) :
    ReadsLegible ops after := by
  induction steps generalizing before ops with
  | zero =>
      rw [operationsUntil] at h
      simp at h
  | succ steps ih =>
      rw [operationsUntil, returns_isNext_bind] at h
      split at h
      · obtain ⟨rfl, rfl⟩ := Returns.pure_iff.1 h
        exact ⟨List.forall_mem_nil _, hs⟩
      · obtain ⟨op, s, hop, h⟩ := Returns.bind_iff.1 h
        obtain ⟨rest, s', hrest, h⟩ := Returns.bind_iff.1 h
        obtain ⟨rfl, rfl⟩ := Returns.pure_iff.1 h
        have hfirst := hoperation _ _ _ hs hop
        exact readsLegible_cons hfirst.1 (ih hfirst.2 hrest)

theorem readsLegible_of_returns_region? {steps : Nat} {ops? : Option (List Operation)}
    (hs : before.Legible) (h : Returns (region? operation steps) before ops? after) :
    ReadsLegible (ops?.getD []) after := by
  unfold region? at h
  rw [returns_isNext_bind] at h
  split at h
  · obtain ⟨ops, hregion, rfl⟩ := Returns.map_iff.1 h
    unfold region at hregion
    obtain ⟨_, s1, hopen, hregion⟩ := Returns.bind_iff.1 hregion
    rw [Returns.modify_bind_iff] at hregion
    obtain ⟨_, s2, hops, hregion⟩ := Returns.bind_iff.1 hregion
    obtain ⟨_, s3, hclose, hregion⟩ := Returns.bind_iff.1 hregion
    rw [Returns.modify_bind_iff] at hregion
    obtain ⟨rfl, rfl⟩ := Returns.pure_iff.1 hregion
    have hentered : State.Legible { s1 with scopes := .empty :: s1.scopes } :=
      (legible_expect hs hopen).of_tokens rfl
    have hread := readsLegible_of_returns_operationsUntil hoperation hentered hops
    exact ⟨hread.1, (legible_expect hread.2 hclose).of_tokens rfl⟩
  · obtain ⟨rfl, rfl⟩ := Returns.pure_iff.1 h
    exact ⟨List.forall_mem_nil _, hs⟩

end

/-- A word that is a name of operations in a text is not the short name of modules. -/
theorem isBare_operationName {word : String} (h : Text.IsBare word) :
    Text.IsBare (operationName word).text ∧ (operationName word).text ≠ "module" := by
  unfold operationName
  split
  next => decide +kernel
  next hne => exact ⟨h, hne⟩

theorem readsLegible_of_returns_operation {steps : Nat} {op : Operation} (hs : before.Legible)
    (h : Returns (operation steps) before op after) : ReadsLegible [op] after := by
  induction steps generalizing before op after with
  | zero =>
      rw [operation] at h
      simp at h
  | succ steps ih =>
      rw [operation] at h
      obtain ⟨tokens, s1, htokens, h⟩ := Returns.bind_iff.1 h
      obtain ⟨nameToken, s2, hname, h⟩ := Returns.bind_iff.1 h
      obtain ⟨_, s3, hcheck, h⟩ := Returns.bind_iff.1 h
      obtain ⟨values, s4, hvalues, h⟩ := Returns.bind_iff.1 h
      obtain ⟨entries, s5, hentries, h⟩ := Returns.bind_iff.1 h
      obtain ⟨types, s6, htypes, h⟩ := Returns.bind_iff.1 h
      obtain ⟨_, s7, hcount, h⟩ := Returns.bind_iff.1 h
      obtain ⟨region, s8, hregion, h⟩ := Returns.bind_iff.1 h
      obtain ⟨results, s9, hresults, h⟩ := Returns.bind_iff.1 h
      obtain ⟨rfl, rfl⟩ := Returns.pure_iff.1 h
      have hlegible1 := (maintains_resultTokens legible_advance _).of_returns hs htokens
      have hlegible2 := legible_expect hlegible1 hname
      obtain ⟨-, rfl⟩ := returns_checkName.1 hcheck
      have hlegible3 : State.Legible
        { s2 with context := s2.context.load (operationName nameToken.lexeme).dialect } :=
        hlegible2.of_tokens rfl
      have hlegible4 := (maintains_operands legible_advance _ _).of_returns hlegible3 hvalues
      have hlegible5 := (maintains_attributes? legible_advance _).of_returns hlegible4 hentries
      have hlegible6 := (maintains_resultTypes legible_advance _).of_returns hlegible5 htypes
      obtain ⟨-, rfl⟩ := returns_checkCount.1 hcount
      have hread := readsLegible_of_returns_region? (fun _ _ _ hs hop => ih hs hop)
        hlegible6 hregion
      have hpairs : ∀ pair ∈ tokens.zip types,
          (pair.1.kind = .value ∧ Spells .value pair.1.lexeme.toList) ∧ pair.2.Writable := by
        intro pair hpair
        obtain ⟨htoken, hty⟩ := List.of_mem_zip hpair
        exact ⟨marked_of_returns_resultTokens hs htokens pair.1 htoken,
          writable_of_returns_resultTypes hlegible5 htypes pair.2 hty⟩
      obtain ⟨hnamed, hlegible9⟩ := writable_of_returns_defineAll hread.2 hpairs hresults
      have hbare := isBare_operationName
        (isBare_of_spells (spells_of_returns_expect hlegible1.spelled hname))
      have hattributes := writable_of_returns_attributes? hlegible4 hentries
      rw [ReadsLegible, headsOfAll_singleton, heads_eq]
      exact ⟨List.forall_mem_cons.2 ⟨⟨hbare, hnamed, hattributes⟩, hread.1⟩, hlegible9⟩

/-- **What is read can be written.** -/
theorem legible_of_topLevel {characters : Nat} {tokens : List Token} {context after : Context}
    {ops : List Operation} (hscanned : Scanned characters tokens)
    (hfloat : ∀ token ∈ tokens, token.kind ≠ .float)
    (h : topLevel tokens context = (.ok ops, after)) : ∀ head ∈ headsOfAll ops, head.Legible := by
  obtain ⟨here, later, s, rfl, hreturns, -⟩ := returns_of_topLevel h
  have hlegible : State.Legible { here, later, context } :=
    fun token htoken => ⟨hscanned.spelled token htoken, hfloat token htoken⟩
  exact (readsLegible_of_returns_operationsUntil
    (fun _ _ _ hs hop => readsLegible_of_returns_operation hs hop) hlegible hreturns).1

end Parse

end DialectIR
