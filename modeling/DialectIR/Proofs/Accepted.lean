import DialectIR.Proofs.Keywords
import DialectIR.Proofs.Loading
import DialectIR.Proofs.Reader
import DialectIR.Proofs.ValueTokens
import Mathlib.Tactic.Tauto

/-! What the reader accepts is well formed: scoped, with distinct names, operands of the types of
their definitions, types that have a keyword, integers in range, and operations that the context
accepts. -/

namespace DialectIR

/-- What the reader guarantees of an operation without its region, in a context. -/
structure Head.WellFormed (context : Context) (head : Head) : Prop where
  accepted : context.Accepts head.name
  readable : ∀ result ∈ head.results, result.ty.Readable
  canonical : ∀ entry ∈ head.attributes.entries, entry.2.Canonical

theorem Head.WellFormed.of_sameDialects {context other : Context} (h : context.SameDialects other)
    {head : Head} (hhead : head.WellFormed other) : head.WellFormed context :=
  ⟨(h.accepts_iff head.name).1 hhead.accepted, hhead.readable, hhead.canonical⟩

namespace Parse

variable {before after : State}

/-- Only tokens were taken between the two states. -/
structure OnlyReads (before after : State) : Prop where
  context : after.context = before.context
  scopes : after.scopes = before.scopes
  defined : after.defined = before.defined
  tokens : after.tokens ⊆ before.tokens

namespace OnlyReads

theorem refl (s : State) : OnlyReads s s := ⟨rfl, rfl, rfl, List.Subset.refl _⟩

theorem trans {a b c : State} (h : OnlyReads a b) (h' : OnlyReads b c) : OnlyReads a c :=
  ⟨h'.context.trans h.context, h'.scopes.trans h.scopes, h'.defined.trans h.defined,
    List.Subset.trans h'.tokens h.tokens⟩

theorem advance (s : State) : OnlyReads s s.advance :=
  ⟨s.advance_context, s.advance_scopes, s.advance_defined, s.tokens_advance_subset⟩

theorem expect {kind : Token.Kind} {token : Token} (h : Returns (expect kind) before token after) :
    OnlyReads before after := by
  rw [(returns_expect.1 h).2.2]
  exact advance before

theorem accept {kind : Token.Kind} {found : Bool} (h : Returns (accept kind) before found after) :
    OnlyReads before after := by
  rw [(returns_accept.1 h).2]
  split
  · exact advance before
  · exact refl before

end OnlyReads

theorem ofKeyword?_readable {word : String} {ty : Ty} (h : Ty.ofKeyword? word = some ty) :
    ty.Readable :=
  (Ty.ofKeyword?_eq_some_iff.1 h).1.readable

theorem readable_of_returns_type {ty : Ty} (h : Returns type before ty after) :
    ty.Readable ∧ OnlyReads before after := by
  unfold type at h
  obtain ⟨found, s, haccept, h⟩ := Returns.bind_iff.1 h
  have hs := OnlyReads.accept haccept
  split at h
  · obtain ⟨token, s', hexpect, h⟩ := Returns.bind_iff.1 h
    obtain ⟨rfl, rfl⟩ := Returns.pure_iff.1 h
    exact ⟨trivial, hs.trans (.expect hexpect)⟩
  · obtain ⟨token, s', hexpect, h⟩ := Returns.bind_iff.1 h
    split at h
    next ty' hty =>
      obtain ⟨rfl, rfl⟩ := Returns.pure_iff.1 h
      exact ⟨ofKeyword?_readable hty, hs.trans (.expect hexpect)⟩
    next => exact absurd h returns_fault

theorem OnlyReads.literalType {default ty : Ty}
    (h : Returns (literalType default) before ty after) :
    OnlyReads before after := by
  unfold Parse.literalType at h
  obtain ⟨found, s, haccept, h⟩ := Returns.bind_iff.1 h
  split at h
  · exact (OnlyReads.accept haccept).trans (readable_of_returns_type h).2
  · obtain ⟨rfl, rfl⟩ := Returns.pure_iff.1 h
    exact .accept haccept

theorem canonical_of_returns_integer {negative : Bool} {constant : Attribute}
    (h : Returns (integerAttribute negative) before constant after) :
    constant.Canonical ∧ OnlyReads before after := by
  unfold integerAttribute at h
  obtain ⟨token, s, hexpect, h⟩ := Returns.bind_iff.1 h
  split at h
  next => exact absurd h returns_fault
  next value _ =>
    obtain ⟨ty, s', hty, h⟩ := Returns.bind_iff.1 h
    split at h
    · obtain ⟨rfl, rfl⟩ := Returns.pure_iff.1 h
      exact ⟨Attribute.canonical_wrapped value ty,
        (OnlyReads.expect hexpect).trans (.literalType hty)⟩
    · exact absurd h returns_fault

theorem canonical_of_returns_float {negative : Bool} {constant : Attribute}
    (h : Returns (floatAttribute negative) before constant after) :
    constant.Canonical ∧ OnlyReads before after := by
  unfold floatAttribute at h
  obtain ⟨token, s, hexpect, h⟩ := Returns.bind_iff.1 h
  split at h
  next => exact absurd h returns_fault
  next =>
    obtain ⟨ty, s', hty, h⟩ := Returns.bind_iff.1 h
    obtain ⟨rfl, rfl⟩ := Returns.pure_iff.1 h
    exact ⟨trivial, (OnlyReads.expect hexpect).trans (.literalType hty)⟩

theorem canonical_of_returns_attributeValue {constant : Attribute}
    (h : Returns attributeValue before constant after) :
    constant.Canonical ∧ OnlyReads before after := by
  unfold attributeValue at h
  rw [Returns.get_bind_iff] at h
  dsimp only at h
  split at h
  · rw [Returns.modify_bind_iff, returns_isNext_bind] at h
    have hadvance := OnlyReads.advance before
    split at h
    · exact (canonical_of_returns_float h).imp_right hadvance.trans
    · exact (canonical_of_returns_integer h).imp_right hadvance.trans
  · exact canonical_of_returns_integer h
  · exact canonical_of_returns_float h
  case h_8 | h_9 =>
    obtain ⟨ty, s, hty, h⟩ := Returns.bind_iff.1 h
    obtain ⟨rfl, rfl⟩ := Returns.pure_iff.1 h
    exact ⟨trivial, (readable_of_returns_type hty).2⟩
  case h_10 => exact absurd h returns_fault
  -- the words for truth values, strings and symbols are taken as they are
  all_goals
    rw [Returns.modify_bind_iff] at h
    obtain ⟨rfl, rfl⟩ := Returns.pure_iff.1 h
    exact ⟨trivial, .advance before⟩

/-- The attributes are in range, and only tokens were taken since the state `before`. -/
def ReadAttributes (before : State) (attributes : Attributes) (s : State) : Prop :=
  (∀ entry ∈ attributes.entries, entry.2.Canonical) ∧ OnlyReads before s

theorem ReadAttributes.entry {start result : Attributes} {s s' : State}
    (hread : ReadAttributes before start s) (h : Returns (attributeEntry start) s result s') :
    ReadAttributes before result s' := by
  unfold attributeEntry at h
  obtain ⟨name, s1, hname, h⟩ := Returns.bind_iff.1 h
  obtain ⟨equal, s2, hequal, h⟩ := Returns.bind_iff.1 h
  obtain ⟨value, s3, hvalue, h⟩ := Returns.bind_iff.1 h
  obtain ⟨hcanonical, honly⟩ := canonical_of_returns_attributeValue hvalue
  split at h
  · exact absurd h returns_fault
  · obtain ⟨rfl, rfl⟩ := Returns.pure_iff.1 h
    refine ⟨fun entry hentry => ?_, hread.2.trans ((OnlyReads.expect hname).trans
      ((OnlyReads.expect hequal).trans honly))⟩
    rcases Dict.key_mem_insertEntry hentry with rfl | hentry
    · exact hcanonical
    · exact hread.1 entry hentry

theorem canonical_of_returns_attributes {steps : Nat} {result : Attributes}
    (h : Returns (attributes steps) before result after) : ReadAttributes before result after := by
  unfold attributes at h
  obtain ⟨_, s1, hopen, h⟩ := Returns.bind_iff.1 h
  obtain ⟨entries, s2, hentries, h⟩ := Returns.bind_iff.1 h
  obtain ⟨_, s3, hclose, h⟩ := Returns.bind_iff.1 h
  obtain ⟨rfl, rfl⟩ := Returns.pure_iff.1 h
  have hread : ReadAttributes before result s2 :=
    commaSeparated_induction (ReadAttributes before)
      (fun _ _ _ _ hread hentry => hread.entry hentry)
      (fun _ s hread => ⟨hread.1, hread.2.trans (.advance s)⟩) hentries
      ⟨by simp [Dict.empty], .expect hopen⟩
  exact ⟨hread.1, hread.2.trans (.expect hclose)⟩

theorem canonical_of_returns_attributes? {steps : Nat} {result : Attributes}
    (h : Returns (attributes? steps) before result after) : ReadAttributes before result after := by
  unfold attributes? at h
  rw [Returns.get_bind_iff] at h
  split at h
  · exact canonical_of_returns_attributes h
  · obtain ⟨rfl, rfl⟩ := Returns.pure_iff.1 h
    exact ⟨by simp [Dict.empty], .refl _⟩

/-- The tokens are among those of a state, and only tokens were taken since. -/
def ReadTokens (before : State) (tokens : List Token) (s : State) : Prop :=
  (∀ token ∈ tokens, token ∈ before.tokens ∧ token.kind = .value) ∧ OnlyReads before s

theorem value_of_returns_resultTokens {steps : Nat} {tokens : List Token}
    (h : Returns (resultTokens steps) before tokens after) : ReadTokens before tokens after := by
  unfold resultTokens at h
  rw [returns_isNext_bind] at h
  split at h
  · obtain ⟨found, s, hlist, h⟩ := Returns.bind_iff.1 h
    obtain ⟨_, s', hequal, h⟩ := Returns.bind_iff.1 h
    obtain ⟨rfl, rfl⟩ := Returns.pure_iff.1 h
    have hread : ReadTokens before tokens s := by
      refine commaSeparated_induction (ReadTokens before) (fun found s _ _ hread hitem => ?_)
        (fun _ s hread => ⟨hread.1, hread.2.trans (.advance s)⟩) hlist ⟨by simp, .refl before⟩
      obtain ⟨token, s', hexpect, hitem⟩ := Returns.bind_iff.1 hitem
      obtain ⟨rfl, rfl⟩ := Returns.pure_iff.1 hitem
      refine ⟨fun other hother => ?_, hread.2.trans (.expect hexpect)⟩
      obtain ⟨hkind, htoken, -⟩ := returns_expect.1 hexpect
      rcases List.mem_append.1 hother with hother | hother
      · exact hread.1 other hother
      · rw [List.mem_singleton.1 hother, htoken]
        exact ⟨hread.2.tokens List.mem_cons_self, hkind⟩
    exact ⟨hread.1, hread.2.trans (.expect hequal)⟩
  · obtain ⟨rfl, rfl⟩ := Returns.pure_iff.1 h
    exact ⟨by simp, .refl _⟩

/-- The types have keywords, and only tokens were taken since the state `before`. -/
def ReadTypes (before : State) (types : List Ty) (s : State) : Prop :=
  (∀ ty ∈ types, ty.Readable) ∧ OnlyReads before s

theorem readable_of_returns_resultTypes {steps : Nat} {types : List Ty}
    (h : Returns (resultTypes steps) before types after) : ReadTypes before types after := by
  unfold resultTypes at h
  obtain ⟨found, s, haccept, h⟩ := Returns.bind_iff.1 h
  split at h
  · refine commaSeparated_induction (ReadTypes before) (fun types s _ _ hread hitem => ?_)
      (fun _ s hread => ⟨hread.1, hread.2.trans (.advance s)⟩) h ⟨by simp, .accept haccept⟩
    obtain ⟨ty, s', hty, hitem⟩ := Returns.bind_iff.1 hitem
    obtain ⟨rfl, rfl⟩ := Returns.pure_iff.1 hitem
    obtain ⟨hreadable, honly⟩ := readable_of_returns_type hty
    refine ⟨fun other hother => ?_, hread.2.trans honly⟩
    rcases List.mem_append.1 hother with hother | hother
    · exact hread.1 other hother
    · exact List.mem_singleton.1 hother ▸ hreadable
  · obtain ⟨rfl, rfl⟩ := Returns.pure_iff.1 h
    exact ⟨by simp, .accept haccept⟩

theorem returns_checkCount {token : Token} {results types : Nat} {u : Unit} :
    Returns (checkCount token results types) before u after ↔ types = results ∧ after = before := by
  unfold checkCount
  split
  next h => simp [h]
  next h => simp [h]

theorem returns_checkName {name : OpName} {token : Token} {u : Unit} :
    Returns (checkName name token) before u after
      ↔ nameFault? (before.context.load name.dialect) name = none
        ∧ after = { before with context := before.context.load name.dialect } := by
  unfold checkName
  rw [Returns.modify_bind_iff, Returns.get_bind_iff]
  dsimp only
  split
  next h => simp [h]
  next h => simp [h]

theorem nameFault?_eq_none_iff {context : Context} {name : OpName} :
    nameFault? context name = none ↔ context.Accepts name := by
  unfold nameFault? Context.Accepts Context.definition?
  by_cases hallows : context.allowsUnregistered = true
  · simp [hallows]
  · cases hdialect : context.dialect? name.dialect with
    | none => simp [hallows]
    | some dialect => simp [hallows, Option.isSome_iff_ne_none]

/-! ### Scopes -/

/-- What the reader can see is among `visible` and, with its type, among `known`. -/
structure Tracks (s : State) (visible : List String) (known : List Value) : Prop where
  sees : ∀ scope ∈ s.scopes, ∀ name ty, scope.get? name = some ty → name ∈ visible
    ∧ ⟨name, ty⟩ ∈ known
  marked : ∀ token ∈ s.tokens, token.Marked
  inner : s.scopes ≠ []

namespace Tracks

variable {visible : List String} {known : List Value}

theorem onlyReads (h : Tracks before visible known) (honly : OnlyReads before after) :
    Tracks after visible known where
  sees := honly.scopes ▸ h.sees
  marked token htoken := h.marked token (honly.tokens htoken)
  inner := honly.scopes ▸ h.inner

theorem mono {visible' : List String} {known' : List Value} (h : Tracks before visible known)
    (hvisible : visible ⊆ visible') (hknown : known ⊆ known') : Tracks before visible' known' where
  sees scope hscope name ty hget := (h.sees scope hscope name ty hget).imp (hvisible ·) (hknown ·)
  marked := h.marked
  inner := h.inner

theorem define (h : Tracks before visible known) (name : String) (ty : Ty) :
    Tracks (before.define name ty) (name :: visible) (⟨name, ty⟩ :: known)
      ∧ (before.define name ty).scopes.tail = before.scopes.tail := by
  obtain ⟨scope, outer, hscopes⟩ := List.exists_cons_of_ne_nil h.inner
  have hdefine : (before.define name ty).scopes = scope.insert name ty :: outer := by
    simp only [State.define, hscopes]
  refine ⟨⟨fun other hother name' ty' hget => ?_, h.marked, by simp [hdefine]⟩,
    by simp [hdefine, hscopes]⟩
  rw [hdefine] at hother
  have hold := fun scope hscope => h.sees scope hscope name' ty'
  rw [hscopes] at hold
  rcases List.mem_cons.1 hother with rfl | hother
  · rw [Dict.get?_insert] at hget
    split at hget
    next heq =>
      cases hget
      rw [heq]
      exact ⟨List.mem_cons_self, List.mem_cons_self⟩
    next =>
      exact (hold scope List.mem_cons_self hget).imp (List.mem_cons_of_mem _)
        (List.mem_cons_of_mem _)
  · exact (hold other (List.mem_cons_of_mem _ hother) hget).imp (List.mem_cons_of_mem _)
      (List.mem_cons_of_mem _)

end Tracks

/-- A value is named as its token says: a name has no percent sign of its own. -/
theorem named_unmarked {token : Token} (hmarked : token.Marked) (hkind : token.kind = .value)
    (ty : Ty) :
    Value.named (unmarked token.lexeme) ty = ⟨unmarked token.lexeme, ty⟩ := by
  obtain ⟨name, hlexeme, hname⟩ := hmarked hkind
  have htext : (unmarked token.lexeme).toList = name := by
    rw [unmarked, hlexeme, String.toList_ofList, List.drop_one, List.tail_cons]
  unfold Value.named
  rw [htext]
  split
  next rest =>
    have hpercent := hname '%' List.mem_cons_self
    rw [Token.percent_not_continuesName] at hpercent
    cases hpercent
  next => rfl

theorem visible_of_returns_operand {visible : List String} {known : List Value} {value : Value}
    (htracks : Tracks before visible known) (h : Returns operand before value after) :
    value.name ∈ visible ∧ value ∈ known ∧ OnlyReads before after := by
  unfold operand at h
  obtain ⟨token, s, hexpect, h⟩ := Returns.bind_iff.1 h
  rw [Returns.get_bind_iff] at h
  have honly := OnlyReads.expect hexpect
  obtain ⟨hkind, rfl, -⟩ := returns_expect.1 hexpect
  split at h
  next ty hfound =>
    obtain ⟨rfl, rfl⟩ := Returns.pure_iff.1 h
    obtain ⟨scope, hscope, hget⟩ := List.exists_of_findSome?_eq_some hfound
    rw [honly.scopes] at hscope
    rw [named_unmarked (htracks.marked _ List.mem_cons_self) hkind]
    obtain ⟨hvisible, hknown⟩ := htracks.sees scope hscope _ ty hget
    exact ⟨hvisible, hknown, honly⟩
  next => exact absurd h returns_fault

/-- The operands are visible and known, and only tokens were taken since the state `before`. -/
def ReadOperands (visible : List String) (known : List Value) (before : State)
    (operands : List Value) (s : State) : Prop :=
  (∀ operand ∈ operands, operand.name ∈ visible ∧ operand ∈ known) ∧ OnlyReads before s

theorem visible_of_returns_operands {visible : List String} {known : List Value} {line steps : Nat}
    {values : List Value} (htracks : Tracks before visible known)
    (h : Returns (operands line steps) before values after) :
    ReadOperands visible known before values after := by
  unfold operands at h
  rw [Returns.get_bind_iff] at h
  dsimp only at h
  split at h
  · refine commaSeparated_induction (ReadOperands visible known before)
      (fun values s _ _ hread hitem => ?_)
      (fun _ s hread => ⟨hread.1, hread.2.trans (.advance s)⟩) h ⟨by simp, .refl before⟩
    obtain ⟨value, s', hvalue, hitem⟩ := Returns.bind_iff.1 hitem
    obtain ⟨rfl, rfl⟩ := Returns.pure_iff.1 hitem
    obtain ⟨hvisible, hknown, honly⟩ := visible_of_returns_operand
      (htracks.onlyReads hread.2) hvalue
    refine ⟨fun other hother => ?_, hread.2.trans honly⟩
    rcases List.mem_append.1 hother with hother | hother
    · exact hread.1 other hother
    · exact List.mem_singleton.1 hother ▸ ⟨hvisible, hknown⟩
  · obtain ⟨rfl, rfl⟩ := Returns.pure_iff.1 h
    exact ⟨by simp, .refl _⟩

/-- Defining results makes them visible in the innermost region. -/
theorem tracks_of_returns_defineAll {visible : List String} {known : List Value}
    {pairs : List (Token × Ty)} {results : List Value} (htracks : Tracks before visible known)
    (hpairs : ∀ pair ∈ pairs, pair.1.Marked ∧ pair.1.kind = .value)
    (h : Returns (defineAll pairs) before results after) :
    Tracks after (results.map Value.name ++ visible) (results ++ known)
      ∧ Operation.Extends before.defined (results.map Value.name) after.defined
      ∧ results.map Value.ty = pairs.map Prod.snd
      ∧ after.context = before.context ∧ after.scopes.tail = before.scopes.tail := by
  induction pairs generalizing before visible known results with
  | nil =>
      unfold defineAll at h
      obtain ⟨rfl, rfl⟩ := Returns.pure_iff.1 h
      exact ⟨htracks, .nil _, rfl, rfl, rfl⟩
  | cons pair pairs ih =>
      obtain ⟨token, ty⟩ := pair
      unfold defineAll at h
      obtain ⟨value, s, hvalue, h⟩ := Returns.bind_iff.1 h
      obtain ⟨rest, s', hrest, h⟩ := Returns.bind_iff.1 h
      obtain ⟨rfl, rfl⟩ := Returns.pure_iff.1 h
      obtain ⟨hmarked, hkind⟩ := hpairs _ List.mem_cons_self
      unfold define at hvalue
      rw [Returns.get_bind_iff] at hvalue
      split at hvalue
      · exact absurd hvalue returns_fault
      next hnew =>
        rw [Returns.modify_bind_iff] at hvalue
        obtain ⟨rfl, rfl⟩ := Returns.pure_iff.1 hvalue
        rw [named_unmarked hmarked hkind]
        obtain ⟨hdefined, htail⟩ := htracks.define (unmarked token.lexeme) ty
        obtain ⟨htracks', hextends, htypes, hcontext, htail'⟩ :=
          ih hdefined (fun pair hpair => hpairs pair (List.mem_cons_of_mem _ hpair)) hrest
        have hone : Operation.Extends before.defined [unmarked token.lexeme]
            (before.define (unmarked token.lexeme) ty).defined :=
          ⟨by simp, by simpa using hnew, by simp [State.define]⟩
        refine ⟨htracks'.mono ?_ ?_, hone.trans hextends, ?_, hcontext, htail'.trans htail⟩
        · exact List.perm_middle.subset
        · exact List.perm_middle.subset
        · rw [List.map_cons, List.map_cons, htypes]

/-! ### Operations -/

open Operation

/-- What reading some operations of a region in a row amounts to, where `visible` and `known` bound
what can be seen before. -/
structure ReadsAll (visible : List String) (known : List Value) (before : State)
    (ops : List Operation)
    (after : State) : Prop where
  uses : ScopedAll visible ops
  operands : ∀ operand ∈ (headsOfAll ops).flatMap (·.operands),
    operand ∈ (headsOfAll ops).flatMap (·.results) ++ known
  names : Extends before.defined (definedNamesOfAll ops) after.defined
  tracks : Tracks after (visibleAfter visible ops) ((headsOfAll ops).flatMap (·.results) ++ known)
  tail : after.scopes.tail = before.scopes.tail
  loads : before.context.Loads after.context
  heads : ∀ head ∈ headsOfAll ops, head.WellFormed before.context
  met : ∀ head ∈ headsOfAll ops, after.context.Met head.name.dialect

namespace ReadsAll

variable {visible : List String} {known : List Value}

theorem nil (htracks : Tracks before visible known) : ReadsAll visible known before [] before :=
  ⟨trivial, by simp [headsOfAll], .nil _, htracks, rfl, .refl _, by simp [headsOfAll],
    by simp [headsOfAll]⟩

theorem cons {between : State} {op : Operation} {ops : List Operation}
    (hfirst : ReadsAll visible known before [op] between)
    (hrest : ReadsAll (op.resultNames ++ visible) (op.allResults ++ known) between ops after) :
    ReadsAll visible known before (op :: ops) after := by
  have hresults : (headsOfAll (op :: ops)).flatMap (·.results)
      = op.allResults ++ (headsOfAll ops).flatMap (·.results) := by
    rw [headsOfAll, List.flatMap_append]
    rfl
  have hfirstHeads : headsOfAll [op] = op.heads := by simp [headsOfAll]
  have hfirstNames : definedNamesOfAll [op] = op.definedNames := by simp
  have hsame : ((headsOfAll ops).flatMap (·.results) ++ (op.allResults ++ known))
      ⊆ (headsOfAll (op :: ops)).flatMap (·.results) ++ known := by
    intro value hvalue
    rw [hresults]
    simp only [List.mem_append] at hvalue ⊢
    tauto
  refine ⟨⟨hfirst.uses.1, hrest.uses⟩, fun operand hoperand => ?_, ?_,
    hrest.tracks.mono (List.Subset.refl _) hsame, hrest.tail.trans hfirst.tail,
    hfirst.loads.trans hrest.loads, fun head hhead => ?_, fun head hhead => ?_⟩
  · rw [headsOfAll, List.flatMap_append, List.mem_append] at hoperand
    rcases hoperand with hoperand | hoperand
    · have hmem := hfirst.operands operand (by rwa [hfirstHeads])
      rw [hfirstHeads] at hmem
      rw [hresults]
      simp only [List.mem_append] at hmem ⊢
      exact hmem.imp_left Or.inl
    · exact hsame (hrest.operands operand hoperand)
  · rw [definedNamesOfAll_cons, ← hfirstNames]
    exact hfirst.names.trans hrest.names
  · rw [headsOfAll, List.mem_append] at hhead
    rcases hhead with hhead | hhead
    · exact hfirst.heads head (by rwa [hfirstHeads])
    · exact .of_sameDialects hfirst.loads.dialects (hrest.heads head hhead)
  · rw [headsOfAll, List.mem_append] at hhead
    rcases hhead with hhead | hhead
    · exact hrest.loads.met (hfirst.met head (by rwa [hfirstHeads]))
    · exact hrest.met head hhead

/-- One operation, put together from its own parts and from what is read within it. -/
theorem singleton {op : Operation} {inner inner' : State}
    (hoperands : ∀ operand ∈ op.operands, operand.name ∈ visible ∧ operand ∈ known)
    (hhead : op.toHead.WellFormed before.context)
    (hinner : before.context.Loads inner.context ∧ inner.defined = before.defined)
    (hmet : inner.context.Met op.name.dialect)
    (hreads : ReadsAll visible known inner op.nested inner')
    (hdefined : Extends inner'.defined op.resultNames after.defined)
    (htracks : Tracks after (op.resultNames ++ visible)
      (op.results ++ ((headsOfAll op.nested).flatMap (·.results) ++ known)))
    (htail : after.scopes.tail = before.scopes.tail) (hcontext : after.context = inner'.context) :
    ReadsAll visible known before [op] after := by
  have hheads : headsOfAll [op] = op.toHead :: headsOfAll op.nested := by
    rw [headsOfAll, headsOfAll, List.append_nil, heads_eq]
  have hresults : (headsOfAll [op]).flatMap (·.results) = op.results
    ++ (headsOfAll op.nested).flatMap (·.results) := by
    rw [hheads, List.flatMap_cons]
  refine ⟨⟨scoped_iff.2 ⟨fun operand hoperand => (hoperands operand hoperand).1, hreads.uses⟩,
    trivial⟩, ?_, ?_, ?_, htail, ?_, ?_, ?_⟩
  · intro operand hoperand
    rw [hheads, List.flatMap_cons, List.mem_append] at hoperand
    rw [hresults, List.append_assoc]
    apply List.mem_append_right
    rcases hoperand with hoperand | hoperand
    · exact List.mem_append_right _ (hoperands operand hoperand).2
    · exact hreads.operands operand hoperand
  · rw [definedNamesOfAll_cons, definedNamesOfAll_nil, List.append_nil, definedNames_eq]
    have hnested := hreads.names
    rw [hinner.2] at hnested
    exact (hnested.trans hdefined).perm List.perm_append_comm
  · rw [hresults, List.append_assoc]
    exact htracks
  · rw [hcontext]
    exact hinner.1.trans hreads.loads
  · intro head hmem
    rw [hheads] at hmem
    rcases List.mem_cons.1 hmem with rfl | hmem
    · exact hhead
    · exact .of_sameDialects hinner.1.dialects (hreads.heads head hmem)
  · intro head hmem
    rw [hheads] at hmem
    rw [hcontext]
    rcases List.mem_cons.1 hmem with rfl | hmem
    · exact hreads.loads.met hmet
    · exact hreads.met head hmem

end ReadsAll

theorem readsAll_of_returns_operationsUntil {close : Token.Kind} {operation : Reader Operation}
    (hoperation : ∀ visible known s op s', Tracks s visible known → Returns operation s op s' →
      ReadsAll visible known s [op] s')
    {steps : Nat} {visible : List String} {known : List Value} {ops : List Operation}
    (htracks : Tracks before visible known)
    (h : Returns (operationsUntil close operation steps) before ops after) :
    ReadsAll visible known before ops after := by
  induction steps generalizing before visible known ops with
  | zero =>
      rw [operationsUntil] at h
      simp at h
  | succ steps ih =>
      rw [operationsUntil, returns_isNext_bind] at h
      split at h
      · obtain ⟨rfl, rfl⟩ := Returns.pure_iff.1 h
        exact .nil htracks
      · obtain ⟨op, s, hop, h⟩ := Returns.bind_iff.1 h
        obtain ⟨rest, s', hrest, h⟩ := Returns.bind_iff.1 h
        obtain ⟨rfl, rfl⟩ := Returns.pure_iff.1 h
        have hfirst := hoperation _ _ _ _ _ htracks hop
        refine hfirst.cons (ih (hfirst.tracks.mono (List.Subset.refl _) ?_) hrest)
        simp [headsOfAll, allResults]

/-- Reading a region leaves the scopes as they were. -/
theorem readsAll_of_returns_region {operation : Reader Operation}
    (hoperation : ∀ visible known s op s', Tracks s visible known → Returns operation s op s' →
      ReadsAll visible known s [op] s') {steps : Nat} {visible : List String} {known : List Value}
    {ops : List Operation} (htracks : Tracks before visible known)
    (h : Returns (region operation steps) before ops after) :
    (∃ inner inner', inner.context = before.context ∧ inner.defined = before.defined
      ∧ after.context = inner'.context ∧ after.defined = inner'.defined
      ∧ ReadsAll visible known inner ops inner')
    ∧ Tracks after visible ((headsOfAll ops).flatMap (·.results) ++ known)
    ∧ after.scopes = before.scopes := by
  unfold region at h
  obtain ⟨_, s1, hopen, h⟩ := Returns.bind_iff.1 h
  rw [Returns.modify_bind_iff] at h
  obtain ⟨ops', s2, hops, h⟩ := Returns.bind_iff.1 h
  obtain ⟨_, s3, hclose, h⟩ := Returns.bind_iff.1 h
  rw [Returns.modify_bind_iff] at h
  obtain ⟨rfl, rfl⟩ := Returns.pure_iff.1 h
  have honly := OnlyReads.expect hopen
  have htracks1 := htracks.onlyReads honly
  have hinner : Tracks { s1 with scopes := Dict.empty :: s1.scopes } visible known := by
    refine ⟨fun scope hscope name ty hget => ?_, htracks1.marked, by simp⟩
    rcases List.mem_cons.1 hscope with rfl | hscope
    · cases hget
    · exact htracks1.sees scope hscope name ty hget
  have hreads := readsAll_of_returns_operationsUntil hoperation hinner hops
  have honly' := OnlyReads.expect hclose
  have hscopes : s3.scopes.tail = before.scopes := by
    rw [honly'.scopes, hreads.tail, List.tail_cons, honly.scopes]
  refine ⟨⟨{ s1 with scopes := .empty :: s1.scopes }, s2, honly.context, honly.defined, honly'.context,
    honly'.defined, hreads⟩, ?_, hscopes⟩
  refine ⟨fun scope hscope name ty hget => ?_, fun token htoken => ?_, ?_⟩
  · have hmem : scope ∈ before.scopes := hscopes ▸ hscope
    exact (htracks.sees scope hmem name ty hget).imp_right (List.mem_append_right _)
  · exact hreads.tracks.marked token (honly'.tokens htoken)
  · exact hscopes ▸ htracks.inner

/-- Reading a region, or finding that there is none. -/
theorem readsAll_of_returns_region? {operation : Reader Operation}
    (hoperation : ∀ visible known s op s', Tracks s visible known → Returns operation s op s' →
      ReadsAll visible known s [op] s') {steps : Nat} {visible : List String} {known : List Value}
    {ops? : Option (List Operation)} (htracks : Tracks before visible known)
    (h : Returns (region? operation steps) before ops? after) :
    (∃ inner inner', inner.context = before.context ∧ inner.defined = before.defined
      ∧ after.context = inner'.context ∧ after.defined = inner'.defined
      ∧ ReadsAll visible known inner (ops?.getD []) inner')
    ∧ Tracks after visible ((headsOfAll (ops?.getD [])).flatMap (·.results) ++ known)
    ∧ after.scopes = before.scopes := by
  unfold region? at h
  rw [returns_isNext_bind] at h
  split at h
  · obtain ⟨ops, hregion, rfl⟩ := Returns.map_iff.1 h
    exact readsAll_of_returns_region hoperation htracks hregion
  · obtain ⟨rfl, rfl⟩ := Returns.pure_iff.1 h
    exact ⟨⟨_, _, rfl, rfl, rfl, rfl, .nil htracks⟩, htracks, rfl⟩

theorem readsAll_of_returns_operation {steps : Nat} {visible : List String} {known : List Value}
    {op : Operation} (htracks : Tracks before visible known)
    (h : Returns (operation steps) before op after) : ReadsAll visible known before [op] after := by
  induction steps generalizing before visible known op after with
  | zero =>
      rw [operation] at h
      simp at h
  | succ steps ih =>
      rw [operation] at h
      obtain ⟨tokens, s1, htokens, h⟩ := Returns.bind_iff.1 h
      obtain ⟨nameToken, s2, hname, h⟩ := Returns.bind_iff.1 h
      obtain ⟨_, s3, hcheck, h⟩ := Returns.bind_iff.1 h
      obtain ⟨values, s4, hvalues, h⟩ := Returns.bind_iff.1 h
      obtain ⟨entries, s5, hentries, h⟩ := Returns.bind_iff.1 h
      obtain ⟨types, s6, htypes, h⟩ := Returns.bind_iff.1 h
      obtain ⟨_, s7, hcount, h⟩ := Returns.bind_iff.1 h
      obtain ⟨region, s8, hregion, h⟩ := Returns.bind_iff.1 h
      obtain ⟨results, s9, hresults, h⟩ := Returns.bind_iff.1 h
      obtain ⟨hop, rfl⟩ := Returns.pure_iff.1 h
      -- the state behind the name differs from the first one in tokens and loaded dialects only
      obtain ⟨hvalue, honly⟩ := value_of_returns_resultTokens htokens
      have hnamed := honly.trans (OnlyReads.expect hname)
      obtain ⟨hfault, rfl⟩ := returns_checkName.1 hcheck
      have hload := (Context.Loads.refl s2.context).load (operationName nameToken.lexeme).dialect
      have hmet := Context.met_load s2.context (operationName nameToken.lexeme).dialect
      have htracks3 : Tracks
        { s2 with context := s2.context.load (operationName nameToken.lexeme).dialect }
          visible known := ⟨(htracks.onlyReads hnamed).sees, (htracks.onlyReads hnamed).marked,
        (htracks.onlyReads hnamed).inner⟩
      obtain ⟨hoperands, honly4⟩ := visible_of_returns_operands htracks3 hvalues
      obtain ⟨hcanonical, honly5⟩ := canonical_of_returns_attributes? hentries
      obtain ⟨hreadable, honly6⟩ := readable_of_returns_resultTypes htypes
      obtain ⟨hlength, rfl⟩ := returns_checkCount.1 hcount
      have honly7 := (honly4.trans honly5).trans honly6
      obtain ⟨⟨inner, inner', hinner, hinner', hafter, hafter', hreads⟩, htracks8, hscopes⟩ :=
        readsAll_of_returns_region? (fun _ _ _ _ _ hs hop => ih hs hop)
          (htracks3.onlyReads honly7) hregion
      have hpairs : ∀ pair ∈ tokens.zip types, pair.1.Marked ∧ pair.1.kind = .value := by
        intro pair hpair
        obtain ⟨htoken, hkind⟩ := hvalue pair.1 (List.of_mem_zip hpair).1
        exact ⟨htracks.marked _ htoken, hkind⟩
      obtain ⟨htracks9, hdefined, hresultTypes, hcontext, htail⟩ :=
        tracks_of_returns_defineAll htracks8 hpairs hresults
      have hinside : before.context.Loads inner.context ∧ inner.defined = before.defined := by
        rw [hinner, hinner', honly7.context, honly7.defined, ← hnamed.context, ← hnamed.defined]
        exact ⟨hload, rfl⟩
      have hasked : inner.context.Met op.name.dialect := by
        rw [hinner, honly7.context, hop]
        exact hmet
      rw [List.map_snd_zip hlength.le] at hresultTypes
      obtain ⟨hopResults, hopNested⟩ : op.results = results ∧ op.nested = region.getD [] := by
        rw [hop]
        exact ⟨rfl, rfl⟩
      refine .singleton (fun operand hoperand => hoperands operand (by simpa [hop] using hoperand))
        ⟨?_, ?_, by rwa [hop]⟩ hinside hasked (hopNested ▸ hreads) ?_ ?_ ?_ (hcontext.trans hafter)
      · rw [← hnamed.context, ← hload.dialects.accepts_iff, hop]
        exact nameFault?_eq_none_iff.1 hfault
      · intro result hresult
        apply hreadable
        rw [← hresultTypes, ← hopResults]
        exact List.mem_map_of_mem hresult
      · rw [Head.resultNames, hopResults, ← hafter']
        exact hdefined
      · rw [Head.resultNames, hopResults, hopNested]
        exact htracks9
      · rw [htail, hscopes, honly7.scopes, ← hnamed.scopes]

theorem exists_readsAll_of_topLevel {tokens : List Token} {context other : Context}
    {ops : List Operation} (hmarked : ∀ token ∈ tokens, token.Marked)
    (h : topLevel tokens context = (.ok ops, other)) :
    ∃ before after, before.context = context ∧ before.defined = [] ∧ after.context = other
      ∧ ReadsAll [] [] before ops after := by
  obtain ⟨here, later, s, rfl, hreturns, rfl⟩ := returns_of_topLevel h
  have htracks : Tracks { here, later, context } [] [] := ⟨by simp, hmarked, by simp⟩
  exact ⟨_, s, rfl, rfl, rfl, readsAll_of_returns_operationsUntil
    (fun _ _ _ _ _ hs hop => readsAll_of_returns_operation hs hop) htracks hreturns⟩

theorem readsAll_of_topLevel {tokens : List Token} {context after : Context} {ops : List Operation}
    (hmarked : ∀ token ∈ tokens, token.Marked) (h : topLevel tokens context = (.ok ops, after)) :
    ScopedAll [] ops ∧ (definedNamesOfAll ops).Nodup
      ∧ (headsOfAll ops).flatMap (·.operands) ⊆ (headsOfAll ops).flatMap (·.results)
      ∧ ∀ head ∈ headsOfAll ops, head.WellFormed context := by
  obtain ⟨before, _, rfl, hdefined, rfl, hreads⟩ := exists_readsAll_of_topLevel hmarked h
  have hnames := hreads.names
  rw [hdefined] at hnames
  refine ⟨hreads.uses, hnames.nodup, fun operand hoperand => ?_, hreads.heads⟩
  simpa using hreads.operands operand hoperand

theorem asModule_cases (ops : List Operation) :
    (∃ op, ops = [op] ∧ asModule ops = op) ∨ asModule ops = .module ops := by
  unfold asModule
  split
  next op =>
    split
    · exact .inl ⟨op, rfl, rfl⟩
    · exact .inr rfl
  next => exact .inr rfl

/-- The module of some operations holds the same values as they do, in the same scopes. -/
theorem asModule_facts (ops : List Operation) :
    (ScopedAll [] ops → (asModule ops).Scoped []) ∧ (asModule ops).definedNames
      = definedNamesOfAll ops
      ∧ (asModule ops).allOperands = (headsOfAll ops).flatMap (·.operands)
      ∧ (asModule ops).allResults = (headsOfAll ops).flatMap (·.results) := by
  rcases asModule_cases ops with ⟨op, rfl, hop⟩ | hmodule
  · rw [hop]
    exact ⟨And.left, by simp, by simp [allOperands, headsOfAll], by simp [allResults, headsOfAll]⟩
  · rw [hmodule]
    refine ⟨fun h => scoped_iff.2 ⟨by simp [Operation.module], h⟩, ?_, ?_, ?_⟩
    · rw [definedNames_eq]
      rfl
    · rw [allOperands, heads_eq]
      rfl
    · rw [allResults, heads_eq]
      rfl

theorem mem_heads_asModule {ops : List Operation} {head : Head} (h : head ∈ (asModule ops).heads) :
    head ∈ headsOfAll ops ∨ head.results = [] ∧ head.attributes = .empty := by
  rcases asModule_cases ops with ⟨op, rfl, hop⟩ | hmodule
  · rw [hop] at h
    exact .inl (by simpa [headsOfAll] using h)
  · rw [hmodule, heads_eq] at h
    rcases List.mem_cons.1 h with rfl | h
    · exact .inr ⟨rfl, rfl⟩
    · exact .inl h

theorem topLevel_of_parse {source : String} {context after : Context} {m : Operation}
    (h : parse source context = (.ok m, after)) : ∃ tokens ops, Token.scan source = .ok tokens
      ∧ topLevel tokens context = (.ok ops, after) ∧ m = asModule ops := by
  unfold parse at h
  split at h
  next => cases h
  next tokens hscan =>
    rcases htop : topLevel tokens context with ⟨error | ops, context'⟩
    · simp [Parse.module, htop, Except.mapError] at h
    · simp only [Parse.module, htop, Except.mapError] at h
      cases h
      exact ⟨tokens, ops, hscan, htop, rfl⟩

end Parse

open Parse in
/-- **What is read was met.** After a module was read, the dialects of its operations are loaded if
they are available: of all but a module that had to be put around them. -/
theorem met_of_parse {source : String} {context after : Context} {m : Operation}
    (h : parse source context = (.ok m, after)) :
    context.Loads after ∧ ∀ head ∈ m.heads, head.name = "builtin.module"
      ∨ after.Met head.name.dialect := by
  obtain ⟨tokens, ops, hscan, htop, rfl⟩ := topLevel_of_parse h
  obtain ⟨_, _, rfl, -, rfl, hreads⟩ := exists_readsAll_of_topLevel
    (Token.marked_of_mem_scan hscan) htop
  refine ⟨hreads.loads, fun head hhead => ?_⟩
  rcases asModule_cases ops with ⟨op, rfl, hop⟩ | hmodule
  · rw [hop] at hhead
    exact .inr (hreads.met head (by simpa [Operation.headsOfAll] using hhead))
  · rw [hmodule, Operation.heads_eq] at hhead
    rcases List.mem_cons.1 hhead with rfl | hhead
    · exact .inl rfl
    · exact .inr (hreads.met head hhead)

open Parse in
/-- **Everything that is read is well formed.** A module that was read keeps the rules of scoping,
its operands have the types of their definitions, its types and integers can be written, and the
context accepts every operation that stands in the source: all but a module that had to be put
around them. -/
theorem wellFormed_of_parse {source : String} {context after : Context} {m : Operation}
    (h : parse source context = (.ok m, after)) :
    m.verify = .ok () ∧ m.WellTyped
      ∧ (∀ head ∈ m.heads, (∀ result ∈ head.results, result.ty.Readable)
          ∧ ∀ entry ∈ head.attributes.entries, entry.2.Canonical)
      ∧ ∃ tokens ops, Token.scan source = .ok tokens ∧ (topLevel tokens context).1 = .ok ops
          ∧ m = asModule ops ∧ ∀ head ∈ Operation.headsOfAll ops, context.Accepts head.name := by
  obtain ⟨tokens, ops, hscan, htop, rfl⟩ := topLevel_of_parse h
  obtain ⟨hscoped, hnodup, hoperands, hheads⟩ :=
    readsAll_of_topLevel (Token.marked_of_mem_scan hscan) htop
  obtain ⟨hmodule, hnames, hallOperands, hallResults⟩ := asModule_facts ops
  rw [← hnames] at hnodup
  refine ⟨Operation.verify_eq_ok_iff.2 ⟨hmodule hscoped, hnodup⟩, ?_, fun head hhead => ?_,
    tokens, ops, hscan, by rw [htop], rfl, fun head hhead => (hheads head hhead).accepted⟩
  · rw [← hallOperands, ← hallResults] at hoperands
    exact Operation.wellTyped_of_subset hnodup hoperands
  · rcases mem_heads_asModule hhead with hhead | ⟨hresults, hattributes⟩
    · exact ⟨(hheads head hhead).readable, (hheads head hhead).canonical⟩
    · simp [hresults, hattributes, Dict.empty]

/-- A function whose result is defined behind its body, and an integer that has to be wrapped. -/
theorem wellFormed_of_parse_function : ∃ m after,
    parse ("%a = arith.constant \x7bvalue = 200 : i8\x7d : i8\n"
      ++ "%f = func.func : index \x7b\n  %b = arith.addi %a, %a : i8\n\x7d\nfunc.return %f")
      (.ofRegistry .standard) = (.ok m, after) ∧ m.verify = .ok () ∧ m.WellTyped :=
  exists_ok_and (by decide +kernel) fun _ _ h =>
    ⟨(wellFormed_of_parse h).1, (wellFormed_of_parse h).2.1⟩

end DialectIR
