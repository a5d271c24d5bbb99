import DialectIR.Proofs.Accepted
import DialectIR.Proofs.Growth
import DialectIR.Proofs.ReaderContext

/-! Which dialects reading loads. An operation asks for its dialect as soon as its name was read,
before its region is read: so the dialects of the operations of a source are asked for in the order
in which the operations are listed, and no others are. -/

namespace DialectIR

theorem Dict.mem_keys_iff {α : Type} {map : Dict α} {key : String} :
    key ∈ map.keys ↔ (map.get? key).isSome = true := by
  rw [Dict.keys, List.mem_map, Option.isSome_iff_exists]
  constructor
  · rintro ⟨entry, hentry, rfl⟩
    exact ⟨entry.2, get?_of_mem hentry⟩
  · rintro ⟨value, hvalue⟩
    exact ⟨(key, value), mem_of_get? hvalue, rfl⟩

namespace Context

variable {context other : Context} {names : List String} {name : String}

/-- Behind some requests a namespace has the dialect that it had, or else, if it was asked for, the
one that is registered. -/
theorem dialect_loadEach (context : Context) (names : List String) (name : String) :
    ((context.loadEach names).loaded? name).map Instance.dialect
      = ((context.loaded? name).map Instance.dialect).or
        (if name ∈ names then context.registry.get? name else none) := by
  induction names generalizing context with
  | nil =>
      rw [if_neg List.not_mem_nil, Option.or_none]
      rfl
  | cons asked names ih =>
      refine (ih (context.load asked)).trans ?_
      rw [registry_load, loaded?_load]
      by_cases hasked : name = asked ∧ context.loaded? asked = none
      · obtain ⟨rfl, hnone⟩ := hasked
        rw [if_pos ⟨rfl, hnone⟩, if_pos List.mem_cons_self, hnone, Option.map_map]
        cases context.registry.get? name with
        | none => simp
        | some dialect => rfl
      · rw [if_neg hasked]
        cases hloaded : context.loaded? name with
        | some found => rfl
        | none =>
            have hother : name ≠ asked := fun heq => hasked ⟨heq, heq ▸ hloaded⟩
            simp [hother]

theorem mem_loadedNames_iff : name ∈ context.loadedNames ↔ (context.loaded? name).isSome = true :=
  Dict.mem_keys_iff

theorem mem_availableNames_iff :
    name ∈ context.availableNames ↔ (context.registry.get? name).isSome = true := Dict.mem_keys_iff

/-- What is loaded behind some requests was loaded before, or it is available and was asked for. -/
theorem mem_loadedNames_loadEach : name ∈ (context.loadEach names).loadedNames
    ↔ name ∈ context.loadedNames ∨ name ∈ context.availableNames ∧ name ∈ names := by
  rw [mem_loadedNames_iff, mem_loadedNames_iff, mem_availableNames_iff,
    ← Option.isSome_map (f := Instance.dialect),
    dialect_loadEach, Option.isSome_or, Option.isSome_map, Bool.or_eq_true]
  by_cases hname : name ∈ names
  · simp [hname]
  · simp [hname]

end Context

namespace Parse

open Operation

variable {before after : State}

/-- The namespaces of the operations, of each before those of what it holds. -/
def namespaces (ops : List Operation) : List String := (headsOfAll ops).map (·.name.dialect)

theorem namespaces_append (ops more : List Operation) :
    namespaces (ops ++ more) = namespaces ops ++ namespaces more := by
  rw [namespaces, headsOfAll_append, List.map_append]
  rfl

/-- Between the two states the dialects of the operations were asked for, one after the other. -/
def Asks (before : State) (ops : List Operation) (after : State) : Prop :=
  after.context = before.context.loadEach (namespaces ops)

theorem Asks.append {between : State} {ops more : List Operation} (h : Asks before ops between)
    (hmore : Asks between more after) : Asks before (ops ++ more) after := by
  rw [Asks, namespaces_append, Context.loadEach, List.foldl_append]
  rw [Asks] at h hmore
  rw [hmore, h]
  rfl

/-- Readers that only take tokens leave the context alone. -/
theorem Maintains.context_eq {α : Type} {reader : Reader α} {result : α}
    (hreader : ∀ c : Context, Maintains (fun s : State => s.context = c) reader)
    (h : Returns reader before result after) :
    after.context = before.context := (hreader before.context).of_returns rfl h

theorem keepsContext_advance (c : Context) (s : State) (h : s.context = c) :
    s.advance.context = c := s.advance_context.trans h

theorem asks_of_returns_operationsUntil {close : Token.Kind} {operation : Reader Operation}
    (hoperation : ∀ s op s', Returns operation s op s' → Asks s [op] s') {steps : Nat}
    {ops : List Operation} (h : Returns (operationsUntil close operation steps) before ops after) :
    Asks before ops after := by
  induction steps generalizing before ops with
  | zero =>
      rw [operationsUntil] at h
      simp at h
  | succ steps ih =>
      rw [operationsUntil, returns_isNext_bind] at h
      split at h
      · obtain ⟨rfl, rfl⟩ := Returns.pure_iff.1 h
        rfl
      · obtain ⟨op, s, hop, h⟩ := Returns.bind_iff.1 h
        obtain ⟨rest, s', hrest, h⟩ := Returns.bind_iff.1 h
        obtain ⟨rfl, rfl⟩ := Returns.pure_iff.1 h
        exact (hoperation _ _ _ hop).append (ih hrest)

/-- Reading a region, or finding that there is none. -/
theorem asks_of_returns_region? {operation : Reader Operation}
    (hoperation : ∀ s op s', Returns operation s op s' → Asks s [op] s') {steps : Nat}
    {ops? : Option (List Operation)} (h : Returns (region? operation steps) before ops? after) :
    Asks before (ops?.getD []) after := by
  unfold region? at h
  rw [returns_isNext_bind] at h
  split at h
  · obtain ⟨ops, hregion, rfl⟩ := Returns.map_iff.1 h
    unfold region at hregion
    obtain ⟨_, s1, hopen, h⟩ := Returns.bind_iff.1 hregion
    rw [Returns.modify_bind_iff] at h
    obtain ⟨ops', s2, hops, h⟩ := Returns.bind_iff.1 h
    obtain ⟨_, s3, hclose, h⟩ := Returns.bind_iff.1 h
    rw [Returns.modify_bind_iff] at h
    obtain ⟨rfl, rfl⟩ := Returns.pure_iff.1 h
    have hinside : s2.context = s1.context.loadEach (namespaces ops) :=
      (asks_of_returns_operationsUntil hoperation hops :)
    rw [Asks, Option.getD_some, ← (OnlyReads.expect hopen).context, ← hinside]
    exact (OnlyReads.expect hclose).context
  · obtain ⟨rfl, rfl⟩ := Returns.pure_iff.1 h
    rfl

/-- The dialect of an operation is asked for first, then those of the operations that it holds. -/
theorem asks_of_returns_operation {steps : Nat} {op : Operation}
    (h : Returns (operation steps) before op after) :
    Asks before [op] after := by
  induction steps generalizing before op after with
  | zero =>
      rw [operation] at h
      simp at h
  | succ steps ih =>
      rw [operation] at h
      obtain ⟨tokens, s1, htokens, h⟩ := Returns.bind_iff.1 h
      obtain ⟨nameToken, s2, hname, h⟩ := Returns.bind_iff.1 h
      obtain ⟨_, s3, hcheck, h⟩ := Returns.bind_iff.1 h
      obtain ⟨values, s4, hvalues, h⟩ := Returns.bind_iff.1 h
      obtain ⟨entries, s5, hentries, h⟩ := Returns.bind_iff.1 h
      obtain ⟨types, s6, htypes, h⟩ := Returns.bind_iff.1 h
      obtain ⟨_, s7, hcount, h⟩ := Returns.bind_iff.1 h
      obtain ⟨region, s8, hregion, h⟩ := Returns.bind_iff.1 h
      obtain ⟨results, s9, hresults, h⟩ := Returns.bind_iff.1 h
      obtain ⟨hop, rfl⟩ := Returns.pure_iff.1 h
      have hnamed : s2.context = before.context :=
        (OnlyReads.expect hname).context.trans (value_of_returns_resultTokens htokens).2.context
      obtain ⟨-, rfl⟩ := returns_checkName.1 hcheck
      have hoperands : s4.context = s2.context.load (operationName nameToken.lexeme).dialect :=
        Maintains.context_eq (fun c => maintains_operands (keepsContext_advance c) _ _) hvalues
      have hread : s7.context = s4.context := by
        rw [(returns_checkCount.1 hcount).2, (readable_of_returns_resultTypes htypes).2.context,
          (canonical_of_returns_attributes? hentries).2.context]
      have hinside : s8.context = s7.context.loadEach (namespaces (region.getD [])) :=
        asks_of_returns_region? (fun _ _ _ hop => ih hop) hregion
      have hdefined : after.context = s8.context :=
        Maintains.context_eq (fun c => maintains_defineAll (P := (· = c)) _) hresults
      have hnested : op.nested = region.getD [] := by
        rw [hop]
        rfl
      have hopName : op.name = operationName nameToken.lexeme := by rw [hop]
      rw [Asks, namespaces, headsOfAll_singleton, heads_eq, List.map_cons, hnested, hopName,
        Context.loadEach, List.foldl_cons, hdefined, hinside, hread, hoperands, hnamed]
      rfl

/-- **Reading a source asks for the dialects of its operations**, in the order in which they are
listed, and does nothing else to the context. -/
theorem context_of_topLevel {tokens : List Token} {context after : Context} {ops : List Operation}
    (h : topLevel tokens context = (.ok ops, after)) :
    after = context.loadEach (namespaces ops) := by
  obtain ⟨here, later, s, -, hreturns, rfl⟩ := returns_of_topLevel h
  exact asks_of_returns_operationsUntil (fun _ _ _ hop => asks_of_returns_operation hop) hreturns

end Parse

open Parse in
/-- **Reading loads the dialects that it meets.** Behind a source that was read those dialects are
loaded that were loaded before, the same instances, and the available ones of all operations that
stand in the source, at any depth: a module that had to be put around them does not count. What is
available stays as it was, and so does the permission for operations that no dialect defines. -/
theorem loaded_of_parse {source : String} {context after : Context} {m : Operation}
    (h : parse source context = (.ok m, after)) :
    (∃ tokens ops, Token.scan source = .ok tokens ∧ (topLevel tokens context).1 = .ok ops
      ∧ m = asModule ops
        ∧ ∀ name, name ∈ after.loadedNames ↔ name ∈ context.loadedNames
          ∨ name ∈ context.availableNames ∧ ∃ head ∈ Operation.headsOfAll ops,
            head.name.dialect = name)
      ∧ (∀ name found, context.loaded? name = some found → after.loaded? name = some found)
      ∧ (∀ name found, context.loaded? name = none → after.loaded? name = some found →
        context.registry.get? name = some found.dialect)
      ∧ after.registry = context.registry ∧ after.allowsUnregistered
        = context.allowsUnregistered := by
  have hloads := loads_of_parse h
  obtain ⟨tokens, ops, hscan, htop, rfl⟩ := topLevel_of_parse h
  have hafter := context_of_topLevel htop
  refine ⟨⟨tokens, ops, hscan, by rw [htop], rfl, fun name => ?_⟩,
    fun name found hfound => hloads.uses.grows.loaded hfound,
    fun name found hnone hfound => ?_, hloads.registry, hloads.dialects.allows⟩
  · rw [hafter, Context.mem_loadedNames_loadEach, namespaces, List.mem_map]
  · have hdialect := Context.dialect_loadEach context (namespaces ops) name
    rw [← hafter, hfound, hnone] at hdialect
    simp only [Option.map_some, Option.map_none, Option.none_or] at hdialect
    split at hdialect
    · exact hdialect.symm
    · cases hdialect

/-- A function with a constant in its body: nothing asks for the dialect of the module around it. -/
theorem loaded_of_parse_function :
    let source :=
        "func.func \x7b\n  %a = arith.constant \x7bvalue = 200 : i8\x7d : i8\n  arith.addi %a, %a\n\x7d"
    (parse source (.ofRegistry .standard)).2.loadedNames = ["arith", "func"]
      ∧ ∃ m after, parse source (.ofRegistry .standard) = (.ok m, after)
      ∧ after.registry = .standard
        ∧ ∃ ops, m = Parse.asModule ops ∧ ∀ name, name ∈ after.loadedNames
          ↔ name ∈ (Context.ofRegistry .standard).loadedNames
            ∨ name ∈ (Context.ofRegistry .standard).availableNames
            ∧ ∃ head ∈ Operation.headsOfAll ops, head.name.dialect = name := by
  refine ⟨by decide +kernel, exists_ok_and (by decide +kernel) fun m after h => ?_⟩
  obtain ⟨⟨_, ops, -, -, hops, hnames⟩, -, -, hregistry, -⟩ := loaded_of_parse h
  exact ⟨hregistry, ops, hops, hnames⟩

end DialectIR
