import DialectIR.Proofs.Orderly
import DialectIR.Proofs.ReaderContext

/-! Persistence. Registries and contexts that live side by side are asked for things in any order,
and some requests end in an error or a conflict. What is registered or loaded at any time stays so
whatever is asked for later, and what is loaded is what is registered. -/

namespace DialectIR

variable {σ : Type}

/-- Registries and contexts, by the order in which they were made, and the memory of the
patterns. -/
structure Stock (σ : Type) where
  registries : List Registry := []
  contexts : List Context := []
  memory : σ

/-- What a stock can be asked for. Registries and contexts are given by their numbers. -/
inductive Request (σ : Type) where
  | newRegistry
  | insert (registry : Nat) (dialect : Dialect)
  | insertAll (registry : Nat) (dialects : List Dialect)
  /-- Registers all dialects of one registry in another. -/
  | appendTo (registry other : Nat)
  | newContext (registry : Nat)
  | append (context registry : Nat)
  | loadDialect (context : Nat) (dialect : Dialect)
  | load (context : Nat) (name : String)
  | loadAll (context : Nat)
  /-- Asks for the definition of an operation, or whether it is pure. -/
  | lookUp (context : Nat) (name : OpName)
  | allowUnregistered (context : Nat) (allowed : Bool)
  | parse (context : Nat) (source : String)
  | run (context : Nat) (manager : PassManager σ) (op : Operation)

/-- Only passes can do more to a context than the request is for. -/
def Request.Orderly : Request σ → Prop
  | .run _ manager _ => manager.Orderly
  | _ => True

namespace Stock

variable {stock before after : Stock σ}

/-- The stock with nothing in it. -/
def empty (memory : σ) : Stock σ := { memory }

def onRegistry (stock : Stock σ) (index : Nat) (f : Registry → Registry) : Stock σ :=
  { stock with registries := stock.registries.modify index f }

def onContext (stock : Stock σ) (index : Nat) (f : Context → Context) : Stock σ :=
  { stock with contexts := stock.contexts.modify index f }

/-- The stock behind a request, also if the request fails. Where there is nothing of the given
number, nothing happens. -/
def perform (stock : Stock σ) : Request σ → Stock σ
  | .newRegistry => { stock with registries := stock.registries ++ [.empty] }
  | .insert registry dialect => stock.onRegistry registry fun registry =>
      match registry.insert dialect with
      | .ok registry => registry
      | .error _ => registry
  | .insertAll registry dialects =>
      stock.onRegistry registry fun registry => (registry.insertAll dialects).1
  | .appendTo registry other =>
      match stock.registries[registry]? with
      | some registry => stock.onRegistry other fun other => (other.append registry).1
      | none => stock
  | .newContext registry =>
      match stock.registries[registry]? with
      | some registry => { stock with contexts := stock.contexts ++ [.ofRegistry registry] }
      | none => stock
  | .append context registry =>
      match stock.registries[registry]? with
      | some registry => stock.onContext context fun context => (context.append registry).1
      | none => stock
  | .loadDialect context dialect => stock.onContext context fun context =>
      match context.loadDialect dialect with
      | .ok context => context
      | .error _ => context
  | .load context name => stock.onContext context fun context => context.load name
  | .loadAll context => stock.onContext context Context.loadAll
  | .lookUp context name => stock.onContext context fun context => context.load name.dialect
  | .allowUnregistered context allowed =>
      stock.onContext context fun context => { context with allowsUnregistered := allowed }
  | .parse context source =>
      stock.onContext context fun context => (DialectIR.parse source context).2
  | .run index manager op =>
      match stock.contexts[index]? with
      | some context =>
          let left := (manager.run op ⟨context, stock.memory⟩).1.space
          { stock.onContext index fun _ => left.context with memory := left.memory }
      | none => stock

def performAll (stock : Stock σ) (requests : List (Request σ)) : Stock σ :=
  requests.foldl perform stock

/-- Nothing is unregistered or unloaded, and no instance is exchanged for another. -/
structure Grows (before after : Stock σ) : Prop where
  registries : ∀ {index : Nat} {registry : Registry}, before.registries[index]? = some registry →
    ∃ registry', after.registries[index]? = some registry' ∧ registry.Grows registry'
  contexts : ∀ {index : Nat} {context : Context}, before.contexts[index]? = some context →
    ∃ context', after.contexts[index]? = some context' ∧ context.Grows context'

/-- Contexts are used only, registries are added to only, and new contexts have nothing loaded that
is not registered. -/
structure Evolves (before after : Stock σ) : Prop where
  registries : ∀ {index : Nat} {registry : Registry}, before.registries[index]? = some registry →
    ∃ registry', after.registries[index]? = some registry' ∧ registry.Grows registry'
  contexts : ∀ {index : Nat} {context : Context}, before.contexts[index]? = some context →
    ∃ context', after.contexts[index]? = some context' ∧ context.Uses context'
  made : ∀ {index : Nat} {context : Context}, before.contexts[index]? = none →
    after.contexts[index]? = some context → context.Sound

namespace Evolves

theorem refl (stock : Stock σ) : stock.Evolves stock :=
  ⟨fun h => ⟨_, h, .refl _⟩, fun h => ⟨_, h, .refl _⟩, fun hnone hsome =>
    nomatch hnone.symm.trans hsome⟩

theorem trans {a b c : Stock σ} (h : a.Evolves b) (h' : b.Evolves c) : a.Evolves c where
  registries ha := by
    obtain ⟨_, hb, hgrows⟩ := h.registries ha
    obtain ⟨_, hc, hgrows'⟩ := h'.registries hb
    exact ⟨_, hc, hgrows.trans hgrows'⟩
  contexts ha := by
    obtain ⟨_, hb, huses⟩ := h.contexts ha
    obtain ⟨_, hc, huses'⟩ := h'.contexts hb
    exact ⟨_, hc, huses.trans huses'⟩
  made {index context} ha hc := by
    cases hb : b.contexts[index]? with
    | none => exact h'.made hb hc
    | some between =>
        obtain ⟨context', hc', huses⟩ := h'.contexts hb
        cases Option.some.inj (hc.symm.trans hc')
        exact huses.sound (h.made ha hb)

theorem grows (h : before.Evolves after) : before.Grows after where
  registries := h.registries
  contexts hcontext := by
    obtain ⟨context', hcontext', huses⟩ := h.contexts hcontext
    exact ⟨context', hcontext', huses.grows⟩

/-- The memory plays no part. -/
theorem withMemory (h : before.Evolves after) (memory : σ) : before.Evolves { after with memory } :=
  ⟨h.registries, h.contexts, h.made⟩

end Evolves

/-! ### Requests -/

theorem evolves_onRegistry {index : Nat} {f : Registry → Registry}
    (h : ∀ registry : Registry, registry.Grows (f registry)) :
    stock.Evolves (stock.onRegistry index f) where
  registries {other registry} hregistry := by
    refine ⟨if index = other then f registry else registry, ?_, ?_⟩
    · rw [onRegistry, List.getElem?_modify, hregistry]
      split
      · rfl
      · rfl
    · split
      · exact h registry
      · exact .refl registry
  contexts := (Evolves.refl stock).contexts
  made := (Evolves.refl stock).made

theorem evolves_onContext {index : Nat} {f : Context → Context}
    (h : ∀ context, stock.contexts[index]? = some context → context.Uses (f context)) :
    stock.Evolves (stock.onContext index f) where
  registries := (Evolves.refl stock).registries
  contexts {other context} hcontext := by
    refine ⟨if index = other then f context else context, ?_, ?_⟩
    · rw [onContext, List.getElem?_modify, hcontext]
      split
      · rfl
      · rfl
    · split
      next heq => exact h context (heq ▸ hcontext)
      next => exact .refl context
  made {other context} hnone hsome := by
    rw [onContext, List.getElem?_modify, hnone] at hsome
    cases hsome

theorem evolves_newRegistry (registry : Registry) : stock.Evolves { stock with registries :=
  stock.registries ++ [registry] } where
  registries hregistry :=
    ⟨_, by rw [List.getElem?_append_left (List.getElem?_eq_some_iff.1 hregistry).1, hregistry],
      .refl _⟩
  contexts := (Evolves.refl stock).contexts
  made := (Evolves.refl stock).made

theorem evolves_newContext {context : Context} (h : context.Sound) :
    stock.Evolves { stock with contexts := stock.contexts ++ [context] } where
  registries := (Evolves.refl stock).registries
  contexts hcontext :=
    ⟨_, by rw [List.getElem?_append_left (List.getElem?_eq_some_iff.1 hcontext).1, hcontext],
      .refl _⟩
  made {index made} hnone hmade := by
    rw [List.getElem?_append_right (List.getElem?_eq_none_iff.1 hnone)] at hmade
    rw [List.mem_singleton.1 (List.mem_of_getElem? hmade)]
    exact h

/-- **Whatever is asked for, nothing is forgotten**, also if the request fails. -/
theorem evolves_perform (stock : Stock σ) {request : Request σ} (h : request.Orderly) :
    stock.Evolves (stock.perform request) := by
  have huse (use : Context.Use) (index : Nat) : stock.Evolves
    (stock.onContext index fun context => context.use use) :=
    evolves_onContext fun context _ => (Context.Uses.refl context).use use
  have hloads {f : Context → Context} (hf : ∀ context : Context, context.Loads (f context))
    (index : Nat) :
      stock.Evolves (stock.onContext index f) := evolves_onContext fun context _ =>
        (hf context).uses
  cases request with
  | newRegistry => exact evolves_newRegistry .empty
  | insert registry dialect =>
      refine evolves_onRegistry fun registry => ?_
      split
      next other hinsert => exact (Registry.grows_of_insert hinsert).1
      next => exact .refl registry
  | insertAll registry dialects =>
      exact evolves_onRegistry fun registry => registry.grows_insertAll dialects
  | appendTo registry other =>
      rw [perform]
      split
      · exact evolves_onRegistry fun other => other.grows_append _
      · exact .refl stock
  | newContext registry =>
      rw [perform]
      split
      · exact evolves_newContext (Context.sound_ofRegistry _)
      · exact .refl stock
  | append context registry =>
      rw [perform]
      split
      next registry _ => exact huse (.append registry) context
      next => exact .refl stock
  | loadDialect context dialect => exact huse (.loadDialect dialect) context
  | load context name => exact huse (.load name) context
  | loadAll context => exact hloads (fun context => (Context.Loads.refl context).loadEach _) context
  | lookUp context name => exact huse (.load name.dialect) context
  | allowUnregistered context allowed => exact huse (.allow allowed) context
  | parse context source => exact hloads (loads_parse source) context
  | run index manager op =>
      rw [perform]
      split
      next context hcontext =>
        refine (evolves_onContext fun other hother => ?_).withMemory _
        cases Option.some.inj (hother.symm.trans hcontext)
        exact (PassManager.Orderly.run h op _).1
      next => exact .refl stock

theorem evolves_performAll (stock : Stock σ) {requests : List (Request σ)}
    (h : ∀ request ∈ requests, request.Orderly) :
    stock.Evolves (stock.performAll requests) := by
  induction requests generalizing stock with
  | nil => exact .refl stock
  | cons request requests ih =>
      obtain ⟨hrequest, hrest⟩ := List.forall_mem_cons.1 h
      exact (evolves_perform stock hrequest).trans (ih _ hrest)

/-- **What is registered or loaded stays so.** After any requests, whatever became of them, all that
is loaded in a context is what is registered there; and whatever is asked for then, a namespace
stays bound to its dialect, and a loaded instance stays in its place. -/
theorem grows_performAll {earlier later : List (Request σ)}
    (hearlier : ∀ request ∈ earlier, request.Orderly) (hlater : ∀ request ∈ later, request.Orderly)
    (memory : σ) :
    (∀ context ∈ ((empty memory).performAll earlier).contexts, context.Sound)
      ∧ ((empty memory).performAll earlier).Grows
        ((empty memory).performAll (earlier ++ later)) := by
  refine ⟨fun context hcontext => ?_, ?_⟩
  · obtain ⟨index, hindex⟩ := List.getElem?_of_mem hcontext
    exact (evolves_performAll (empty memory) hearlier).made List.getElem?_nil hindex
  · rw [performAll, performAll, List.foldl_append]
    exact (evolves_performAll _ hlater).grows

/-- Another dialect claims the namespace of arithmetic, once in a registry and once in a context;
and a text cannot be read. -/
theorem grows_performAll_impostor :
    let impostor : Dialect := { Dialect.arith with identity := "impostor" }
    let earlier : List (Request Unit) :=
      [.newRegistry, .insertAll 0 [.builtin, .arith], .insert 0 impostor, .newContext 0,
      .parse 0 "%a = arith.constant"]
    let later : List (Request Unit) := [.loadDialect 0 impostor,
      .run 0 { passes := [.canonicalize Dialect.standardSimplifications, .convertArithToLLVM] }
        (.module [])]
    (((empty ()).performAll earlier).contexts.map Context.loadedNames = [["arith"]]
        ∧ ((empty ()).performAll (earlier ++ later)).contexts.map Context.loadedNames
          = [["arith", "llvm"]])
      ∧ (∀ context ∈ ((empty ()).performAll earlier).contexts, context.Sound)
      ∧ ((empty ()).performAll earlier).Grows ((empty ()).performAll (earlier ++ later)) := by
  have horderly : PassManager.Orderly (σ := Unit)
    { passes := [.canonicalize Dialect.standardSimplifications, .convertArithToLLVM] } :=
    ⟨List.forall_mem_cons.2 ⟨Pass.orderly_canonicalize _,
      List.forall_mem_singleton.2 Pass.orderly_convertArithToLLVM⟩, fun h => nomatch h⟩
  refine ⟨by decide +kernel, grows_performAll ?_ ?_ ()⟩
  · simp [Request.Orderly]
  · simpa [Request.Orderly] using horderly

end Stock

end DialectIR
