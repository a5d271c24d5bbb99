import DialectIR.Proofs.Passes

/-! Growth. Whatever a registry or a context is used for, in whatever order and with whatever
conflicts, a namespace stays bound to its dialect and a loaded instance stays in its place; and what
is loaded is what is registered. -/

namespace DialectIR

namespace Registry

variable {registry other : Registry} {dialect : Dialect} {dialects : List Dialect}

/-- Every namespace of the first registry is bound to the same dialect in the second. -/
def Grows (registry other : Registry) : Prop :=
  ∀ ⦃name dialect⦄, registry.get? name = some dialect → other.get? name = some dialect

theorem Grows.refl (registry : Registry) : registry.Grows registry := fun _ _ h => h

theorem Grows.trans {a b c : Registry} (h : a.Grows b) (h' : b.Grows c) : a.Grows c :=
  fun _ _ hget => h' (h hget)

theorem Grows.holds (h : registry.Grows other) (hholds : registry.Holds dialects) :
    other.Holds dialects :=
  fun dialect hdialect => h (hholds dialect hdialect)

/-- A dialect that could be registered is there, and all that was there before. -/
theorem grows_of_insert (h : registry.insert dialect = .ok other) :
    registry.Grows other ∧ other.get? dialect.name = some dialect := by
  unfold insert at h
  split at h
  next existing hexisting =>
    split at h
    next hsame =>
      cases h
      exact ⟨.refl registry, hsame ▸ hexisting⟩
    next => cases h
  next hnone =>
    cases h
    have hadd (name : String) : (registry.add dialect).get? name
        = if name = dialect.name then some dialect else registry.get? name := Dict.get?_insert ..
    refine ⟨fun name found hfound => ?_, by rw [hadd, if_pos rfl]⟩
    have hother : name ≠ dialect.name := by
      rintro rfl
      rw [hnone] at hfound
      cases hfound
    rw [hadd, if_neg hother]
    exact hfound

/-- Registering dialects forgets none, also if a conflict stops it. -/
theorem grows_insertAll (registry : Registry) (dialects : List Dialect) :
    registry.Grows (registry.insertAll dialects).1 := by
  induction dialects generalizing registry with
  | nil => exact .refl registry
  | cons dialect dialects ih =>
      rw [insertAll]
      split
      next other hinsert => exact (grows_of_insert hinsert).1.trans (ih other)
      next => exact .refl registry

/-- Without a conflict all of the dialects are registered. -/
theorem holds_insertAll (h : (registry.insertAll dialects).2 = none) :
    (registry.insertAll dialects).1.Holds dialects := by
  induction dialects generalizing registry with
  | nil => exact nofun
  | cons dialect dialects ih =>
      rw [insertAll] at h ⊢
      split at h
      next other hinsert =>
        refine List.forall_mem_cons.2 ⟨?_, ih h⟩
        exact grows_insertAll other dialects (grows_of_insert hinsert).2
      next => cases h

theorem grows_append (registry other : Registry) : registry.Grows (registry.append other).1 :=
  grows_insertAll registry _

end Registry

/-- An entry under a new key is one more. -/
theorem Dict.size_insert {α : Type} {map : Dict α} {key : String} (value : α)
    (h : map.get? key = none) :
    (map.insert key value).size = map.size + 1 := by
  obtain ⟨entries, hsorted⟩ := map
  simp only [get?, insert, size] at h ⊢
  clear hsorted
  induction entries with
  | nil => rfl
  | cons entry entries ih =>
      rw [lookup_cons_eq_ite] at h
      have hne : key ≠ entry.1 := fun heq => by simp [heq] at h
      rw [if_neg hne] at h
      rw [insertEntry, if_neg hne]
      split
      · rfl
      · rw [List.length_cons, ih h, List.length_cons]

namespace Context

variable {context other : Context}

/-- What is loaded is what is registered, and the serial numbers tell the instances apart. -/
structure Sound (context : Context) : Prop where
  registered : ∀ {name found}, context.loaded? name = some found →
    context.registry.get? name = some found.dialect
  bounded : ∀ {name found}, context.loaded? name = some found → found.serial < context.loaded.size
  apart : ∀ {name name' found found'}, context.loaded? name = some found →
    context.loaded? name' = some found' → found.serial = found'.serial → name = name'

/-- Nothing is unregistered or unloaded, and no instance is exchanged for another. -/
structure Grows (context other : Context) : Prop where
  registry : context.registry.Grows other.registry
  loaded : ∀ {name found}, context.loaded? name = some found → other.loaded? name = some found

theorem Grows.refl (context : Context) : context.Grows context := ⟨.refl _, id⟩

theorem Grows.trans {a b c : Context} (h : a.Grows b) (h' : b.Grows c) : a.Grows c :=
  ⟨h.registry.trans h'.registry, fun hfound => h'.loaded (h.loaded hfound)⟩

/-- The journal plays no part in growth. -/
theorem Grows.of_withoutJournal (h : context.Grows other) {other' : Context}
    (hsame : other'.withoutJournal = other.withoutJournal) :
    context.Grows other' := by
  obtain ⟨registry, loaded, allows, journal⟩ := other
  obtain ⟨registry', loaded', allows', journal'⟩ := other'
  cases hsame
  exact ⟨h.registry, h.loaded⟩

theorem Sound.of_withoutJournal (h : context.Sound)
    (hsame : other.withoutJournal = context.withoutJournal) : other.Sound := by
  obtain ⟨registry, loaded, allows, journal⟩ := context
  obtain ⟨registry', loaded', allows', journal'⟩ := other
  cases hsame
  exact ⟨h.registered, h.bounded, h.apart⟩

theorem sound_ofRegistry (registry : Registry) : (ofRegistry registry).Sound :=
  ⟨nofun, nofun, nofun⟩

/-- Growing registries leave the loaded dialects registered. -/
theorem Sound.withRegistry (h : context.Sound) {registry : Registry}
    (hgrows : context.registry.Grows registry) :
    Sound { context with registry } :=
  ⟨fun hfound => hgrows (h.registered hfound), h.bounded, h.apart⟩

theorem grows_load (context : Context) (name : String) : context.Grows (context.load name) := by
  refine ⟨by rw [registry_load]; exact .refl _, fun {other found} hfound => ?_⟩
  rw [loaded?_load, if_neg]
  · exact hfound
  · rintro ⟨rfl, hnone⟩
    rw [hnone] at hfound
    cases hfound

theorem Sound.load (h : context.Sound) (name : String) : (context.load name).Sound := by
  unfold Context.load
  split
  next dialect hloaded hregistered =>
    have hget (other : String) : (context.loaded.insert name ⟨dialect, context.loaded.size⟩).get?
      other
        = if other = name then some ⟨dialect, context.loaded.size⟩ else context.loaded? other :=
          Dict.get?_insert ..
    have hsize := Dict.size_insert (⟨dialect, context.loaded.size⟩ : Instance) hloaded
    -- Whatever is found was loaded before, with a smaller number, or is the new instance.
    have hcases {other : String} {found : Instance}
        (hfound : (context.loaded.insert name ⟨dialect, context.loaded.size⟩).get? other
          = some found) :
        other = name ∧ found = ⟨dialect, context.loaded.size⟩
          ∨ context.loaded? other = some found ∧ found.serial < context.loaded.size := by
      rw [hget] at hfound
      split at hfound
      next hname => exact .inl ⟨hname, (Option.some.inj hfound).symm⟩
      next => exact .inr ⟨hfound, h.bounded hfound⟩
    refine ⟨fun {other found} hfound => ?_, fun {other found} hfound => ?_,
      fun {a b found found'} hfound hfound' hserial => ?_⟩
    · rcases hcases hfound with ⟨rfl, rfl⟩ | ⟨hbefore, -⟩
      · exact hregistered
      · exact h.registered hbefore
    · show found.serial < (context.loaded.insert name _).size
      rw [hsize]
      rcases hcases hfound with ⟨rfl, rfl⟩ | ⟨-, hless⟩
      · exact Nat.lt_succ_self _
      · exact Nat.lt_succ_of_lt hless
    · rcases hcases hfound with ⟨rfl, rfl⟩ | ⟨hbefore, hless⟩
      · rcases hcases hfound' with ⟨rfl, rfl⟩ | ⟨-, hless'⟩
        · rfl
        · exact absurd hserial.symm (Nat.ne_of_lt hless')
      · rcases hcases hfound' with ⟨rfl, rfl⟩ | ⟨hbefore', -⟩
        · exact absurd hserial (Nat.ne_of_lt hless)
        · exact h.apart hbefore hbefore' hserial
  next => exact h

/-! ### Uses -/

/-- What a context can be used for. -/
inductive Use where
  | append (registry : Registry)
  | loadDialect (dialect : Dialect)
  | load (name : String)
  | allow (allowed : Bool)

/-- The context behind a use, also if a conflict stops it. -/
def use (context : Context) : Use → Context
  | .append registry => (context.append registry).1
  | .loadDialect dialect =>
      match context.loadDialect dialect with
      | .ok after => after
      | .error _ => context
  | .load name => context.load name
  | .allow allowed => { context with allowsUnregistered := allowed }

theorem use_loadDialect (context : Context) (dialect : Dialect) : context.use (.loadDialect dialect)
    = match context.registry.insert dialect with
      | .ok registry => Context.load { context with registry } dialect.name
      | .error _ => context := by
  rw [Context.use, loadDialect]
  cases context.registry.insert dialect with
  | ok registry => rfl
  | error conflict => rfl

theorem grows_use (context : Context) (use : Use) : context.Grows (context.use use) := by
  cases use with
  | append registry => exact ⟨Registry.grows_append .., id⟩
  | loadDialect dialect =>
      rw [use_loadDialect]
      split
      next registry hinsert =>
        have hregistered : context.Grows { context with registry } :=
          ⟨(Registry.grows_of_insert hinsert).1, id⟩
        exact hregistered.trans (grows_load _ _)
      next => exact .refl context
  | load name => exact grows_load context name
  | allow allowed => exact ⟨.refl _, id⟩

theorem Sound.use (h : context.Sound) (use : Use) : (context.use use).Sound := by
  cases use with
  | append registry => exact h.withRegistry (Registry.grows_append ..)
  | loadDialect dialect =>
      rw [use_loadDialect]
      split
      next registry hinsert =>
        exact (h.withRegistry (Registry.grows_of_insert hinsert).1).load dialect.name
      next => exact h
  | load name => exact h.load name
  | allow allowed => exact ⟨h.registered, h.bounded, h.apart⟩

theorem use_withoutJournal (h : other.withoutJournal = context.withoutJournal) (use : Use) :
    (other.use use).withoutJournal = (context.use use).withoutJournal := by
  obtain ⟨registry, loaded, allows, journal⟩ := context
  obtain ⟨registry', loaded', allows', journal'⟩ := other
  cases h
  have hsame (registry : Registry) : withoutJournal ⟨registry, loaded, allows, journal'⟩
    = withoutJournal ⟨registry, loaded, allows, journal⟩ :=
    rfl
  cases use with
  | append more => rfl
  | loadDialect dialect =>
      rw [use_loadDialect, use_loadDialect]
      dsimp only
      split
      · exact load_withoutJournal (hsame _) dialect.name
      · rfl
  | load name => exact load_withoutJournal (hsame _) name
  | allow allowed => rfl

/-- The second context is what the first became in use; what was noted in between does not
matter. -/
def Uses (context other : Context) : Prop :=
  ∃ uses : List Use, other.withoutJournal = (uses.foldl use context).withoutJournal

namespace Uses

theorem refl (context : Context) : context.Uses context := ⟨[], rfl⟩

theorem trans {a b c : Context} (h : a.Uses b) (h' : b.Uses c) : a.Uses c := by
  obtain ⟨uses, huses⟩ := h
  obtain ⟨uses', huses'⟩ := h'
  refine ⟨uses ++ uses', huses'.trans ?_⟩
  rw [List.foldl_append]
  clear huses'
  generalize uses.foldl Context.use a = between at huses
  induction uses' generalizing b between with
  | nil => exact huses
  | cons use uses' ih => exact ih _ (use_withoutJournal huses use)

theorem of_withoutJournal (h : context.Uses other) {other' : Context}
    (hsame : other'.withoutJournal = other.withoutJournal) :
    context.Uses other' := h.imp fun _ huses => hsame.trans huses

theorem note (h : context.Uses other) (event : Event) : context.Uses (other.note event) := h

theorem use (h : context.Uses other) (use : Use) : context.Uses (other.use use) :=
  h.trans ⟨[use], rfl⟩

/-- What does not depend on the journal and is kept by every use is kept. -/
theorem induction {P : Context → Prop}
    (hjournal : ∀ context other, other.withoutJournal = context.withoutJournal →
      P context → P other)
    (huse : ∀ context use, P context → P (context.use use)) (h : context.Uses other)
    (hcontext : P context) : P other := by
  obtain ⟨uses, huses⟩ := h
  refine hjournal _ _ huses ?_
  clear huses
  induction uses generalizing context with
  | nil => exact hcontext
  | cons use uses ih => exact ih (huse context use hcontext)

/-- **A context in use only grows.** -/
theorem grows (h : context.Uses other) : context.Grows other :=
  h.induction (P := context.Grows) (fun _ _ hsame h => h.of_withoutJournal hsame)
    (fun between use h => h.trans (grows_use between use)) (.refl context)

/-- **What is loaded stays what is registered.** -/
theorem sound (h : context.Uses other) (hcontext : context.Sound) : other.Sound :=
  h.induction (fun _ _ hsame h => h.of_withoutJournal hsame) (fun _ use h => h.use use) hcontext

end Uses

theorem Loads.uses (h : context.Loads other) : context.Uses other :=
  h.induction (P := context.Uses) (fun _ _ hsame h => h.of_withoutJournal hsame)
    (fun _ name h => h.use (.load name)) (.refl context)

end Context

end DialectIR
