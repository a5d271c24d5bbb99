import DialectIR.DeadOps
import DialectIR.Proofs.WellFormed

/-! Loading. Once a context was asked for a dialect, the dialect is loaded or there is none to load:
to ask again changes nothing, whatever was asked for in between. Contexts that only loaded dialects
give the same answers. -/

namespace DialectIR

namespace Context

variable {context other : Context} {name : String}

/-- The dialect of the namespace is loaded, or it is not available. -/
def Met (context : Context) (name : String) : Prop :=
  (context.loaded? name).isSome ∨ context.registry.get? name = none

theorem load_of_met (h : context.Met name) : context.load name = context := by
  unfold load
  split
  next dialect hloaded hregistered =>
    rw [Met, hloaded, hregistered] at h
    simp at h
  next => rfl

theorem loaded?_load (context : Context) (name asked : String) : (context.load asked).loaded? name
    = if name = asked ∧ context.loaded? asked = none then
        (context.registry.get? asked).map fun dialect => ⟨dialect, context.loaded.size⟩
      else context.loaded? name := by
  unfold load
  split
  next dialect hloaded hregistered =>
    refine (Dict.get?_insert ..).trans ?_
    simp only [hloaded, hregistered, and_true, Option.map_some]
    rfl
  next hmet =>
    split
    next h =>
      obtain ⟨rfl, hloaded⟩ := h
      cases hregistered : context.registry.get? name with
      | none => exact hloaded
      | some dialect => exact absurd hregistered (hmet dialect hloaded)
    next => rfl

theorem registry_load (context : Context) (name : String) :
    (context.load name).registry = context.registry := by
  unfold load
  split
  · rfl
  · rfl

theorem met_load (context : Context) (name : String) : (context.load name).Met name := by
  rw [Met, registry_load, loaded?_load]
  cases hloaded : context.loaded? name with
  | some found => simp
  | none => cases context.registry.get? name <;> simp

theorem Met.load (h : context.Met name) (asked : String) : (context.load asked).Met name := by
  by_cases hasked : name = asked
  · exact hasked ▸ met_load context name
  · rw [Met, registry_load, loaded?_load, if_neg fun h => hasked h.1]
    exact h

/-- The journal plays no part in loading. -/
theorem load_withoutJournal (h : other.withoutJournal = context.withoutJournal) (name : String) :
    (other.load name).withoutJournal = (context.load name).withoutJournal := by
  obtain ⟨registry, loaded, allows, journal⟩ := context
  obtain ⟨registry', loaded', allows', journal'⟩ := other
  cases h
  unfold load
  dsimp only [loaded?]
  split
  · rfl
  · rfl

theorem loadEach_induction {P : Context → Prop}
    (hload : ∀ context name, P context → P (context.load name)) (names : List String)
    (h : P context) : P (context.loadEach names) := by
  induction names generalizing context with
  | nil => exact h
  | cons name names ih => exact ih (hload context name h)

theorem sameDialects_loadEach (context : Context) (names : List String) :
    context.SameDialects (context.loadEach names) :=
  loadEach_induction (fun between name h => h.trans (sameDialects_load between name)) names
    (.refl context)

theorem loadEach_withoutJournal (h : other.withoutJournal = context.withoutJournal)
    (names : List String) :
    (other.loadEach names).withoutJournal = (context.loadEach names).withoutJournal := by
  induction names generalizing context other with
  | nil => exact h
  | cons name names ih => exact ih (load_withoutJournal h name)

/-- Dialects were loaded at most; what was noted in between does not matter. -/
def Loads (context other : Context) : Prop :=
  ∃ names, other.withoutJournal = (context.loadEach names).withoutJournal

namespace Loads

theorem refl (context : Context) : context.Loads context := ⟨[], rfl⟩

theorem trans {a b c : Context} (h : a.Loads b) (h' : b.Loads c) : a.Loads c := by
  obtain ⟨names, hnames⟩ := h
  obtain ⟨names', hnames'⟩ := h'
  refine ⟨names ++ names', hnames'.trans ((loadEach_withoutJournal hnames names').trans ?_)⟩
  rw [loadEach, loadEach, loadEach, List.foldl_append]

theorem note (h : context.Loads other) (event : Event) : context.Loads (other.note event) := h

theorem loadEach (h : context.Loads other) (names : List String) :
    context.Loads (other.loadEach names) := h.trans ⟨names, rfl⟩

theorem load (h : context.Loads other) (name : String) : context.Loads (other.load name) :=
  h.loadEach [name]

/-- What does not depend on the journal and is kept by loading is kept. -/
theorem induction {P : Context → Prop}
    (hjournal : ∀ context other, other.withoutJournal = context.withoutJournal →
      P context → P other)
    (hload : ∀ context name, P context → P (context.load name)) (h : context.Loads other)
    (hcontext : P context) : P other := by
  obtain ⟨names, hnames⟩ := h
  exact hjournal _ _ hnames (loadEach_induction hload names hcontext)

theorem registry (h : context.Loads other) : other.registry = context.registry :=
  h.induction (P := fun other => other.registry = context.registry)
    (fun _ _ hsame h => (congrArg Context.registry hsame).trans h)
      (fun between name h => (registry_load between name).trans h) rfl

theorem dialects (h : context.Loads other) : context.SameDialects other := by
  obtain ⟨names, hnames⟩ := h
  have hsame : (context.loadEach names).withoutJournal.SameDialects other.withoutJournal :=
    hnames ▸ .refl _
  exact (sameDialects_loadEach context names).trans ⟨hsame.dialect, hsame.allows⟩

theorem met (h : context.Loads other) (hmet : context.Met name) : other.Met name :=
  h.induction (P := (·.Met name)) (fun _ _ hsame h => (congrArg (·.Met name) hsame).mpr h)
    (fun _ asked h => h.load asked) hmet

theorem judge (h : context.Loads other) (used : List String) (head : Head) :
    context.Loads (other.judge used head) := by
  unfold Context.judge
  split
  · dsimp only
    split
    · exact (h.load _).note _
    · exact h.load _
  · exact h

theorem foldl_judge (h : context.Loads other) (used : List String) (heads : List Head) :
    context.Loads (heads.foldl (·.judge used ·) other) := by
  induction heads generalizing other with
  | nil => exact h
  | cons head heads ih => exact ih (h.judge used head)

/-- Removing dead operations loads dialects at most. -/
theorem removeDeadOps (h : context.Loads other) (op : Operation) :
    context.Loads (op.removeDeadOps other).context := by
  have hrounds (rounds : Nat) : context.Loads (op.removeDeadRounds rounds other).context := by
    induction rounds generalizing other op with
    | zero => exact h
    | succ rounds ih =>
        have hjudged := h.foldl_judge op.usedNames (op.judged (other.isDead op.usedNames))
        unfold Operation.removeDeadRounds
        dsimp only
        split
        · exact hjudged
        · exact ih hjudged _
  exact hrounds _

end Loads

end Context

end DialectIR
