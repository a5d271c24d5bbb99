import DialectIR.Event

/-! Runs of programs with a state. A run of a sequence consists of the runs of its parts, so that a
run of a long program can be taken apart, or put together, step by step: `Returns` is about runs
that end with a result, `Ensures` about all runs, and `Maintains` about what all runs keep. -/

namespace DialectIR

variable {ε σ α β : Type}

theorem eq_ok_of_toOption {result : Except ε α} {a : α} (h : result.toOption = some a) :
    result = .ok a := by
  cases result with
  | error error => cases h
  | ok b => exact congrArg Except.ok (Option.some.inj h)

theorem exists_error_of_toOption {result : Except ε α} (h : result.toOption = none) :
    ∃ error, result = .error error := by
  cases result with
  | error error => exact ⟨error, rfl⟩
  | ok b => cases h

theorem exists_ok_and {outcome : Except ε α × β} {P : α → β → Prop} (hok : outcome.1.isOk = true)
    (hall : ∀ a b, outcome = (.ok a, b) → P a b) : ∃ a b, outcome = (.ok a, b) ∧ P a b := by
  rcases outcome with ⟨_ | a, b⟩
  · cases hok
  · exact ⟨a, b, rfl, hall a b rfl⟩

/-- How a program ends that is started in a state, and the state that it leaves. -/
def runFrom (program : ExceptT ε (StateM σ) α) (before : σ) : Except ε α × σ :=
  program.run.run before

/-- The program, started in the state `before`, ends with a result and leaves the state `after`. -/
def Returns (program : ExceptT ε (StateM σ) α) (before : σ) (result : α) (after : σ) : Prop :=
  runFrom program before = (.ok result, after)

/-- The run of a sequence: behind an error nothing else is run. -/
theorem runFrom_bind (program : ExceptT ε (StateM σ) α) (next : α → ExceptT ε (StateM σ) β)
    (before : σ) :
    runFrom (program >>= next) before = match runFrom program before with
      | (.ok a, between) => runFrom (next a) between
      | (.error error, between) => (.error error, between) := by
  simp only [runFrom, ExceptT.run_bind, StateT.run_bind]
  show (match (program.run.run before).1 with
    | .ok a => (next a).run
    | .error error => pure (.error error)).run (program.run.run before).2 = _
  rcases program.run.run before with ⟨_ | a, between⟩ <;> rfl

namespace Returns

variable {before after : σ} {result : α}

@[simp] theorem pure_iff {a : α} : Returns (pure a : ExceptT ε (StateM σ) α) before result after
    ↔ result = a ∧ after = before := by
  show (Except.ok a, before) = (Except.ok result, after) ↔ _
  simp [eq_comm]

theorem bind_iff {program : ExceptT ε (StateM σ) α} {next : α → ExceptT ε (StateM σ) β}
    {result : β} :
    Returns (program >>= next) before result after
      ↔ ∃ a between, Returns program before a between ∧ Returns (next a) between result after := by
  unfold Returns
  rw [runFrom_bind]
  rcases runFrom program before with ⟨_ | a, between⟩
  · simp
  · constructor
    · intro h
      exact ⟨a, between, rfl, h⟩
    · rintro ⟨_, _, heq, h⟩
      cases heq
      exact h

@[simp] theorem map_iff {program : ExceptT ε (StateM σ) α} {f : α → β} {result : β} :
    Returns (f <$> program) before result after ↔ ∃ a, Returns program before a after
      ∧ result = f a := by
  rw [map_eq_pure_bind, bind_iff]
  simp only [pure_iff]
  constructor
  · rintro ⟨a, _, hprogram, rfl, rfl⟩
    exact ⟨a, hprogram, rfl⟩
  · rintro ⟨a, hprogram, rfl⟩
    exact ⟨a, after, hprogram, rfl, rfl⟩

@[simp] theorem throw_iff {error : ε} :
    ¬ Returns (throw error : ExceptT ε (StateM σ) α) before result after := by
  intro h
  cases congrArg Prod.fst h

@[simp] theorem get_iff {state : σ} : Returns (get : ExceptT ε (StateM σ) σ) before state after
    ↔ state = before ∧ after = before := by
  show (Except.ok before, before) = (Except.ok state, after) ↔ _
  simp [eq_comm]

@[simp] theorem modify_iff {f : σ → σ} {u : PUnit} :
    Returns (modify f : ExceptT ε (StateM σ) PUnit) before u after ↔ after = f before := by
  show (Except.ok PUnit.unit, f before) = (Except.ok u, after) ↔ _
  simp [eq_comm]

@[simp] theorem set_iff {state : σ} {u : PUnit} :
    Returns (set state : ExceptT ε (StateM σ) PUnit) before u after ↔ after = state := by
  show (Except.ok PUnit.unit, state) = (Except.ok u, after) ↔ _
  simp [eq_comm]

@[simp] theorem get_bind_iff {next : σ → ExceptT ε (StateM σ) α} :
    Returns (get >>= next) before result after ↔ Returns (next before) before result after := by
  simp [bind_iff, and_assoc]

@[simp] theorem modify_bind_iff {f : σ → σ} {next : PUnit → ExceptT ε (StateM σ) α} :
    Returns (modify f >>= next) before result after
      ↔ Returns (next ⟨⟩) (f before) result after := by
  rw [bind_iff]
  exact ⟨fun ⟨_, _, hmodify, h⟩ => modify_iff.1 hmodify ▸ h,
    fun h => ⟨⟨⟩, f before, modify_iff.2 rfl, h⟩⟩

@[simp] theorem set_bind_iff {state : σ} {next : PUnit → ExceptT ε (StateM σ) α} :
    Returns (set state >>= next) before result after ↔ Returns (next ⟨⟩) state result after := by
  rw [bind_iff]
  exact ⟨fun ⟨_, _, hset, h⟩ => set_iff.1 hset ▸ h, fun h => ⟨⟨⟩, state, set_iff.2 rfl, h⟩⟩

@[simp] theorem ite_iff {condition : Prop} [Decidable condition] {yes no : ExceptT ε (StateM σ) α} :
    Returns (if condition then yes else no) before result after
      ↔ if condition then Returns yes before result after else Returns no before result after := by
  split <;> rfl

end Returns

/-- The program, started in the state `before`, ends with a result or an error of the given
kinds. -/
def Ensures (program : ExceptT ε (StateM σ) α) (before : σ) (post : α → σ → Prop)
    (fails : ε → σ → Prop) : Prop :=
  match runFrom program before with
  | (.ok a, after) => post a after
  | (.error error, after) => fails error after

namespace Ensures

variable {before after : σ} {post : α → σ → Prop} {fails : ε → σ → Prop}
  {program : ExceptT ε (StateM σ) α} {a : α}

theorem of_returns (h : Ensures program before post fails)
    (hreturns : Returns program before a after) :
    post a after := by
  unfold Ensures at h
  rw [hreturns] at h
  exact h

/-- A program that is known to return need not be looked at once more. -/
theorem of_post (hreturns : Returns program before a after) (hpost : post a after) :
    Ensures program before post fails := by
  unfold Ensures
  rw [hreturns]
  exact hpost

/-- It is enough to look at the runs that end with a result, if errors do not matter. -/
theorem of_forall_returns (h : ∀ a after, Returns program before a after → post a after) :
    Ensures program before post fun _ _ => True := by
  unfold Ensures
  split
  next a after hrun => exact h a after hrun
  next => trivial

/-- A program that cannot fail returns. -/
theorem exists_returns (h : Ensures program before post fun _ _ => False) :
    ∃ a after, Returns program before a after ∧ post a after := by
  unfold Ensures at h
  split at h
  next a after hrun => exact ⟨a, after, hrun, h⟩
  next => exact h.elim

theorem mono {post' : α → σ → Prop} (h : Ensures program before post fails)
    (hpost : ∀ a after, Returns program before a after → post a after → post' a after) :
    Ensures program before post' fails := by
  unfold Ensures at h ⊢
  split
  next a after hrun =>
    rw [hrun] at h
    exact hpost a after hrun h
  next error after hrun =>
    rw [hrun] at h
    exact h

theorem weaken {fails' : ε → σ → Prop} (h : Ensures program before post fails)
    (hfails : ∀ error after, fails error after → fails' error after) :
    Ensures program before post fails' := by
  unfold Ensures at h ⊢
  split
  next a after hrun =>
    rw [hrun] at h
    exact h
  next error after hrun =>
    rw [hrun] at h
    exact hfails error after h

theorem and {post' : α → σ → Prop} {fails' : ε → σ → Prop} (h : Ensures program before post fails)
    (h' : Ensures program before post' fails') :
    Ensures program before (fun a after => post a after ∧ post' a after)
      fun error after => fails error after ∧ fails' error after := by
  unfold Ensures at h h' ⊢
  split
  next a after hrun =>
    rw [hrun] at h h'
    exact ⟨h, h'⟩
  next error after hrun =>
    rw [hrun] at h h'
    exact ⟨h, h'⟩

theorem bind {next : α → ExceptT ε (StateM σ) β} {post' : β → σ → Prop}
    (h : Ensures program before post fails)
    (hnext : ∀ a after, Returns program before a after → post a after →
      Ensures (next a) after post' fails) :
    Ensures (program >>= next) before post' fails := by
  unfold Ensures at h
  rw [Ensures, runFrom_bind]
  rcases hrun : runFrom program before with ⟨error | a, after⟩
  · rw [hrun] at h
    exact h
  · rw [hrun] at h
    exact hnext a after hrun h

@[simp] theorem pure_iff :
    Ensures (pure a : ExceptT ε (StateM σ) α) before post fails ↔ post a before := .rfl

@[simp] theorem throw_iff {error : ε} :
    Ensures (throw error : ExceptT ε (StateM σ) α) before post fails ↔ fails error before := .rfl

@[simp] theorem get_bind_iff {next : σ → ExceptT ε (StateM σ) α} :
    Ensures (get >>= next) before post fails ↔ Ensures (next before) before post fails := .rfl

@[simp] theorem modify_bind_iff {f : σ → σ} {next : PUnit → ExceptT ε (StateM σ) α} :
    Ensures (modify f >>= next) before post fails ↔ Ensures (next ⟨⟩) (f before) post fails := .rfl

@[simp] theorem set_bind_iff {state : σ} {next : PUnit → ExceptT ε (StateM σ) α} :
    Ensures (set state >>= next) before post fails ↔ Ensures (next ⟨⟩) state post fails := .rfl

end Ensures

/-- However the program ends, it keeps what held of the state that it was started in. -/
def Maintains (P : σ → Prop) (program : ExceptT ε (StateM σ) α) : Prop :=
  ∀ before, P before → Ensures program before (fun _ => P) fun _ => P

namespace Maintains

variable {P : σ → Prop} {program : ExceptT ε (StateM σ) α}

theorem holds (h : Maintains P program) {before : σ} (hbefore : P before) :
    P (runFrom program before).2 := by
  have hrun := h before hbefore
  unfold Ensures at hrun
  split at hrun
  next heq =>
    rw [heq]
    exact hrun
  next heq =>
    rw [heq]
    exact hrun

theorem of_returns (h : Maintains P program) {before after : σ} {a : α} (hbefore : P before)
    (hreturns : Returns program before a after) : P after := (h before hbefore).of_returns hreturns

theorem pure (a : α) : Maintains P (pure a : ExceptT ε (StateM σ) α) := fun _ h => h

theorem throw (error : ε) : Maintains P (throw error : ExceptT ε (StateM σ) α) := fun _ h => h

theorem modify {f : σ → σ} (h : ∀ s, P s → P (f s)) :
    Maintains P (modify f : ExceptT ε (StateM σ) PUnit) := h

theorem bind {next : α → ExceptT ε (StateM σ) β} (h : Maintains P program)
    (hnext : ∀ a, Maintains P (next a)) :
    Maintains P (program >>= next) :=
  fun before hbefore => (h before hbefore).bind fun a after _ hafter => hnext a after hafter

theorem get_bind {next : σ → ExceptT ε (StateM σ) α} (h : ∀ s, Maintains P (next s)) :
    Maintains P (get >>= next) :=
  fun before hbefore => h before before hbefore

theorem ite {condition : Prop} [Decidable condition] {yes no : ExceptT ε (StateM σ) α}
    (hyes : Maintains P yes) (hno : Maintains P no) :
    Maintains P (if condition then yes else no) := by
  split
  · exact hyes
  · exact hno

end Maintains

end DialectIR
