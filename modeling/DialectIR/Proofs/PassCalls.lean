import DialectIR.Proofs.Orderly

/-! The calls of passes. While passes are added to a manager and the manager is run, a log tells in
which order its passes get ready and are run. A pass is run only if it is ready, with the dialects
of all passes loaded; it gets ready again whenever another pass was added, or could not get
ready. -/

namespace DialectIR

variable {σ α : Type}

/-- Every entry of a log has the given property, seen from the entries before it. Those of `earlier`
come first. -/
def Throughout (P : List α → α → Prop) : List α → List α → Prop
  | _, [] => True
  | earlier, entry :: later => P earlier entry ∧ Throughout P (earlier ++ [entry]) later

section

variable {P : List α → α → Prop} {earlier log more : List α} {entry : α}

theorem throughout_append :
    Throughout P earlier (log ++ more) ↔ Throughout P earlier log
      ∧ Throughout P (earlier ++ log) more := by
  induction log generalizing earlier with
  | nil => rw [List.nil_append, List.append_nil, Throughout, true_and]
  | cons entry log ih =>
      rw [List.cons_append, Throughout, Throughout, ih, List.append_assoc,
        List.singleton_append, and_assoc]

theorem Throughout.holds (h : Throughout P earlier (log ++ entry :: more)) :
    P (earlier ++ log) entry :=
  (throughout_append.1 h).2.1

/-- What does not depend on the log itself. -/
theorem throughout_of_forall_mem
    (h : ∀ before, before ⊆ log → ∀ entry ∈ log, P (earlier ++ before) entry) :
    Throughout P earlier log := by
  induction log generalizing earlier with
  | nil => trivial
  | cons entry log ih =>
      refine ⟨?_, ih fun before hbefore other hother => ?_⟩
      · have hfirst := h [] (List.nil_subset _) entry List.mem_cons_self
        rwa [List.append_nil] at hfirst
      · rw [List.append_assoc, List.singleton_append]
        exact h (entry :: before) (List.cons_subset_cons entry hbefore) other
          (List.mem_cons_of_mem _ hother)

end

namespace Context

variable {context other : Context} {dialect : Dialect}

/-- The dialect is available in the context, and it is loaded. -/
structure Provides (context : Context) (dialect : Dialect) : Prop where
  registered : context.registry.get? dialect.name = some dialect
  loaded : (context.loaded? dialect.name).isSome

theorem Provides.of_grows (h : context.Provides dialect) (hgrows : context.Grows other) :
    other.Provides dialect where
  registered := hgrows.registry h.registered
  loaded := by
    obtain ⟨found, hfound⟩ := Option.isSome_iff_exists.1 h.loaded
    rw [hgrows.loaded hfound]
    rfl

theorem met_loadEach {name : String} {names : List String} (h : name ∈ names) :
    (context.loadEach names).Met name := by
  induction names generalizing context with
  | nil => cases h
  | cons first names ih =>
      rcases List.mem_cons.1 h with rfl | h
      · exact (show (context.load name).Loads ((context.load name).loadEach names)
          from ⟨names, rfl⟩).met (met_load context name)
      · exact ih h

theorem provides_loadEach {names : List String} (hname : dialect.name ∈ names)
    (h : context.registry.get? dialect.name = some dialect) :
    (context.loadEach names).Provides dialect := by
  have hregistered : (context.loadEach names).registry.get? dialect.name = some dialect := by
    rw [(show context.Loads (context.loadEach names) from ⟨names, rfl⟩).registry]
    exact h
  exact ⟨hregistered, (met_loadEach hname).resolve_right fun hnone =>
    nomatch hnone.symm.trans hregistered⟩

/-- All dialects that the passes depend on are provided. -/
def Equips (context : Context) (passes : List (Pass σ)) : Prop :=
  ∀ pass ∈ passes, ∀ dialect ∈ pass.dependencies, context.Provides dialect

theorem Equips.of_uses {passes : List (Pass σ)} (h : context.Equips passes)
    (huses : context.Uses other) : other.Equips passes :=
  fun pass hpass dialect hdialect => (h pass hpass dialect hdialect).of_grows huses.grows

end Context

namespace PassManager

variable {passes : List (Pass σ)} {space space' : Workspace σ}

/-- Behind a conflict no pass gets ready. -/
theorem equips_of_loadDependencies {u : Unit}
    (h : Returns (loadDependencies passes) space u space') :
    space'.context.Equips passes := by
  intro pass hpass dialect hdialect
  have hneeds : dialect ∈ passes.flatMap (·.dependencies) :=
    List.mem_flatMap.2 ⟨pass, hpass, hdialect⟩
  unfold loadDependencies at h
  have hneeded : (Registry.empty.insertAll (passes.flatMap (·.dependencies))).2 = none →
      (Registry.empty.insertAll (passes.flatMap (·.dependencies))).1.Holds
        (passes.flatMap (·.dependencies)) :=
    Registry.holds_insertAll
  generalize Registry.empty.insertAll (passes.flatMap (·.dependencies)) = outcome at h hneeded
  obtain ⟨needed, conflict?⟩ := outcome
  cases conflict? with
  | some found => exact absurd h Returns.throw_iff
  | none =>
      have hentry := Dict.mem_of_get? (hneeded rfl dialect hneeds)
      dsimp only at h
      rw [Returns.get_bind_iff] at h
      have hheld : (space.context.append needed).2 = none →
        (space.context.append needed).1.registry.Holds needed.dialects :=
        Registry.holds_insertAll
      generalize space.context.append needed = outcome at h hheld
      obtain ⟨appended, conflict?⟩ := outcome
      rw [Returns.set_bind_iff] at h
      cases conflict? with
      | some found => exact absurd h Returns.throw_iff
      | none =>
          rw [Returns.set_iff.1 h]
          exact Context.provides_loadEach (List.mem_map_of_mem hentry)
            (hheld rfl dialect (List.mem_map_of_mem hentry))

/-- What happens to the passes of a manager. They are known by their numbers, in the order in which
they were added. -/
inductive Call (σ : Type) where
  | add (pass : Pass σ)
  /-- A pass gets ready, if it does not fail. -/
  | prepare (index : Nat) (succeeds : Bool)
  /-- A pass is run in a context. -/
  | run (index : Nat) (context : Context)

/-- The calls by which passes get ready, up to the first that fails. -/
def prepareCalls : Nat → List (Pass σ) → Workspace σ → List (Call σ)
  | _, [], _ => []
  | index, pass :: rest, space =>
      match runFrom (preparePass pass) space with
      | (.error _, _) => [.prepare index false]
      | (.ok _, space) => .prepare index true :: prepareCalls (index + 1) rest space

/-- The calls by which passes are run, up to the first that fails. -/
def runCalls (printing : Bool) : Nat → List (ReadyPass σ) → Operation → Workspace σ → List (Call σ)
  | _, [], _, _ => []
  | index, ready :: rest, op, space =>
      .run index (announced printing ready op space).context ::
        match runFrom (runPass printing ready op) space with
        | (.error _, _) => []
        | (.ok (_, op), space) => runCalls printing (index + 1) rest op space

/-- The calls of passes in a run of the manager. -/
def calls (manager : PassManager σ) (op : Operation) (space : Workspace σ) : List (Call σ) :=
  match manager.ready with
  | some readied => runCalls manager.printing 0 readied op space
  | none =>
      match runFrom (loadDependencies manager.passes) space with
      | (.error _, _) => []
      | (.ok _, loaded) =>
          prepareCalls 0 manager.passes loaded ++
            match runFrom (prepareAll manager.passes) loaded with
            | (.error _, _) => []
            | (.ok readied, prepared) => runCalls manager.printing 0 readied op prepared

/-- The courses that a run can take, with what it leaves and the calls in it. -/
inductive Course (manager : PassManager σ) (op : Operation) (space : Workspace σ) :
    Transformed σ × PassManager σ → List (Call σ) → Prop
  | ready {readied : List (ReadyPass σ)} (hready : manager.ready = some readied) :
      Course manager op space (runReady manager.printing readied false op space, manager)
        (runCalls manager.printing 0 readied op space)
  | conflict {error : Error} {left : Workspace σ} (hready : manager.ready = none)
      (hload : runFrom (loadDependencies manager.passes) space = (.error error, left)) :
      Course manager op space (⟨.error error, op, left⟩, manager) []
  | unprepared {loaded left : Workspace σ} {error : Error} (hready : manager.ready = none)
      (hload : Returns (loadDependencies manager.passes) space ⟨⟩ loaded)
      (hprepare : runFrom (prepareAll manager.passes) loaded = (.error error, left)) :
      Course manager op space (⟨.error error, op, left⟩, manager)
        (prepareCalls 0 manager.passes loaded)
  | prepared {loaded prepared : Workspace σ} {readied : List (ReadyPass σ)}
      (hready : manager.ready = none)
      (hload : Returns (loadDependencies manager.passes) space ⟨⟩ loaded)
      (hprepare : Returns (prepareAll manager.passes) loaded readied prepared) :
      Course manager op space
        (runReady manager.printing readied false op prepared,
          { manager with ready := some readied })
        (prepareCalls 0 manager.passes loaded ++ runCalls manager.printing 0 readied op prepared)

theorem course_run (manager : PassManager σ) (op : Operation) (space : Workspace σ) :
    Course manager op space (manager.run op space) (manager.calls op space) := by
  have hprepare : manager.prepare.run.run space = _ :=
    runFrom_bind (loadDependencies manager.passes) (fun _ => prepareAll manager.passes) space
  unfold PassManager.run calls
  cases hready : manager.ready with
  | some readied => exact .ready hready
  | none =>
      dsimp only
      rw [hprepare]
      rcases hload : runFrom (loadDependencies manager.passes) space with ⟨error | u, loaded⟩
      · exact .conflict hready hload
      · dsimp only
        rcases hprepared : runFrom (prepareAll manager.passes)
          loaded with ⟨error | readied, prepared⟩
        · rw [List.append_nil]
          exact .unprepared hready hload hprepared
        · exact .prepared hready hload hprepared

/-- A manager, the workspace of its runs, and the calls so far. -/
structure Session (σ : Type) where
  manager : PassManager σ
  space : Workspace σ
  calls : List (Call σ) := []

/-- What can happen in a session. -/
inductive Action (σ : Type) where
  | add (pass : Pass σ)
  | run (op : Operation)
  /-- The context is used for something else. -/
  | use (use : Context.Use)

namespace Session

/-- A session with a new manager. -/
def start (printing : Bool) (space : Workspace σ) : Session σ := { manager := { printing }, space }

def perform (session : Session σ) : Action σ → Session σ
  | .add pass =>
    { session with manager := session.manager.add pass, calls := session.calls ++ [.add pass] }
  | .run op =>
      let left := session.manager.run op session.space
      { manager := left.2, space := left.1.space,
        calls := session.calls ++ session.manager.calls op session.space }
  | .use use =>
      { session with space := { session.space with context := session.space.context.use use } }

def performAll (session : Session σ) (actions : List (Action σ)) : Session σ :=
  actions.foldl perform session

/-- Actions lead from a session to another: every run is that of the manager, and the log goes on
with the calls in a course that the run takes. -/
inductive LeadsTo : Session σ → List (Action σ) → Session σ → Prop
  | nothing {session : Session σ} : LeadsTo session [] session
  | add {session last : Session σ} {pass : Pass σ} {actions : List (Action σ)}
      (later : LeadsTo { session with
        manager := session.manager.add pass, calls := session.calls ++ [.add pass] } actions last) :
      LeadsTo session (.add pass :: actions) last
  | use {session last : Session σ} {use : Context.Use} {actions : List (Action σ)}
      (later : LeadsTo { session with
        space := { session.space with context := session.space.context.use use } } actions last) :
      LeadsTo session (.use use :: actions) last
  | run {session last : Session σ} {op : Operation} {actions : List (Action σ)}
      {left : Transformed σ} {manager : PassManager σ}
      {calls : List (Call σ)} (result : session.manager.run op session.space = (left, manager))
      (course : Course session.manager op session.space (left, manager) calls)
      (later : LeadsTo { manager, space := left.space, calls := session.calls ++ calls } actions last) :
      LeadsTo session (.run op :: actions) last

theorem leadsTo_performAll (session : Session σ) (actions : List (Action σ)) :
    session.LeadsTo actions (session.performAll actions) := by
  induction actions generalizing session with
  | nil => exact .nothing
  | cons action actions ih =>
      cases action with
      | add pass => exact .add (ih _)
      | use use => exact .use (ih _)
      | run op => exact .run rfl (course_run session.manager op session.space) (ih _)

end Session

/-! ### Getting ready -/

/-- Behind such a call no pass counts as ready. -/
def Call.Disrupts : Call σ → Prop
  | .add _ => True
  | .prepare _ succeeds => succeeds = false
  | .run _ _ => False

/-- The pass got ready, and it still counts as ready. -/
def Fresh (index : Nat) (calls : List (Call σ)) : Prop :=
  ∃ earlier since, calls = earlier ++ .prepare index true :: since ∧ ∀ call ∈ since, ¬ call.Disrupts

/-- A pass that is run is ready, and a pass that gets ready is not. -/
def Call.Due : List (Call σ) → Call σ → Prop
  | _, .add _ => True
  | calls, .prepare index _ => ¬ Fresh index calls
  | calls, .run index _ => Fresh index calls

section

variable {calls : List (Call σ)} {call : Call σ} {index other count : Nat}

theorem fresh_snoc :
    Fresh index (calls ++ [call]) ↔ call = .prepare index true ∨ Fresh index calls
      ∧ ¬ call.Disrupts := by
  constructor
  · rintro ⟨earlier, since, heq, hsince⟩
    rcases List.eq_nil_or_concat since with rfl | ⟨since, last, rfl⟩
    · exact .inl (List.singleton_inj.1 (List.append_inj' heq rfl).2)
    · rw [List.concat_eq_append, ← List.cons_append, ← List.append_assoc] at heq
      obtain ⟨hcalls, hlast⟩ := List.append_inj' heq rfl
      cases List.singleton_inj.1 hlast
      rw [List.concat_eq_append, List.forall_mem_append, List.forall_mem_singleton] at hsince
      exact .inr ⟨⟨earlier, since, hcalls, hsince.1⟩, hsince.2⟩
  · rintro (rfl | ⟨⟨earlier, since, rfl, hsince⟩, hcall⟩)
    · exact ⟨calls, [], rfl, nofun⟩
    · refine ⟨earlier, since ++ [call], by rw [List.append_assoc, List.cons_append], ?_⟩
      exact List.forall_mem_append.2 ⟨hsince, List.forall_mem_singleton.2 hcall⟩

theorem fresh_snoc_prepare (hfresh : ∀ other, Fresh other calls ↔ other < index) (other : Nat) :
    Fresh other (calls ++ [.prepare index true]) ↔ other < index + 1 := by
  rw [fresh_snoc, hfresh, Call.prepare.injEq, Nat.lt_succ_iff_lt_or_eq]
  simp [Call.Disrupts, eq_comm, or_comm]

theorem not_fresh_snoc (hcall : call.Disrupts) (index : Nat) : ¬ Fresh index (calls ++ [call]) := by
  rw [fresh_snoc]
  rintro (rfl | ⟨-, h⟩)
  · cases hcall
  · exact h hcall

theorem fresh_snoc_run (other : Nat) (context : Context) :
    Fresh index (calls ++ [.run other context]) ↔ Fresh index calls := by
  simp [fresh_snoc, Call.Disrupts]

/-- Passes that get ready in their order are not ready before, and all of them are if none fails. -/
theorem due_prepareCalls (hfresh : ∀ other, Fresh other calls ↔ other < index)
    (passes : List (Pass σ)) (space : Workspace σ) :
    Throughout Call.Due calls (prepareCalls index passes space)
      ∧ Ensures (prepareAll passes) space
        (fun readied _ => ∀ other, Fresh other (calls ++ prepareCalls index passes space)
          ↔ other < index + readied.length)
        fun _ _ => ∀ other, ¬ Fresh other (calls ++ prepareCalls index passes space) := by
  induction passes generalizing calls index space with
  | nil => exact ⟨trivial, by rw [prepareCalls, List.append_nil]; exact hfresh⟩
  | cons pass passes ih =>
      have hstale : ¬ Fresh index calls := fun h => Nat.lt_irrefl _ ((hfresh index).1 h)
      unfold Ensures
      rw [prepareAll, prepareCalls, runFrom_bind]
      rcases runFrom (preparePass pass) space with ⟨error | ready, space'⟩
      · exact ⟨⟨hstale, trivial⟩, not_fresh_snoc rfl⟩
      · obtain ⟨hdue, hready⟩ := ih (fresh_snoc_prepare hfresh) space'
        refine ⟨⟨hstale, hdue⟩, ?_⟩
        rw [List.append_assoc, List.singleton_append] at hready
        refine Ensures.bind hready fun readied _ _ h other => ?_
        rw [h other, List.length_cons, Nat.add_right_comm, Nat.add_assoc]

/-- Passes that are run in their order are ready, and they stay so. -/
theorem due_runCalls (hfresh : ∀ other, Fresh other calls ↔ other < count) (printing : Bool)
    {readied : List (ReadyPass σ)} (hcount : index + readied.length ≤ count) (op : Operation)
    (space : Workspace σ) :
    Throughout Call.Due calls (runCalls printing index readied op space)
      ∧ ∀ other, Fresh other (calls ++ runCalls printing index readied op space)
        ↔ other < count := by
  induction readied generalizing calls index op space with
  | nil => exact ⟨trivial, by rw [runCalls, List.append_nil]; exact hfresh⟩
  | cons ready readied ih =>
      rw [List.length_cons] at hcount
      have hready : Fresh index calls := (hfresh index).2 (by omega)
      have hrun (other : Nat) :=
        (fresh_snoc_run index (announced printing ready op space).context).trans (hfresh other)
      rw [runCalls]
      rcases runFrom (runPass printing ready op) space with ⟨error | ⟨changed, op'⟩, space'⟩
      · exact ⟨⟨hready, trivial⟩, hrun⟩
      · obtain ⟨hdue, hfresh'⟩ :=
          ih hrun (show index + 1 + readied.length ≤ count by omega) op' space'
        refine ⟨⟨hready, hdue⟩, ?_⟩
        rw [List.append_assoc, List.singleton_append] at hfresh'
        exact hfresh'

end

namespace Session

/-- As many passes are ready as the manager holds ready, and every call so far was due. -/
structure Tended (session : Session σ) : Prop where
  fresh : ∀ index, Fresh index session.calls ↔ index < (session.manager.ready.getD []).length
  due : Throughout Call.Due [] session.calls

variable {session : Session σ}

theorem Tended.of_course (h : session.Tended) {op : Operation}
    {left : Transformed σ × PassManager σ} {calls : List (Call σ)}
    (hcourse : Course session.manager op session.space left calls) :
    Tended { manager := left.2, space := left.1.space, calls := session.calls ++ calls } := by
  have hfresh := h.fresh
  cases hcourse with
  | ready hready =>
      rw [hready] at hfresh
      obtain ⟨hdue, hstays⟩ := due_runCalls hfresh session.manager.printing
        (Nat.le_of_eq (Nat.zero_add _)) op session.space
      refine ⟨?_, throughout_append.2 ⟨h.due, hdue⟩⟩
      dsimp only
      rw [hready]
      exact hstays
  | conflict hready hload =>
      rw [List.append_nil]
      exact ⟨hfresh, h.due⟩
  | @unprepared loaded left error hready hload hprepare =>
      rw [hready, Option.getD_none, List.length_nil] at hfresh
      obtain ⟨hdue, hprepared⟩ := due_prepareCalls hfresh session.manager.passes loaded
      unfold Ensures at hprepared
      rw [hprepare] at hprepared
      refine ⟨fun index => iff_of_false (hprepared index) ?_, throughout_append.2 ⟨h.due, hdue⟩⟩
      rw [hready]
      exact Nat.not_lt_zero index
  | @prepared loaded prepared readied hready hload hprepare =>
      rw [hready, Option.getD_none, List.length_nil] at hfresh
      obtain ⟨hdue, hprepared⟩ := due_prepareCalls hfresh session.manager.passes loaded
      have hnow := hprepared.of_returns hprepare
      obtain ⟨hdue', hstays⟩ := due_runCalls hnow session.manager.printing
        (Nat.le_refl _) op prepared
      rw [List.append_assoc] at hstays
      refine ⟨fun index => (hstays index).trans (by rw [Nat.zero_add]; rfl),
        throughout_append.2 ⟨h.due, ?_⟩⟩
      exact throughout_append.2 ⟨hdue, hdue'⟩

theorem Tended.perform (h : session.Tended) (action : Action σ) :
    (session.perform action).Tended := by
  cases action with
  | add pass =>
      have hadd : (Call.add pass).Disrupts := trivial
      refine ⟨fun index => iff_of_false (not_fresh_snoc hadd index) (Nat.not_lt_zero _), ?_⟩
      exact throughout_append.2 ⟨h.due, trivial, trivial⟩
  | use use => exact ⟨h.fresh, h.due⟩
  | run op => exact h.of_course (course_run session.manager op session.space)

theorem tended_start (printing : Bool) (space : Workspace σ) : (start printing space).Tended := by
  refine ⟨fun index => iff_of_false ?_ (Nat.not_lt_zero index), trivial⟩
  rintro ⟨earlier, since, heq, -⟩
  exact absurd heq (List.append_ne_nil_of_right_ne_nil earlier (List.cons_ne_nil _ since)).symm

theorem Tended.performAll (h : session.Tended) (actions : List (Action σ)) :
    (session.performAll actions).Tended := by
  induction actions generalizing session with
  | nil => exact h
  | cons action actions ih => exact ih (h.perform action)

/-- **Passes get ready before they are run.** Whatever is done with a manager, and whichever runs
fail: a pass that is run got ready before, and since then no pass was added and none failed to get
ready. A pass that got ready does so once more only behind such a disruption. -/
theorem fresh_of_run (printing : Bool) (space : Workspace σ) (actions : List (Action σ)) :
    let last := (start printing space).performAll actions
    (start printing space).LeadsTo actions last
      ∧ (∀ earlier index context later, last.calls = earlier ++ .run index context :: later →
        Fresh index earlier)
      ∧ ∀ earlier index since succeeds later,
        last.calls = earlier ++ .prepare index true :: (since ++ .prepare index succeeds :: later) →
          ∃ call ∈ since, call.Disrupts := by
  have hdue := ((tended_start printing space).performAll actions).due
  refine ⟨leadsTo_performAll _ actions, fun earlier index context later heq => ?_,
    fun earlier index since succeeds later heq => ?_⟩
  · rw [heq] at hdue
    exact hdue.holds
  · rw [heq, ← List.cons_append, ← List.append_assoc] at hdue
    have hstale : ¬ Fresh index (earlier ++ .prepare index true :: since) := hdue.holds
    by_contra hnone
    exact hstale ⟨earlier, since, rfl, fun call hcall hdisrupts => hnone ⟨call, hcall, hdisrupts⟩⟩

/-- A second pass is added behind the first run. -/
def addedBetween : List (Action Unit) :=
  [.add (.idle "first" ""), .run (.module []), .add (.idle "second" ""), .run (.module [])]

theorem calls_addedBetween : ∃ before behind last,
    ((start false ⟨.ofRegistry .standard, ()⟩).performAll addedBetween).calls =
      [.add (.idle "first" ""), .prepare 0 true, .run 0 before, .add (.idle "second" ""),
        .prepare 0 true, .prepare 1 true, .run 0 behind, .run 1 last] := ⟨_, _, _, rfl⟩

/-- Before the second pass is run it got ready; and the first got ready once more because the second
was added. -/
theorem fresh_of_run_addedBetween :
    let calls := ((start false ⟨.ofRegistry .standard, ()⟩).performAll addedBetween).calls
    (∃ (ready : List (Call Unit)) (context : Context), calls = ready ++ [.run 1 context]
      ∧ Fresh 1 ready)
      ∧ ∃ (first : Call Unit) (since later : List (Call Unit)),
        calls = first :: .prepare 0 true :: (since ++ .prepare 0 true :: later)
          ∧ ∃ call ∈ since, call.Disrupts := by
  obtain ⟨before, behind, last, hcalls⟩ := calls_addedBetween
  obtain ⟨-, hrun, hprepare⟩ := fresh_of_run false ⟨.ofRegistry .standard, ()⟩ addedBetween
  have hready := hrun [.add (.idle "first" ""), .prepare 0 true, .run 0 before,
    .add (.idle "second" ""), .prepare 0 true, .prepare 1 true, .run 0 behind] 1 last [] hcalls
  have hagain := hprepare [.add (.idle "first" "")] 0 [.run 0 before, .add (.idle "second" "")] true
    [.prepare 1 true, .run 0 behind, .run 1 last] hcalls
  exact ⟨⟨_, last, hcalls, hready⟩, _, _, _, hcalls, hagain⟩

/-- A pass gets ready twice if another pass is added after the first run. -/
theorem exists_prepared_twice :
    ∃ (actions : List (Action Unit)) (earlier since later : List (Call Unit)),
    ((start false ⟨.ofRegistry .standard, ()⟩).performAll actions).calls
      = earlier ++ .prepare 0 true :: (since ++ .prepare 0 true :: later) := by
  obtain ⟨before, behind, last, hcalls⟩ := calls_addedBetween
  exact ⟨addedBetween, [.add (.idle "first" "")], [.run 0 before, .add (.idle "second" "")],
    [.prepare 1 true, .run 0 behind, .run 1 last], hcalls⟩

end Session

/-! ### Dialects of passes that are run -/

/-- A call in a run of a manager that has the passes: where one of them is run, all are equipped. -/
def Call.Serves (start : Context) (passes : List (Pass σ)) : Call σ → Prop
  | .add _ => False
  | .prepare _ _ => True
  | .run _ context => start.Uses context ∧ context.Equips passes

/-- Where a pass is run, the dialects of all passes are provided that were added before. -/
def Call.Supplied (start : Context) (calls : List (Call σ)) : Call σ → Prop
  | .run _ context => start.Uses context ∧ ∀ pass, .add pass ∈ calls →
    ∀ dialect ∈ pass.dependencies, context.Provides dialect
  | _ => True

section

variable {start : Context} {readied : List (ReadyPass σ)} {earlier calls : List (Call σ)}

theorem serves_prepareCalls (index : Nat) (readying passes : List (Pass σ)) (space : Workspace σ) :
    ∀ call ∈ prepareCalls index readying space, call.Serves start passes := by
  induction readying generalizing index space with
  | nil => exact nofun
  | cons pass readying ih =>
      rw [prepareCalls]
      split
      · exact List.forall_mem_singleton.2 trivial
      · exact List.forall_mem_cons.2 ⟨trivial, ih _ _⟩

/-- Orderly passes take nothing away from those that are run after them. -/
theorem serves_runCalls (horderly : ∀ ready ∈ readied, ready.pass.Orderly) (printing : Bool)
    (index : Nat) (op : Operation) (hspace : start.Uses space.context)
    (hequips : space.context.Equips passes) :
    ∀ call ∈ runCalls printing index readied op space, call.Serves start passes := by
  induction readied generalizing index op space with
  | nil => exact nofun
  | cons ready readied ih =>
      obtain ⟨hready, hrest⟩ := List.forall_mem_cons.1 horderly
      have hannounced := (loads_announced printing ready op space).uses
      have hcall : (Call.run (σ := σ) index (announced printing ready op space).context).Serves
        start passes :=
        ⟨hspace.trans hannounced, hequips.of_uses hannounced⟩
      have hran : space.context.Uses (runFrom (runPass printing ready op) space).2.context :=
        (maintains_runPass hready printing op).holds (Context.Uses.refl _)
      rw [runCalls]
      refine List.forall_mem_cons.2 ⟨hcall, ?_⟩
      generalize runFrom (runPass printing ready op) space = outcome at hran
      obtain ⟨error | ⟨changed, op'⟩, space'⟩ := outcome
      · exact nofun
      · exact ih hrest _ _ (hspace.trans hran) (hequips.of_uses hran)

/-- A run adds no passes, so that all passes that were added are those of the manager. -/
theorem supplied_of_serves (hadded : ∀ pass, .add pass ∈ earlier → pass ∈ passes)
    (h : ∀ call ∈ calls, call.Serves start passes) :
    Throughout (Call.Supplied start) earlier calls ∧ ∀ pass, .add pass ∈ earlier ++ calls →
      pass ∈ passes := by
  have hall (before : List (Call σ)) (hbefore : before ⊆ calls) (pass : Pass σ)
    (hpass : .add pass ∈ earlier ++ before) : pass ∈ passes := by
    rcases List.mem_append.1 hpass with hpass | hpass
    · exact hadded pass hpass
    · exact (h _ (hbefore hpass)).elim
  refine ⟨throughout_of_forall_mem fun before hbefore call hcall => ?_,
    hall calls (List.Subset.refl _)⟩
  cases call with
  | add pass => trivial
  | prepare index succeeds => trivial
  | run index context =>
      obtain ⟨huses, hequips⟩ := h _ hcall
      exact ⟨huses, fun pass hpass => hequips pass (hall before hbefore pass hpass)⟩

end

namespace Session

variable {start : Context} {session : Session σ}

/-- The context is only used, and the passes are equipped once they are ready. -/
structure Equipped (start : Context) (session : Session σ) : Prop where
  orderly : session.manager.Orderly
  uses : start.Uses session.space.context
  added : ∀ pass, .add pass ∈ session.calls → pass ∈ session.manager.passes
  equips : session.manager.ready ≠ none → session.space.context.Equips session.manager.passes
  supplied : Throughout (Call.Supplied start) [] session.calls

theorem Equipped.of_course (h : session.Equipped start) {op : Operation}
    {left : Transformed σ × PassManager σ} {calls : List (Call σ)}
    (huses : session.space.context.Uses left.1.space.context) (horderly : left.2.Orderly)
    (hcourse : Course session.manager op session.space left calls) :
    Equipped start { manager := left.2, space := left.1.space,
                     calls := session.calls ++ calls } := by
  have hafter := h.uses.trans huses
  cases hcourse with
  | ready hready =>
      have hequips := h.equips (by rw [hready]; exact Option.some_ne_none _)
      obtain ⟨hsupplied, hadded⟩ := supplied_of_serves h.added
        (serves_runCalls (h.orderly.ready hready) session.manager.printing 0 op h.uses hequips)
      exact ⟨horderly, hafter, hadded, fun _ => hequips.of_uses huses,
        throughout_append.2 ⟨h.supplied, hsupplied⟩⟩
  | conflict hready hload =>
      rw [List.append_nil]
      exact ⟨horderly, hafter, h.added, fun hsome => absurd hready hsome, h.supplied⟩
  | unprepared hready hload hprepare =>
      obtain ⟨hsupplied, hadded⟩ := supplied_of_serves h.added (serves_prepareCalls 0 _ _ _)
      exact ⟨horderly, hafter, hadded, fun hsome => absurd hready hsome,
        throughout_append.2 ⟨h.supplied, hsupplied⟩⟩
  | @prepared loaded prepared readied hready hload hprepare =>
      have hloaded : session.space.context.Uses loaded.context :=
        (maintains_loadDependencies _ session.space (Context.Uses.refl _)).of_returns hload
      have hprepared : loaded.context.Uses prepared.context :=
        (maintains_prepareAll h.orderly.passes loaded (Context.Uses.refl _)).of_returns hprepare
      have hequips : prepared.context.Equips session.manager.passes :=
        (equips_of_loadDependencies hload).of_uses hprepared
      have hreadied : ∀ ready ∈ readied, ready.pass.Orderly := horderly.ready rfl
      have hran : prepared.context.Uses
        (runReady session.manager.printing readied false op prepared).space.context :=
        uses_runReady hreadied _ _ op (Context.Uses.refl _)
      have hserves : ∀ call ∈ prepareCalls 0 session.manager.passes loaded
        ++ runCalls session.manager.printing 0 readied op prepared,
          call.Serves start session.manager.passes :=
            List.forall_mem_append.2 ⟨serves_prepareCalls 0 _ _ _,
        serves_runCalls hreadied session.manager.printing 0 op
          ((h.uses.trans hloaded).trans hprepared) hequips⟩
      obtain ⟨hsupplied, hadded⟩ := supplied_of_serves h.added hserves
      exact ⟨horderly, hafter, hadded, fun _ => hequips.of_uses hran,
        throughout_append.2 ⟨h.supplied, hsupplied⟩⟩

theorem Equipped.perform (h : session.Equipped start) {action : Action σ}
    (haction : ∀ pass, action = .add pass → pass.Orderly) :
    (session.perform action).Equipped start := by
  cases action with
  | add pass =>
      refine ⟨h.orderly.add (haction pass rfl), h.uses, fun added hadded => ?_,
        fun hsome => absurd rfl hsome, ?_⟩
      · rcases List.mem_append.1 hadded with hadded | hadded
        · exact List.mem_append_left _ (h.added added hadded)
        · cases List.mem_singleton.1 hadded
          exact List.mem_append_right _ (List.mem_singleton_self pass)
      · exact throughout_append.2 ⟨h.supplied, trivial, trivial⟩
  | use use =>
      have huses : session.space.context.Uses (session.space.context.use use) :=
        (Context.Uses.refl _).use use
      exact ⟨h.orderly, h.uses.trans huses, h.added, fun hsome =>
        (h.equips hsome).of_uses huses, h.supplied⟩
  | run op =>
      obtain ⟨huses, horderly⟩ := h.orderly.run op session.space
      exact h.of_course huses horderly (course_run session.manager op session.space)

theorem Equipped.performAll (h : session.Equipped start) {actions : List (Action σ)}
    (hactions : ∀ pass, .add pass ∈ actions → pass.Orderly) :
    (session.performAll actions).Equipped start := by
  induction actions generalizing session with
  | nil => exact h
  | cons action actions ih =>
      have hnext := h.perform fun pass heq => hactions pass (heq ▸ List.mem_cons_self)
      exact ih hnext fun pass hpass => hactions pass (List.mem_cons_of_mem _ hpass)

theorem equipped_start (printing : Bool) (space : Workspace σ) :
    (Session.start printing space).Equipped space.context :=
  ⟨⟨nofun, nofun⟩, .refl _, nofun, fun hsome => absurd rfl hsome, trivial⟩

/-- **A pass never runs without its dialects.** Whatever is done with a manager of orderly passes,
and whichever runs fail: where a pass is run, each dialect that any pass of the manager depends on
is registered and loaded; and it is that dialect which is loaded, if what was loaded in the
beginning was what was registered. -/
theorem provides_of_run {actions : List (Action σ)}
    (hactions : ∀ pass, .add pass ∈ actions → pass.Orderly) (printing : Bool)
    (space : Workspace σ) :
    let last := (Session.start printing space).performAll actions
    (Session.start printing space).LeadsTo actions last
      ∧ ∀ earlier index context later, last.calls = earlier ++ .run index context :: later →
        ∀ pass, .add pass ∈ earlier → ∀ dialect ∈ pass.dependencies,
          context.registry.get? dialect.name = some dialect
          ∧ ∃ loaded, context.loaded? dialect.name = some loaded
          ∧ (space.context.Sound → loaded.dialect = dialect) := by
  have hsupplied := ((equipped_start printing space).performAll hactions).supplied
  refine ⟨leadsTo_performAll _ actions,
    fun earlier index context later heq pass hpass dialect hdialect => ?_⟩
  rw [heq] at hsupplied
  obtain ⟨huses, hprovided⟩ : space.context.Uses context ∧ _ := hsupplied.holds
  obtain ⟨hregistered, hloaded⟩ := hprovided pass hpass dialect hdialect
  obtain ⟨loaded, hloaded⟩ := Option.isSome_iff_exists.1 hloaded
  refine ⟨hregistered, loaded, hloaded, fun hsound => ?_⟩
  exact Option.some.inj (((huses.sound hsound).registered hloaded).symm.trans hregistered)

/-- A pass that needs a dialect is added behind the first run of another. In the second run, the
dialect is there for both. -/
theorem provides_of_run_added :
    let other : Pass Unit := .idle "other" ""
    let needy : Pass Unit := { Pass.idle "needy" "" with dependencies := [.llvm] }
    let fresh := Context.ofRegistry (Registry.empty.insertAll [.builtin, .arith]).1
    let actions : List (Action Unit) :=
      [.add other, .run (.module []), .add needy, .run (.module [])]
    ∃ (earlier later : List (Call Unit)) (context : Context),
      (((Session.start false ⟨fresh, ()⟩).performAll actions).calls
        = earlier ++ .run 0 context :: later ∧ .add needy ∈ earlier)
        ∧ fresh.registry.get? "llvm" = none
        ∧ context.registry.get? "llvm" = some .llvm ∧ ∃ loaded, context.loaded? "llvm" = some loaded
        ∧ loaded.dialect = .llvm := by
  intro other needy fresh actions
  let first := fresh.note (.running "other")
  let loaded := (first.append (Registry.empty.insertAll [.llvm]).1).1.load "llvm"
  let second := loaded.note (.running "other")
  have hcalls : ((Session.start false (Workspace.mk fresh ())).performAll actions).calls
      = [.add other, .prepare 0 true, .run 0 first, .add needy, .prepare 0 true, .prepare 1 true]
        ++ .run 0 second :: [.run 1 (second.note (.running "needy"))] := by rfl
  have hneedy : .add needy ∈ [Call.add other, .prepare 0 true, .run 0 first, .add needy,
    .prepare 0 true, .prepare 1 true] := by simp
  have hactions (pass : Pass Unit) (hpass : .add pass ∈ actions) : pass.Orderly := by
    rcases (show pass = other ∨ pass = needy by simpa [actions] using hpass) with rfl | rfl
    · exact Pass.orderly_idle ..
    · exact ⟨fun _ => .pure _, fun _ _ _ => .pure _⟩
  obtain ⟨-, hprovided⟩ := provides_of_run hactions false ⟨fresh, ()⟩
  obtain ⟨hregistered, found, hfound, hsound⟩ :=
    hprovided _ 0 second _ hcalls needy hneedy .llvm List.mem_cons_self
  exact ⟨_, _, second, ⟨hcalls, hneedy⟩, by decide +kernel, hregistered, found, hfound,
    hsound (Context.sound_ofRegistry _)⟩

end Session

end PassManager

end DialectIR
