import DialectIR.Proofs.Attempts
import DialectIR.Proofs.Lockstep
import Mathlib.Data.List.Flatten

/-! The changes that a pattern asks for, and what is recorded when some of them are refused. A
change that is refused records nothing, but for one kind: a replacement by a new operation inserts
that operation first, and the insertion stays when the replacement is refused. -/

namespace DialectIR

variable {σ α : Type}

/-- What a pattern may ask for to be changed. -/
inductive Change where
  | create (op : Operation)
  /-- A new value. -/
  | fresh (ty : Ty)
  | replace (values : List Value)
  | replaceWithNew (op : Operation)
  | update (op : Operation)
  | erase

namespace Change

/-- Asks for the change. The answer is the new value, if it is about one. -/
def ask : Change → Attempt σ (Option Value)
  | .create op => do
      Attempt.insert op
      return none
  | .fresh ty => do return some (← Attempt.freshValue ty)
  | .replace values => do
      Attempt.act (.replace values)
      return none
  | .replaceWithNew op => do
      Attempt.replaceWithNew op
      return none
  | .update op => do
      Attempt.act (.update op)
      return none
  | .erase => do
      Attempt.act .erase
      return none

/-- The operations that the change inserts. -/
def inserted : Change → List Operation
  | .create op | .replaceWithNew op => [op]
  | .fresh _ | .replace _ | .update _ | .erase => []

/-- What becomes of the matched operation, if the change is about that. -/
def action? : Change → Option Action
  | .create _ | .fresh _ => none
  | .replace values => some (.replace values)
  | .replaceWithNew op => some (.replace op.results)
  | .update op => some (.update op)
  | .erase => some .erase

end Change

namespace Recording

/-- The recording with all that a change records. -/
def record (recording : Recording) (change : Change) : Recording :=
  ⟨recording.inserted ++ change.inserted, change.action?.or recording.action⟩

/-- The recording with what the change inserts only. -/
def attempted (recording : Recording) (change : Change) : Recording :=
  { recording with inserted := recording.inserted ++ change.inserted }

theorem attempted_eq_iff {recording : Recording} {change : Change} :
    recording.attempted change = recording ↔ change.inserted = [] := by
  refine ⟨fun h => List.append_right_eq_self.1 (congrArg Recording.inserted h), fun h => ?_⟩
  rw [attempted, h, List.append_nil]

/-- Why an action is refused. -/
def refusal? (recording : Recording) (op : Operation) (action : Action) : Option Refusal :=
  (action.mismatch? op).or (if recording.action.isSome
    then some (.alreadyRewritten op.name) else none)

theorem act_eq (recording : Recording) (op : Operation) (action : Action) :
    recording.act op action = match recording.refusal? op action with
      | some refusal => .error refusal
      | none => .ok { recording with action := some action } := by
  unfold act refusal?
  cases action.mismatch? op with
  | some refusal => rfl
  | none =>
      dsimp only [Option.none_or]
      split
      · rfl
      · rfl

theorem record_of_act {recording : Recording} {change : Change} {action : Action}
    (haction : change.action? = some action) :
    recording.record change = { recording.attempted change with action := some action } := by
  rw [record, haction]
  rfl

end Recording

namespace Change

/-- The answer to a change, and the recording that it leaves: a refusal takes back nothing. -/
def Outcome (change : Change) (op : Operation) (before : Recording)
    (answer : Except Error (Option Value)) (after : Recording) : Prop :=
  match change.action?.bind (before.refusal? op) with
  | some refusal => answer = .error (.refused refusal) ∧ after = before.attempted change
  | none => answer.isOk = true ∧ after = before.record change

/-- What asking for a change does. -/
theorem does_ask (change : Change) (site : Site) (draft : Draft σ) :
    change.ask.Does site draft fun answer _ after =>
      change.Outcome site.op draft.recording answer after.recording := by
  have hact {action : Action} {draft' : Draft σ} (haction : change.action? = some action)
      (hdraft : draft'.recording = draft.recording.attempted change) :
      Attempt.Does site (do Attempt.act action; return none) draft' fun answer _ after =>
        change.Outcome site.op draft.recording answer after.recording := by
    have hsame : draft'.recording.refusal? site.op action
      = draft.recording.refusal? site.op action := by
      rw [hdraft]
      rfl
    rw [Attempt.does_bind, Attempt.does_act, Recording.act_eq, hsame]
    unfold Outcome
    rw [haction, Option.bind_some]
    cases draft.recording.refusal? site.op action with
    | some refusal => exact ⟨rfl, hdraft⟩
    | none =>
        rw [Recording.record_of_act haction, ← hdraft]
        exact ⟨rfl, rfl⟩
  have hnothing (hinserted : change.inserted = []) : draft.recording
    = draft.recording.attempted change := by
    rw [Recording.attempted, hinserted, List.append_nil]
  cases change with
  | create op => exact ⟨rfl, rfl⟩
  | fresh ty => exact ⟨rfl, hnothing rfl⟩
  | replaceWithNew op =>
      rw [ask, Attempt.replaceWithNew, bind_assoc, Attempt.does_bind, Attempt.does_insert]
      exact hact rfl rfl
  | replace values => exact hact rfl (hnothing rfl)
  | update op => exact hact rfl (hnothing rfl)
  | erase => exact hact rfl (hnothing rfl)

section Outcome

variable {change : Change} {op : Operation} {before after : Recording}
  {answer : Except Error (Option Value)}

theorem Outcome.inserted_eq (h : change.Outcome op before answer after) :
    after.inserted = before.inserted ++ change.inserted := by
  unfold Outcome at h
  split at h
  · rw [h.2]
    rfl
  · rw [h.2]
    rfl

theorem Outcome.after_of_isOk (h : change.Outcome op before answer after)
    (hok : answer.isOk = true) :
    after = before.record change := by
  unfold Outcome at h
  split at h
  · rw [h.1] at hok
    cases hok
  · exact h.2

theorem Outcome.after_of_not_isOk (h : change.Outcome op before answer after)
    (hfailed : answer.isOk = false) :
    after = before.attempted change := by
  unfold Outcome at h
  split at h
  · exact h.2
  · rw [h.1] at hfailed
    cases hfailed

/-- Only an action can be refused, so that of the changes that insert something only one can. -/
theorem Outcome.inserted_eq_nil_iff (h : change.Outcome op before answer after)
    (hfailed : answer.isOk = false) :
    change.inserted = [] ↔ ∀ new, change ≠ .replaceWithNew new := by
  cases change with
  | create op =>
      rw [h.1] at hfailed
      cases hfailed
  | replaceWithNew op => exact ⟨nofun, fun hne => absurd rfl (hne op)⟩
  | fresh ty => exact ⟨fun _ => nofun, fun _ => rfl⟩
  | replace values => exact ⟨fun _ => nofun, fun _ => rfl⟩
  | update op => exact ⟨fun _ => nofun, fun _ => rfl⟩
  | erase => exact ⟨fun _ => nofun, fun _ => rfl⟩

end Outcome

end Change

/-! ### Courses of changes -/

/-- The attempt with its error as an answer. -/
def Attempt.outcome (attempt : Attempt σ α) : Attempt σ (Except Error α) := .lift attempt.run

theorem Attempt.does_outcome {site : Site} {attempt : Attempt σ α} {draft : Draft σ}
    {post : Except Error (Except Error α) → List String → Draft σ → Prop} :
    Does site attempt.outcome draft post ↔ Does site attempt draft fun answer names after =>
      post (.ok answer) names after := by
  have hrun : attempt.outcome.run = attempt.run.bind fun answer => .done (.ok answer) :=
    map_eq_pure_bind _ _
  unfold Does
  rw [hrun, Rewrite.run_bind, Rewrite.drawn_bind]
  dsimp only [Rewrite.drawn, Rewrite.run]
  rw [List.append_nil]

/-- Changes that are asked for in turn, each in view of the answers to those before it. -/
inductive Course where
  | done
  | ask (change : Change) (next : Except Error (Option Value) → Course)

/-- A change that was asked for, with the answer, and what was recorded before and after. -/
structure Call where
  change : Change
  before : Recording
  answer : Except Error (Option Value)
  after : Recording

namespace Course

/-- Asks for all changes, and goes on when one is refused. -/
def follow : Course → Attempt σ Unit
  | .done => return ()
  | .ask change next => do
      let answer ← Attempt.outcome change.ask
      (next answer).follow

/-- The calls of a course, in order. -/
def calls (site : Site) : Course → Draft σ → List Call
  | .done, _ => []
  | .ask change next, draft =>
      let (answer, after) := change.ask.run.run site draft
      ⟨change, draft.recording, answer, after.recording⟩ :: (next answer).calls site after

/-- A pattern that follows a course and claims to match, whatever was refused. -/
def pattern (name : String) (course : Operation → Course) : Pattern σ where
  name
  rewrite op := do
    (course op).follow
    return true

/-- The changes of the calls that were not refused. -/
def granted (calls : List Call) : List Change := (calls.filter (·.answer.isOk)).map (·.change)

theorem granted_cons_of_isOk {call : Call} {calls : List Call} (hok : call.answer.isOk = true) :
    granted (call :: calls) = call.change :: granted calls := by
  rw [granted, List.filter_cons, if_pos hok]
  rfl

theorem granted_cons_of_not_isOk {call : Call} {calls : List Call}
    (hfailed : call.answer.isOk = false) :
    granted (call :: calls) = granted calls := by
  rw [granted, List.filter_cons, if_neg (Bool.eq_false_iff.1 hfailed)]
  rfl

theorem length_granted_le (calls : List Call) :
    ((granted calls).flatMap (·.inserted)).length ≤ (calls.flatMap (·.change.inserted)).length := by
  rw [granted, List.flatMap_map]
  exact (List.filter_sublist.flatMap _).length_le

/-- What a course does: the recording in the end has what all calls insert, and the actions of the
granted ones. -/
theorem does_follow (course : Course) (site : Site) (draft : Draft σ) :
    course.follow.Does site draft fun answer _ after => answer = .ok ()
      ∧ (∀ call ∈ course.calls site draft, call.change.Outcome site.op call.before call.answer call.after)
      ∧ after.recording
        = ⟨draft.recording.inserted ++ (course.calls site draft).flatMap (·.change.inserted),
        (granted (course.calls site draft)).foldl (fun action? change => change.action?.or action?)
          draft.recording.action⟩ := by
  induction course generalizing draft with
  | done =>
      rw [follow, Attempt.does_pure, calls, List.flatMap_nil, List.append_nil]
      exact ⟨rfl, List.forall_mem_nil _, rfl⟩
  | ask change next ih =>
      rw [follow, Attempt.does_bind, Attempt.does_outcome]
      have hask := change.does_ask site draft
      unfold Attempt.Does at hask ⊢
      dsimp only
      rw [calls]
      generalize change.ask.run.run site draft = outcome at hask ⊢
      obtain ⟨answer, after⟩ := outcome
      dsimp only at hask ⊢
      obtain ⟨hanswer, hcalls, hafter⟩ := ih answer after
      refine ⟨hanswer, List.forall_mem_cons.2 ⟨hask, hcalls⟩, ?_⟩
      rw [hafter, hask.inserted_eq, List.flatMap_cons, List.append_assoc]
      congr 1
      cases hok : answer.isOk with
      | true =>
          rw [granted_cons_of_isOk hok, List.foldl_cons, hask.after_of_isOk hok]
          rfl
      | false =>
          rw [granted_cons_of_not_isOk hok, hask.after_of_not_isOk hok]
          rfl

theorem does_pattern (name : String) (course : Operation → Course) (op : Operation) (site : Site)
    (draft : Draft σ) :
    ((pattern name course).rewrite op).Does site draft fun answer _ after => answer = .ok true
      ∧ (∀ call ∈ (course op).calls site draft,
        call.change.Outcome site.op call.before call.answer call.after)
      ∧ after.recording
        = ⟨draft.recording.inserted ++ ((course op).calls site draft).flatMap (·.change.inserted),
        (granted ((course op).calls site draft)).foldl
          (fun action? change => change.action?.or action?) draft.recording.action⟩ := by
  show Attempt.Does site ((course op).follow >>= fun _ => pure true) draft _
  rw [Attempt.does_bind]
  have hfollow := (course op).does_follow site draft
  unfold Attempt.Does at hfollow ⊢
  obtain ⟨hanswer, h⟩ := hfollow
  rw [hanswer]
  exact ⟨rfl, h⟩

theorem foldl_record (changes : List Change) (recording : Recording) :
    changes.foldl Recording.record recording = ⟨recording.inserted ++ changes.flatMap (·.inserted),
      changes.foldl (fun action? change => change.action?.or action?) recording.action⟩ := by
  induction changes generalizing recording with
  | nil => rw [List.flatMap_nil, List.append_nil, List.foldl_nil, List.foldl_nil]
  | cons change changes ih =>
      rw [List.foldl_cons, ih, List.flatMap_cons, ← List.append_assoc]
      rfl

/-- What all calls insert is what the granted ones insert, unless another call inserts something. -/
theorem flatMap_inserted_eq_iff (calls : List Call) :
    calls.flatMap (·.change.inserted) = (granted calls).flatMap (·.inserted)
    ↔ ∀ call ∈ calls, call.answer.isOk = false → call.change.inserted = [] := by
  induction calls with
  | nil => exact ⟨fun _ => List.forall_mem_nil _, fun _ => rfl⟩
  | cons call calls ih =>
      rw [List.forall_mem_cons, ← ih, List.flatMap_cons]
      cases hok : call.answer.isOk with
      | true =>
          rw [granted_cons_of_isOk hok, List.flatMap_cons, List.append_cancel_left_eq]
          exact ⟨fun h => ⟨nofun, h⟩, fun h => h.2⟩
      | false =>
          rw [granted_cons_of_not_isOk hok]
          refine ⟨fun h => ?_, fun ⟨hnone, h⟩ => by rw [hnone rfl, h, List.nil_append]⟩
          have hlength := congrArg List.length h
          have hle := length_granted_le calls
          rw [List.length_append] at hlength
          have hnone : call.change.inserted = [] := List.length_eq_zero_iff.1 (by omega)
          rw [hnone, List.nil_append] at h
          exact ⟨fun _ => hnone, h⟩

end Course

namespace Greedy

/-- A pattern that claims to match commits what it has recorded, and fails just if that is
nothing. -/
theorem ensures_attempt_of_true {pattern : Pattern σ} {op : Operation} {s : State σ}
    {recording : Recording} (depth : Nat)
    (htrue : ((pattern.rewrite op).run.run (s.site op) s.draft).1 = .ok true)
    (hrecording : ((pattern.rewrite op).run.run (s.site op) s.draft).2.recording = recording) :
    Ensures (attempt depth op pattern) s
      (fun recording? _ => recording? = some recording ∧ recording.isEmpty = false)
      fun error _ => error = .unchanged pattern.name op.name ∧ recording.isEmpty = true := by
  unfold Ensures
  rw [runFrom_attempt]
  generalize (pattern.rewrite op).run.run (s.site op) s.draft = outcome at htrue hrecording ⊢
  obtain ⟨answer, draft⟩ := outcome
  obtain rfl : answer = .ok true := htrue
  obtain rfl : draft.recording = recording := hrecording
  unfold State.conclude
  dsimp only
  cases hempty : draft.recording.isEmpty with
  | true => exact ⟨rfl, rfl⟩
  | false => exact ⟨rfl, rfl⟩

/-- **Calls that fail.** A pattern asks for changes in turn, handles every refusal, and claims to
match. A call that succeeds records all of its change. A call that fails leaves the action that is
recorded, and it leaves the insertions just if it is not a replacement by a new operation: that
operation stays inserted. So the match commits what the calls recorded that succeeded just if no
replacement by a new operation has failed. The attempt fails just if nothing is recorded at all. -/
theorem ensures_attempt_course (name : String) (course : Operation → Course) (depth : Nat)
    (op : Operation) (s : State σ) :
    let calls := (course op).calls (s.site op) s.draft
    (∀ call ∈ calls, call.answer.isOk = true → call.after = call.before.record call.change)
      ∧ (∀ call ∈ calls, call.answer.isOk = false → call.after.action = call.before.action
          ∧ (call.after = call.before ↔ ∀ new, call.change ≠ .replaceWithNew new)
          ∧ ∀ new, call.change = .replaceWithNew new → call.after = call.before.insert new)
      ∧ ∃ recording : Recording,
          (recording = (Course.granted calls).foldl Recording.record {}
            ↔ ∀ call ∈ calls, call.answer.isOk = false → ∀ new, call.change ≠ .replaceWithNew new)
          ∧ Ensures (attempt depth op (Course.pattern name course)) s
            (fun recording? _ => recording? = some recording ∧ recording.isEmpty = false)
            (fun error _ => error = .unchanged name op.name ∧ recording.isEmpty = true) := by
  obtain ⟨hanswer, houtcome, hrecording⟩ := Course.does_pattern name course op (s.site op) s.draft
  have hkept : ∀ call ∈ (course op).calls (s.site op) s.draft, call.answer.isOk = false →
      (call.change.inserted = [] ↔ ∀ new, call.change ≠ .replaceWithNew new) :=
    fun call hcall => (houtcome call hcall).inserted_eq_nil_iff
  refine ⟨fun call hcall => (houtcome call hcall).after_of_isOk, fun call hcall hfailed => ?_, ?_⟩
  · have hafter := (houtcome call hcall).after_of_not_isOk hfailed
    refine ⟨by rw [hafter]; rfl, ?_, fun new hnew => ?_⟩
    · rw [← hkept call hcall hfailed, hafter]
      exact Recording.attempted_eq_iff
    · rw [hafter, Recording.attempted, hnew]
      rfl
  · have hstart : s.draft.recording = {} := rfl
    refine ⟨_, ?_, ensures_attempt_of_true depth hanswer hrecording⟩
    rw [hstart, Course.foldl_record, Recording.mk.injEq, and_iff_left rfl,
      List.append_cancel_left_eq, Course.flatMap_inserted_eq_iff]
    exact forall₃_congr hkept

/-- An operation is erased, and then it is to be replaced by a new one. -/
def eraseThenReplace : Course :=
  .ask .erase fun _ => .ask (.replaceWithNew { name := "test.new" }) fun _ => .done

/-- The replacement is refused, but the new operation comes into the tree. -/
theorem exists_refused_and_inserted : ∃ (patterns : FrozenPatterns Unit) (root : Operation),
    patterns
      = ⟨[{ Course.pattern "test::EraseThenReplace" (fun _ => eraseThenReplace) with
        root := some "test.gone" }]⟩
      ∧ root = .module [{ name := "test.gone" }]
      ∧ (eraseThenReplace.calls ⟨.ofRegistry .standard, { name := "test.gone" }, .empty⟩
        { names := {}, memory := () }).map
          (fun call => (call.answer.isOk, call.before.inserted, call.after.inserted))
        = [(true, [], []), (false, [], [{ name := "test.new" }])]
      ∧ (applyGreedily patterns {} root (.ofRegistry .standard) ()).op
        = .module [{ name := "test.new" }] :=
  ⟨_, _, rfl, rfl, by decide +kernel, by decide +kernel⟩

end Greedy

end DialectIR
