import DialectIR.Arith
import DialectIR.Lowering
import DialectIR.Proofs.Attempts

/-! Programs that look neither at the context nor at the memory. Such a program does the same
wherever it finds the same definitions and draws the same names, and the memory stays as it is. The
patterns of the library are of this kind. -/

namespace DialectIR

variable {σ α β : Type}

namespace Rewrite

/-- The program looks neither at the context nor at the memory, and does not change the memory. -/
def Blind : Rewrite σ α → Prop
  | .done _ => True
  | .definingOp _ next => ∀ op?, (next op?).Blind
  | .freshName next => ∀ name, (next name).Blind
  | .create _ next => next.Blind
  | .act _ next => ∀ answer, (next answer).Blind
  | .context _ | .readMemory _ | .writeMemory _ _ => False

theorem Blind.bind {program : Rewrite σ α} {next : α → Rewrite σ β} (h : program.Blind)
    (hnext : ∀ a, (next a).Blind) :
    (program.bind next).Blind := by
  induction program with
  | done result => exact hnext result
  | definingOp value rest ih => exact fun op? => ih op? (h op?)
  | freshName rest ih => exact fun name => ih name (h name)
  | create op rest ih => exact ih h
  | act action rest ih => exact fun answer => ih answer (h answer)
  | context rest => exact h.elim
  | readMemory rest => exact h.elim
  | writeMemory memory rest => exact h.elim

/-- The runs end with the same result, names and recording, and their memories stay as they were. -/
structure RunAlike (memory memory' : σ) (outcome outcome' : α × Draft σ) : Prop where
  result : outcome'.1 = outcome.1
  names : outcome'.2.names = outcome.2.names
  recording : outcome'.2.recording = outcome.2.recording
  left : outcome.2.memory = memory
  right : outcome'.2.memory = memory'

/-- **A blind program does the same wherever it finds the same definitions.** -/
theorem Blind.run {program : Rewrite σ α} (h : program.Blind) {site site' : Site}
    (hop : site'.op = site.op) (hdefinitions : site'.definitions = site.definitions)
    (draft draft' : Draft σ) (hnames : draft'.names = draft.names)
    (hrecording : draft'.recording = draft.recording) :
    RunAlike draft.memory draft'.memory (program.run site draft) (program.run site' draft') := by
  induction program generalizing draft draft' with
  | done result => exact ⟨rfl, hnames, hrecording, rfl, rfl⟩
  | definingOp value rest ih =>
      have hdefinition : site'.definition? draft'.recording value.name
        = site.definition? draft.recording value.name := by
        rw [Site.definition?, Site.definition?, hdefinitions, hrecording]
      rw [Rewrite.run, Rewrite.run, hdefinition]
      exact ih _ (h _) draft draft' hnames hrecording
  | freshName rest ih =>
      rw [Rewrite.run, Rewrite.run, hnames]
      exact ih _ (h _) { draft with names := draft.names.fresh.2 }
        { draft' with names := draft.names.fresh.2 } rfl hrecording
  | create op rest ih =>
      rw [Rewrite.run, Rewrite.run, hrecording]
      exact ih h { draft with recording := draft.recording.insert op }
        { draft' with recording := draft.recording.insert op } hnames rfl
  | act action rest ih =>
      rw [Rewrite.run, Rewrite.run, hop, hrecording]
      cases draft.recording.act site.op action with
      | ok recording =>
          exact ih _ (h _) { draft with recording } { draft' with recording } hnames rfl
      | error refusal => exact ih _ (h _) draft draft' hnames hrecording
  | context rest => exact h.elim
  | readMemory rest => exact h.elim
  | writeMemory memory rest => exact h.elim

end Rewrite

namespace Attempt

/-- The attempt looks neither at the context nor at the memory. -/
def Blind (attempt : Attempt σ α) : Prop := attempt.run.Blind

theorem blind_pure (a : α) : Blind (pure a : Attempt σ α) := trivial

theorem blind_throw (error : Error) : Blind (throw error : Attempt σ α) := trivial

theorem Blind.bind {attempt : Attempt σ α} {next : α → Attempt σ β} (h : attempt.Blind)
    (hnext : ∀ a, (next a).Blind) :
    (attempt >>= next).Blind := by
  refine Rewrite.Blind.bind h fun answer => ?_
  cases answer with
  | ok a => exact hnext a
  | error error => trivial

theorem blind_definition? (value : Value) : Blind (definition? value : Attempt σ _) :=
  fun _ => trivial

theorem blind_freshValue (ty : Ty) : Blind (freshValue ty : Attempt σ _) := fun _ => trivial

theorem blind_insert (op : Operation) : Blind (insert op : Attempt σ _) := trivial

theorem blind_act (action : Action) : Blind (act action : Attempt σ _) := fun _ => trivial

theorem blind_replaceWithNew (op : Operation) : Blind (replaceWithNew op : Attempt σ _) :=
  (blind_insert op).bind fun _ => blind_act _

end Attempt

open Attempt

/-- The pattern looks neither at the context nor at the memory. -/
def Pattern.Blind (pattern : Pattern σ) : Prop := ∀ op, (pattern.rewrite op).Blind

namespace Arith

theorem blind_constantValue? (value : Value) : Attempt.Blind (constantValue? value : Attempt σ _) :=
  (blind_definition? value).bind fun _ => blind_pure _

/-- Changes that end with a match. -/
theorem blind_matched {changes : Attempt σ Unit} (h : changes.Blind) : Attempt.Blind (do
    changes
    return true) :=
  h.bind fun _ => blind_pure true

theorem blind_replaceByConstant (op : Operation) (value : Int64) :
    Attempt.Blind (replaceByConstant op value : Attempt σ _) := by
  unfold replaceByConstant
  split
  · exact blind_throw _
  · exact (blind_freshValue _).bind fun _ => blind_replaceWithNew _

theorem blind_onTwoOperands {f : Value → Value → Attempt σ Bool} (h : ∀ lhs rhs, (f lhs rhs).Blind)
    (op : Operation) :
    (onTwoOperands f op).Blind := by
  unfold onTwoOperands
  split
  · exact h _ _
  · exact blind_pure false

theorem blind_ite {condition : Prop} [Decidable condition] {matched declined : Attempt σ Bool}
    (hmatched : matched.Blind) (hdeclined : declined.Blind) :
    Attempt.Blind (if condition then matched else declined) := by
  split
  · exact hmatched
  · exact hdeclined

theorem blind_dropNeutral (neutral : Int64) (lhs rhs : Value) :
    Attempt.Blind (dropNeutral neutral lhs rhs : Attempt σ _) :=
  (blind_constantValue? rhs).bind fun _ => blind_ite (blind_matched (blind_act _)) <|
    (blind_constantValue? lhs).bind fun _ => blind_ite (blind_matched (blind_act _))
      (blind_pure false)

theorem blind_foldBinary : (foldBinary (σ := σ)).Blind := by
  refine fun op => blind_onTwoOperands (fun lhs rhs => ?_) op
  refine (blind_constantValue? lhs).bind fun x? => (blind_constantValue? rhs).bind fun y? => ?_
  split
  · split
    · exact blind_matched (blind_replaceByConstant op _)
    · exact blind_pure false
  · exact blind_pure false

theorem blind_simplifications : ∀ pattern ∈ simplifications (σ := σ), pattern.Blind := by
  intro pattern hpattern
  simp only [simplifications, List.mem_cons, List.not_mem_nil, or_false] at hpattern
  rcases hpattern with rfl | rfl | rfl | rfl | rfl | rfl
  · exact blind_foldBinary
  · exact blind_onTwoOperands (blind_dropNeutral 0)
  · exact blind_onTwoOperands fun lhs rhs => (blind_constantValue? rhs).bind fun _ =>
      blind_ite (blind_matched (blind_act _)) (blind_pure false)
  · exact fun op => blind_onTwoOperands
      (fun _ _ => blind_ite (blind_matched (blind_replaceByConstant op 0)) (blind_pure false)) op
  · exact blind_onTwoOperands (blind_dropNeutral 1)
  · exact fun op => blind_onTwoOperands (fun lhs rhs => (blind_constantValue? lhs).bind fun _ =>
      (blind_constantValue? rhs).bind fun _ => blind_ite
        (blind_matched (blind_replaceByConstant op 0)) (blind_pure false)) op

end Arith

namespace Lowering

theorem blind_patterns : ∀ pattern ∈ patterns (σ := σ), pattern.Blind := by
  intro pattern hpattern
  simp only [patterns, List.mem_cons, List.not_mem_nil, or_false] at hpattern
  rcases hpattern with rfl | rfl
  · exact fun op => (blind_replaceWithNew _).bind fun _ => blind_pure true
  · intro op
    unfold binaryLowering
    dsimp only
    split
    · exact (blind_replaceWithNew _).bind fun _ => blind_pure true
    · exact blind_pure false

end Lowering

end DialectIR
