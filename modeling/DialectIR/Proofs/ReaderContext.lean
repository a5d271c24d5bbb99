import DialectIR.Proofs.Loading
import DialectIR.Proofs.Reader

/-! What reading does to the context. However it ends, with a module or at a fault, dialects were
loaded at most. -/

namespace DialectIR

namespace Parse

variable {context : Context}

/-- Dialects were loaded at most since the given context. -/
def State.LoadedSince (context : Context) (s : State) : Prop := context.Loads s.context

theorem loadedSince_advance (s : State) (h : s.LoadedSince context) :
    s.advance.LoadedSince context := by
  unfold State.LoadedSince
  rw [s.advance_context]
  exact h

/-- Defining values leaves the context alone. -/
theorem maintains_define {P : Context → Prop} (token : Token) (ty : Ty) :
    Maintains (fun s : State => P s.context) (define token ty) := by
  refine .get_bind fun s => .ite (.throw _) ?_
  exact Maintains.bind (.modify fun _ h => h) fun _ => .pure _

theorem maintains_defineAll {P : Context → Prop} (results : List (Token × Ty)) :
    Maintains (fun s : State => P s.context) (defineAll results) := by
  induction results with
  | nil => exact .pure _
  | cons result results ih => exact (maintains_define _ _).bind fun _ => ih.bind fun _ => .pure _

/-- The only place where a dialect is loaded. -/
theorem maintains_checkName (name : OpName) (token : Token) :
    Maintains (State.LoadedSince context) (checkName name token) := by
  refine (Maintains.modify fun s h => h.load _).bind fun _ => .get_bind fun s => ?_
  split
  · exact .throw _
  · exact .pure _

theorem maintains_operationsUntil {close : Token.Kind} {operation : Reader Operation}
    (h : Maintains (State.LoadedSince context) operation) (steps : Nat) :
    Maintains (State.LoadedSince context) (operationsUntil close operation steps) := by
  induction steps with
  | zero => exact .get_bind fun _ => .throw _
  | succ steps ih =>
      refine (maintains_isNext close).bind fun found => .ite (.pure _) ?_
      exact h.bind fun op => ih.bind fun ops => .pure _

theorem maintains_region? {operation : Reader Operation}
    (h : Maintains (State.LoadedSince context) operation) (steps : Nat) :
    Maintains (State.LoadedSince context) (region? operation steps) := by
  have hscopes (f : List (Dict Ty) → List (Dict Ty)) :
      Maintains (State.LoadedSince context)
        (modify fun s => { s with scopes := f s.scopes } : Reader PUnit) :=
    .modify fun _ h => h
  refine (maintains_isNext _).bind fun found => .ite ?_ (.pure _)
  refine Maintains.bind ?_ fun ops => .pure (some ops)
  refine (maintains_expect loadedSince_advance _).bind fun _ =>
    (hscopes (.empty :: ·)).bind fun _ => ?_
  refine (maintains_operationsUntil h steps).bind fun ops =>
    (maintains_expect loadedSince_advance _).bind fun _ => ?_
  exact (hscopes List.tail).bind fun _ => .pure _

theorem maintains_operation (steps : Nat) :
    Maintains (State.LoadedSince context) (operation steps) := by
  induction steps with
  | zero => exact .get_bind fun _ => .throw _
  | succ steps ih =>
      refine (maintains_resultTokens loadedSince_advance _).bind fun tokens => ?_
      refine (maintains_expect loadedSince_advance _).bind fun nameToken =>
        (maintains_checkName _ _).bind fun _ => ?_
      refine (maintains_operands loadedSince_advance _ _).bind fun operands => ?_
      refine (maintains_attributes? loadedSince_advance _).bind fun attributes => ?_
      refine (maintains_resultTypes loadedSince_advance _).bind fun types => ?_
      refine Maintains.bind (.ite (.pure _) (.throw _)) fun _ => ?_
      exact (maintains_region? ih _).bind fun region =>
        (maintains_defineAll (P := context.Loads) _).bind fun results => .pure _

end Parse

open Parse

/-- **Reading loads dialects at most**, also when it fails. -/
theorem loads_parse (source : String) (context : Context) :
    context.Loads (parse source context).2 := by
  unfold parse
  split
  next => exact .refl context
  next tokens hscan =>
    cases tokens with
    | nil => exact .refl context
    | cons here later =>
        have hread : Maintains (State.LoadedSince context) (operationsUntil .eof _ _) :=
          maintains_operationsUntil (maintains_operation (here :: later).length)
            (here :: later).length
        have hstart : State.LoadedSince context { here, later, context } := .refl context
        exact hread.holds hstart

theorem loads_of_parse {source : String} {context after : Context}
    {answer : Except SyntaxError Operation} (h : parse source context = (answer, after)) :
    context.Loads after := by
  have hloads := loads_parse source context
  rwa [h] at hloads

end DialectIR
