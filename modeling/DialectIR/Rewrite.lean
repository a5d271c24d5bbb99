import DialectIR.Context

/-! Rewrites: what a pattern asks for and records while it looks at an operation, as a program that
can be run and reasoned about. `σ` is the memory that patterns keep from one match to the next. -/

namespace DialectIR

/-- What becomes of the matched operation. -/
inductive Action where
  /-- Its results are replaced one by one, and it goes. -/
  | replace (values : List Value)
  | erase
  /-- It becomes another operation with the same results. -/
  | update (op : Operation)

/-- Why an action is refused. -/
inductive Refusal where
  | resultCount (op : OpName) (results values : Nat)
  | alreadyRewritten (op : OpName)
  | changedResults (op : OpName)
deriving DecidableEq

/-- The message about the refusal. -/
def Refusal.message : Refusal → String
  | .resultCount op results values =>
      "Cannot replace " ++ op.text ++ " (" ++ toString results ++ " results) with "
        ++ toString values
        ++ " values"
  | .alreadyRewritten op => "Operation " ++ op.text ++ " was already rewritten"
  | .changedResults op => "Updating " ++ op.text ++ " in place must keep its results"

/-- Programs of requests that end with a result. -/
inductive Rewrite (σ α : Type) where
  | done (result : α)
  /-- Asks for the operation that defines a value. -/
  | definingOp (value : Value) (next : Option Operation → Rewrite σ α)
  /-- Asks for a name that is not in use. -/
  | freshName (next : String → Rewrite σ α)
  /-- Records an operation to be inserted before the matched one. -/
  | create (op : Operation) (next : Rewrite σ α)
  /-- Records what becomes of the matched operation, unless that is refused. -/
  | act (action : Action) (next : Except Refusal Unit → Rewrite σ α)
  /-- Looks at the context. -/
  | context (next : Context → Rewrite σ α)
  | readMemory (next : σ → Rewrite σ α)
  | writeMemory (memory : σ) (next : Rewrite σ α)

namespace Rewrite

variable {σ α β γ : Type}

/-- One program after the other. -/
def bind : Rewrite σ α → (α → Rewrite σ β) → Rewrite σ β
  | done result, f => f result
  | definingOp value next, f => .definingOp value fun op? => (next op?).bind f
  | freshName next, f => .freshName fun name => (next name).bind f
  | create op next, f => .create op (next.bind f)
  | act action next, f => .act action fun answer => (next answer).bind f
  | context next, f => .context fun context => (next context).bind f
  | readMemory next, f => .readMemory fun memory => (next memory).bind f
  | writeMemory memory next, f => .writeMemory memory (next.bind f)

instance : Monad (Rewrite σ) where
  pure := .done
  bind := .bind

theorem bind_done (program : Rewrite σ α) : program.bind .done = program := by
  induction program <;> simp_all [bind]

theorem bind_assoc (program : Rewrite σ α) (f : α → Rewrite σ β) (g : β → Rewrite σ γ) :
    (program.bind f).bind g = program.bind fun a => (f a).bind g := by
  induction program <;> simp_all [bind]

instance : LawfulMonad (Rewrite σ) := .mk' (Rewrite σ) bind_done (fun _ _ => rfl) bind_assoc

end Rewrite

end DialectIR
