import DialectIR.Pattern

/-! Lowering of integer arithmetic to the operations that stand for LLVM IR. Results keep their
names, so that nothing else has to change. -/

namespace DialectIR

namespace Lowering

variable {σ : Type}

/-- Replaces an operation without its region by one of another name. -/
def rename (op : Operation) (name : OpName) (operands : List Value) : Attempt σ Unit :=
  Attempt.replaceWithNew { name, operands, results := op.results, attributes := op.attributes }

/-- The operation that a binary operation is lowered to. -/
def binary? (op : OpName) : Option OpName :=
  if op = "arith.addi" then some "llvm.add"
  else if op = "arith.subi" then some "llvm.sub"
  else if op = "arith.muli" then some "llvm.mul"
  else none

/-- Lowers constants. -/
def constantLowering : Pattern σ where
  name := "arith_to_llvm::ConstantLowering"
  root := some "arith.constant"
  rewrite op := do
    rename op "llvm.mlir.constant" []
    return true

/-- Lowers binary operations. -/
def binaryLowering : Pattern σ where
  name := "arith_to_llvm::BinaryLowering"
  rewrite op := do
    match binary? op.name with
    | some name =>
        rename op name op.operands
        return true
    | none => return false

/-- The patterns of the lowering, in the order in which a set takes them. -/
def patterns : List (Pattern σ) := [constantLowering, binaryLowering]

end Lowering

end DialectIR
