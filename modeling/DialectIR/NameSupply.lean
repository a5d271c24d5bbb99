import DialectIR.Text.Numeral

/-! A supply of numeric names for new values. It counts upwards from the highest number that it was
told to avoid and starts over from zero behind the largest number of 64 bits. -/

namespace DialectIR

/-- The state of the supply: the next candidate and the numbers never to be handed out. -/
structure NameSupply where
  next : UInt64 := 0
  reserved : List UInt64 := []
deriving DecidableEq, Inhabited

namespace NameSupply

/-- Makes sure that the name is never handed out. Names that are no numbers never are. -/
def reserve (supply : NameSupply) (name : String) : NameSupply :=
  match Text.readUInt64? name with
  | some number =>
      let following := UInt64.ofNat (min (number.toNat + 1) (UInt64.size - 1))
      { next := max supply.next following, reserved := number :: supply.reserved }
  | none => supply

/-- The first number from `candidate` on, with wraparound, that is not reserved. Of `bound + 1`
candidates in a row one is free if no more than `bound` numbers are reserved. -/
def firstFree (reserved : List UInt64) : Nat → UInt64 → UInt64
  | 0, candidate => candidate
  | bound + 1, candidate =>
      if candidate ∈ reserved then firstFree reserved bound (candidate + 1) else candidate

/-- A name that is not reserved, and the supply after handing it out. -/
def fresh (supply : NameSupply) : String × NameSupply :=
  let number := firstFree supply.reserved supply.reserved.length supply.next
  (toString number.toNat, { supply with next := number + 1 })

/-- The supply with its counter set back to an earlier state; reservations stay. -/
def rollback (supply : NameSupply) (next : UInt64) : NameSupply := { supply with next }

end NameSupply

end DialectIR
