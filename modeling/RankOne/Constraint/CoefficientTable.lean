import RankOne.Field.Prime
import Std.Data.TreeMap

/-!
# The coefficient table

Coefficients are stored once and referred to by slot. The table keeps the list
of its values and the slot of each value, and it starts with the four
coefficients that occur almost everywhere: zero, one, two and minus one.
-/

namespace RankOne

/-- A list of distinct coefficients with the slot of each. -/
structure CoefficientTable (p : Nat) where
  values : Array (Fp p)
  slots : Std.TreeMap Nat UInt32

namespace CoefficientTable

variable {p : Nat}

/-- The table without any coefficient. -/
def empty : CoefficientTable p := ⟨#[], ∅⟩

/-- The slot of a coefficient, which is appended if it is not stored yet. -/
def insert (table : CoefficientTable p) (value : Fp p) :
    UInt32 × CoefficientTable p :=
  match table.slots[value.val]? with
  | some slot => (slot, table)
  | none =>
      let slot := table.values.size.toUInt32
      (slot, ⟨table.values.push value, table.slots.insert value.val slot⟩)

/-- The table that holds zero, one, two and minus one in the first slots. -/
def initial [Modulus p] : CoefficientTable p :=
  [0, 1, 1 + 1, -1].foldl (fun table value => (table.insert value).2) empty

/-- Number of stored coefficients. -/
def size (table : CoefficientTable p) : Nat := table.values.size

/-- Whether nothing is stored, which is never so for a table grown from
`initial`. -/
def isEmpty (table : CoefficientTable p) : Bool := table.values.isEmpty

end CoefficientTable

end RankOne
