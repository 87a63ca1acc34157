/-!
# Wire handles

While a system is being described a wire is known by its visibility and its
place among the wires of that visibility. Numbers in the flat layout are only
given out once all wires are known.
-/

namespace RankOne

/-- Who knows the value of a wire: everyone, the prover who supplies it, or the
solver who computes it. -/
inductive Visibility where
  | publicInput
  | secretInput
  | internal
deriving DecidableEq, Repr

namespace Visibility

/-- The word for a visibility in messages. -/
def name : Visibility → String
  | publicInput => "Public"
  | secretInput => "Secret"
  | internal => "Internal"

end Visibility

/-- A wire as the `index`-th of its visibility. -/
structure Wire where
  visibility : Visibility
  index : Nat
deriving DecidableEq, Repr

namespace Wire

/-- The wire that always carries one: the first public wire. -/
def one : Wire := ⟨.publicInput, 0⟩

/-- The text for a wire in messages. -/
def describe (wire : Wire) : String :=
  "Wire \x7b visibility: " ++ wire.visibility.name ++ ", index: " ++
    toString wire.index ++ " \x7d"

end Wire

end RankOne
