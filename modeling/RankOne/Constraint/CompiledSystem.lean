import RankOne.Constraint.Fingerprint
import RankOne.Schedule.Basic

/-!
# Compiled systems

A compiled system is a valid system together with its schedule and its digest.
-/

namespace RankOne

/-- A valid system with its schedule and its digest. -/
structure CompiledSystem (p : Nat) extends ValidSystem p where
  schedule : Schedule
  digest : Digest

namespace CompiledSystem

variable {p : Nat}

/-- Validates a flat system, schedules it and takes its digest. -/
def compile (settings : SchedulerSettings) (flat : FlatSystem p)
    (arithmetic : Arithmetic := .checked) :
    Outcome SystemError (CompiledSystem p) := do
  let valid ← flat.validate arithmetic
  let schedule ← Outcome.ofFaulty (Schedule.ofSystem settings valid)
  return { valid with schedule, digest := flat.digest }

/-- The value of an expression under a full assignment. Faults on a slot or a
wire that is not there. -/
def evaluate [Modulus p] (system : CompiledSystem p) (wires : Array (Fp p)) :
    Expression → Except Fault (Fp p)
  | [] => .ok 0
  | term :: rest =>
      match system.coefficients[term.slot.toNat]?, wires[term.wire]? with
      | some coefficient, some value =>
          match system.evaluate wires rest with
          | .ok sum => .ok (coefficient * value + sum)
          | .error cause => .error cause
      | _, _ => .error .outOfBounds

end CompiledSystem

end RankOne
