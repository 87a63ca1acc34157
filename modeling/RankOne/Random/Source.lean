/-!
# Sources of random words

A source offers one word of 64 bits after the other. What is drawn is a function
of its words, and a type is `Drawable` when its values can be drawn from any
source.

A drawing that rejects candidates until one fits is cut off after as many
attempts as the source has `patience` for. `SplitMix` is a counter of 64 bits:
every word advances it by an odd constant and scrambles it, so the words repeat
after `2 ^ 64` draws, and a source that has not offered a fitting candidate by
then never will.
-/

namespace RankOne

/-- A computation that draws from a source of type `σ`. -/
abbrev Draw (σ : Type) := StateM σ

/-- Sources of random words. -/
class WordSource (σ : Type) where
  word : Draw σ UInt64
  /-- The number of attempts after which a drawing gives up. -/
  patience : Nat

namespace Draw

variable {σ : Type} [WordSource σ]

/-- A coin: the highest bit of a word. -/
def coin : Draw σ Bool := do
  let drawn ← WordSource.word
  return drawn >>> 63 = 1

/-- A number of `count` words, the least significant first. -/
def number : Nat → Draw σ Nat
  | 0 => return 0
  | count + 1 => do
      let low ← WordSource.word
      let high ← number count
      return low.toNat + high <<< 64

/-- Repeats an attempt until it succeeds, at most `attempts` times. -/
def untilSuccess {α : Type} (fallback : α) (attempt : Draw σ (Option α)) :
    Nat → Draw σ α
  | 0 => return fallback
  | attempts + 1 => do
      match ← attempt with
      | some a => return a
      | none => untilSuccess fallback attempt attempts

/-- Repeats an attempt as long as the source has patience for it. -/
def persist {α : Type} (fallback : α) (attempt : Draw σ (Option α)) :
    Draw σ α :=
  untilSuccess fallback attempt (WordSource.patience σ)

end Draw

/-- A type whose values can be drawn at random. -/
class Drawable (α : Type) where
  draw {σ : Type} [WordSource σ] : Draw σ α

/-- A source that counts on from a seed. -/
structure SplitMix where
  state : UInt64
deriving DecidableEq, Repr

namespace SplitMix

/-- Scrambles a counter. -/
def scramble (counter : UInt64) : UInt64 :=
  let z := (counter ^^^ (counter >>> 30)) * 0xBF58476D1CE4E5B9
  let z := (z ^^^ (z >>> 27)) * 0x94D049BB133111EB
  z ^^^ (z >>> 31)

instance : WordSource SplitMix where
  word := do
    let counter := (← get).state + 0x9E3779B97F4A7C15
    set (SplitMix.mk counter)
    return scramble counter
  patience := UInt64.size

end SplitMix

end RankOne
