namespace BoundedCache

abbrev Key := String

abbrev Value := String

/-- The weight of one value. Sums of weights are `Nat`s. -/
abbrev Weight := UInt32

/-- Gives the weight of a value, or the text with which it refuses the value. -/
abbrev Weigher := Value → Except String Weight

namespace Weigher

def unit : Weigher := fun _ => .ok 1

/-- Refuses by name the values that start with an exclamation mark, and weighs the others. -/
def unlessMarked (weight : Value → Weight) : Weigher := fun value =>
  if value.toList.head? = some '!' then .error ("weigher rejected " ++ value)
  else .ok (weight value)

def byteLength : Weigher := unlessMarked fun value => value.utf8ByteSize.toUInt32

def afterLastColon (chars : List Char) : Option (List Char) :=
  if ':' ∈ chars then some (chars.reverse.takeWhile (· ≠ ':')).reverse else none

def decimal? (chars : List Char) : Option Nat :=
  if chars.isEmpty || !chars.all Char.isDigit then none
  else some (chars.foldl (fun n c => 10 * n + (c.toNat - '0'.toNat)) 0)

/-- The number behind the last colon of a value, zero where no weight stands there. -/
def statedWeight (value : Value) : Weight :=
  match (afterLastColon value.toList).bind decimal? with
  | some n => if n < UInt32.size then n.toUInt32 else 0
  | none => 0

def stated : Weigher := unlessMarked statedWeight

end Weigher

end BoundedCache
