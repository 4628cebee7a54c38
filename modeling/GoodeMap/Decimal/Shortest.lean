import GoodeMap.Decimal.Rounded

/-!
The fewest digits that read back to the same double, the nearest of those, and their layout: positional
from `10 ^ -4` up to below `10 ^ 16`, with one digit behind the point at least; else with a power of ten.
-/
namespace GoodeMap.Decimal

def readsBack (b : Binary) (times den digits : Nat) : Bool :=
  let low := (4 * b.significand - if b.narrowBelow then 1 else 2) * times
  let high := (4 * b.significand + 2) * times
  let d := 4 * (digits * den)
  if b.significand % 2 = 0 then low ≤ d && d ≤ high else low < d && d < high

/-- The nearest number of `count` digits that reads back, if one does, in units of its last digit. Of
the two neighbours on that grid an exact tie takes the even one. -/
def candidate? (b : Binary) (grid : Int) : Option Nat :=
  let unit := { b with significand := 1 }
  let (times, den) := unit.ratio (-grid)
  let num := b.significand * times
  let below := num / den
  match readsBack b times den below, readsBack b times den (below + 1) with
  | true, true => some (halfEven num den)
  | true, false => some below
  | false, true => some (below + 1)
  | false, false => none

def shortestDigits (b : Binary) : Nat × Int :=
  let top := rank b
  let found := (List.range 17).findSome? fun (n : Nat) =>
    (candidate? b (top - n)).map fun digits => (digits, top - n)
  found.getD (scaled b (16 - top), top - 16)

def stripZeros : Nat → Nat → Int → Nat × Int
  | 0, n, e => (n, e)
  | fuel + 1, n, e => if n % 10 = 0 ∧ n ≠ 0 then stripZeros fuel (n / 10) (e + 1) else (n, e)

def layout (n : Nat) (e : Int) : String :=
  let count := digitCount n
  let lead := count - 1 + e
  if -4 ≤ lead ∧ lead < 16 then
    if 0 ≤ e then pointed (n * Nat.pow 10 e.toNat * 10) 1 else pointed n (-e).toNat
  else pointed n (count - 1) ++ exponentText lead

def shortest (x : Float) : String :=
  signed x fun b =>
    if b.significand = 0 then "0.0"
    else
      let (n, e) := shortestDigits b
      let (n, e) := stripZeros 17 n e
      layout n e

end GoodeMap.Decimal
