import GoodeMap.Scalar
import GoodeMap.Decimal.Rounded
import GoodeMap.Text.Digit

/-!
Numbers read from text: blanks around them are dropped, digits may be of any script, single underscores
may stand between digits, and infinities and the absent number have names.
-/
namespace GoodeMap

inductive Numeral where
  | finite (negative : Bool) (digits : Nat) (exponent : Int)
  | infinite (negative : Bool)
  | undefined (negative : Bool)
deriving Repr, DecidableEq

namespace Numeral

def plain (c : Char) : Char :=
  if c.toNat < 128 then c
  else match Text.digit? c with
    | some d => Nat.digitChar d
    | none => c

def joined : List Char → Option (List Char)
  | [] => some []
  | '_' :: _ => none
  | [c] => some [c]
  | c :: '_' :: d :: rest =>
    if c.isDigit ∧ d.isDigit then (joined (d :: rest)).map (c :: ·) else none
  | c :: rest => (joined rest).map (c :: ·)

def takeSign : List Char → Bool × List Char
  | '-' :: cs => (true, cs)
  | '+' :: cs => (false, cs)
  | cs => (false, cs)

def natOf (cs : List Char) : Nat := cs.foldl (fun n c => 10 * n + (c.toNat - 48)) 0

def exponent? : List Char → Option Int
  | [] => some 0
  | mark :: cs =>
    let (negative, ds) := takeSign cs
    if (mark = 'e' ∨ mark = 'E') ∧ ds ≠ [] ∧ ds.all Char.isDigit then
      some (if negative then -(natOf ds : Int) else natOf ds)
    else none

def unsigned? (negative : Bool) (cs : List Char) : Option Numeral :=
  let whole := cs.takeWhile Char.isDigit
  let rest := cs.dropWhile Char.isDigit
  let (part, tail) := match rest with
    | '.' :: more => (more.takeWhile Char.isDigit, more.dropWhile Char.isDigit)
    | _ => ([], rest)
  if whole = [] ∧ part = [] then none
  else (exponent? tail).map fun e => .finite negative (natOf (whole ++ part)) (e - part.length)

def bare? (cs : List Char) : Option Numeral :=
  let (negative, size) := takeSign cs
  let name := String.ofList (size.map Char.toLower)
  if name = "inf" ∨ name = "infinity" then some (.infinite negative)
  else if name = "nan" then some (.undefined negative)
  else unsigned? negative size

def read? (text : String) : Option Numeral :=
  (joined (Text.trimBlank (text.toList.map plain))).bind bare?

def farthest : Int := 400

def value {α : Type} [Scalar α] : Numeral → α
  | finite negative digits e =>
    let top := Decimal.digitCount digits + e
    let size : α :=
      if digits = 0 ∨ top < -farthest then 0.0
      else if farthest < top then 1.0 / 0.0
      else OfScientific.ofScientific digits (e < 0) e.natAbs
    if negative then -size else size
  | infinite negative => if negative then -(1.0 / 0.0) else 1.0 / 0.0
  | undefined _ => Scalar.undefined

end Numeral
end GoodeMap
