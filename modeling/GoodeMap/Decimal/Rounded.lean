import GoodeMap.Decimal.Binary

/-!
Doubles written with a set number of places or digits. The exact value is rounded once, a half going to
the even neighbour.
-/
namespace GoodeMap.Decimal

def halfEven (num den : Nat) : Nat :=
  let q := num / den
  let r := 2 * (num % den)
  if r < den then q else if den < r then q + 1 else if q % 2 = 0 then q else q + 1

def digitCount (n : Nat) : Nat := (Nat.toDigits 10 n).length

def scaled (b : Binary) (places : Int) : Nat :=
  let (num, den) := b.ratio places
  halfEven num den

def rank (b : Binary) : Int :=
  let (num, den) := b.ratio 0
  if den ≤ num then (digitCount (num / den) : Int) - 1
  else
    let k := digitCount (den / num)
    if den ≤ num * Nat.pow 10 (k - 1) then 1 - (k : Int) else -(k : Int)

def pointed (n places : Nat) : String :=
  let digits := (Nat.toDigits 10 n).leftpad (places + 1) '0'
  let whole := String.ofList (digits.take (digits.length - places))
  if places = 0 then whole
  else whole ++ "." ++ String.ofList (digits.drop (digits.length - places))

def exponentText (e : Int) : String :=
  (if e < 0 then "e-" else "e+") ++ String.ofList ((Nat.toDigits 10 e.natAbs).leftpad 2 '0')

def signed (x : Float) (size : Binary → String) : String :=
  match Reading.ofFloat x with
  | .undefined => "nan"
  | .infinite negative => if negative then "-inf" else "inf"
  | .finite negative b => (if negative then "-" else "") ++ size b

def fixed (places : Nat) (x : Float) : String :=
  signed x fun b => pointed (scaled b places) places

def leading (places : Nat) (b : Binary) : Nat × Int :=
  if b.significand = 0 then (0, 0)
  else
    let e := rank b
    let n := scaled b (places - e)
    if n = Nat.pow 10 (places + 1) then (Nat.pow 10 places, e + 1) else (n, e)

def scientific (places : Nat) (x : Float) : String :=
  signed x fun b =>
    let (n, e) := leading places b
    pointed n places ++ exponentText e

def trimmed (n : Nat) : Nat → String
  | 0 => pointed n 0
  | places + 1 => if n % 10 = 0 then trimmed (n / 10) places else pointed n (places + 1)

def general (places : Nat) (x : Float) : String :=
  signed x fun b =>
    let (n, e) := leading places b
    if -4 ≤ e ∧ e ≤ places then trimmed n (places - e).toNat
    else trimmed n places ++ exponentText e

end GoodeMap.Decimal
