import GoodeMap.Failure

/-!
How large arrays may grow: the axes of one, the axes of arrays that are stretched against each other, and the points
that a count asks for.
-/
namespace GoodeMap

structure ArrayLimits (α : Type) where
  axes : Nat
  stretchedAxes : Nat
  pointCount : Int → Except (Failure α) Nat

namespace ArrayLimits
variable {α : Type}

/-- What is relied on of the room for points, of eight bytes each under addresses of 47 bits: a count below 2^44 is
granted as it is, and none is granted more. -/
structure Roomy (l : ArrayLimits α) : Prop where
  pointCount_of_lt {count : Int} : 0 ≤ count → count < 0x100000000000 → l.pointCount count = .ok count.toNat
  lt_of_pointCount {count : Int} {n : Nat} : l.pointCount count = .ok n → n < 0x100000000000

/-- The limits of a machine with words of 64 bits. A count is rounded to a double and kept in a signed word. There what
rounds to 2^63 turns negative and asks for no points; from what rounds to 2^60 on, the points take more bytes than
such a word counts; from 2^44 on, all that an address of 47 bits reaches. -/
def words : ArrayLimits α where
  axes := 64
  stretchedAxes := 32
  pointCount count :=
    if count < 0 then .error .negativeCount
    else if 0x8000000000000000 - 0x200 ≤ count ∧ count ≤ 0x8000000000000000 + 0x400 then .ok 0
    else if 0x1000000000000000 - 0x40 ≤ count then .error .arrayTooLarge
    else if 0x100000000000 ≤ count then .error .outOfMemory
    else .ok count.toNat

theorem roomy_words : (words : ArrayLimits α).Roomy where
  pointCount_of_lt h0 h := by
    simp only [words]
    rw [if_neg (by omega), if_neg (by omega), if_neg (by omega), if_neg (by omega)]
  lt_of_pointCount h := by
    simp only [words] at h
    repeat' split at h
    all_goals cases h
    all_goals omega

end ArrayLimits
end GoodeMap
