import GoodeMap.Finding
import GoodeMap.Failure.Detail

/-!
Why a call fails: one constructor for each cause, with the data that describe it. Causes fall into kinds,
by which callers decide what to catch.
-/
namespace GoodeMap

inductive FailureKind where
  | projection
  | domain
  | convergence
  | configuration
  | lookup
  | value
  | argument
  | index
  | overflow
  | zeroDivision
  | undefinedUnit
  | unsupported
  | memory
  | missing
deriving Repr, DecidableEq

namespace FailureKind

def isProjection : FailureKind → Bool
  | projection | domain | convergence | configuration => true
  | _ => false

def isValue : FailureKind → Bool
  | value | domain | configuration => true
  | _ => false

def isArithmetic : FailureKind → Bool
  | convergence | overflow | zeroDivision => true
  | _ => false

end FailureKind

inductive Failure (α : Type) where
  | latitudeRange (latitude : α)
  | longitudeRange (longitude : α)
  | latitudeOf (projection : String) (phi : α)
  | beyondPole (x y : α)
  | beyondEllipse (x y : α)
  | unsettled (budget : Int) (phi estimate : α)
  | noLobes (table : String)
  | boundaryCount (table : String) (lobes boundaries : Nat)
  | tableNotFinite (table : String)
  | boundariesNotIncreasing (table : String) (boundaries : List α)
  | boundariesNotSpanning (table : String) (boundaries : List α)
  | meridianOutsideLobe (table : String) (lobe : Nat) (meridian : α)
  | outsideTable (table : String) (coordinate west east : α)
  | noSuchLobe
  | offGlobe (lam phi : α)
  | offMap (x y : α)
  | interruption (x y : α) (hemisphere : Hemisphere) (lobe : Nat) (lam : α)
  | inLobe (hemisphere : Hemisphere) (lobe : Nat) (cause : Failure α)
  | parametersNotFinite (values : List (String × α))
  | axesNotPositive (semiMajor semiMinor : α)
  | axesReversed (semiMajor semiMinor : α)
  | unknownParameters (names recognized : List String)
  | incompatibleUnit (expected : String) (magnitude : α) (unit : String)
  | unknownProjection (name : String) (available : List String)
  | notOnMap (x y : α)
  | violated (finding : Finding α)
  | nothingRecorded
  | unknownErrorMode (mode : Detail)
  | notANumber
  | notNumeric
  | unexpectedArgument
  | integerTooLarge
  | unknownUnit (name : String)
  | raggedArray
  | tooManyAxes
  | tooManyStretchedAxes
  | shapeMismatch
  | notAScalar
  | loneEntry
  | notAnArray
  | emptySample
  | negativeCount
  | arrayTooLarge
  | outOfMemory
  | noAuxiliaryAngle
  | noParameters
  | squareOverflow
  | zeroDivision

namespace Failure
variable {α : Type}

def kind : Failure α → FailureKind
  | latitudeRange .. | longitudeRange .. | latitudeOf .. | beyondPole .. | beyondEllipse ..
  | outsideTable .. | offGlobe .. | offMap .. | interruption .. | notOnMap .. => .domain
  | unsettled .. => .convergence
  | noLobes .. | boundaryCount .. | tableNotFinite .. | boundariesNotIncreasing ..
  | boundariesNotSpanning .. | meridianOutsideLobe .. | parametersNotFinite ..
  | axesNotPositive .. | axesReversed .. | unknownParameters .. | incompatibleUnit ..
  | unknownProjection .. => .configuration
  | inLobe _ _ cause => cause.kind
  | violated .. => .projection
  | nothingRecorded => .lookup
  | unknownErrorMode .. | notANumber | raggedArray | tooManyAxes | shapeMismatch | notAScalar
  | emptySample | negativeCount | arrayTooLarge => .value
  | notNumeric | unexpectedArgument | loneEntry | notAnArray => .argument
  | noSuchLobe => .index
  | integerTooLarge | squareOverflow => .overflow
  | zeroDivision => .zeroDivision
  | unknownUnit .. => .undefinedUnit
  | tooManyStretchedAxes => .unsupported
  | outOfMemory => .memory
  | noAuxiliaryAngle | noParameters => .missing

end Failure
end GoodeMap
