import GoodeMap.Failure

/-!
The texts of findings and failures, and the details a failure carries.
-/
namespace GoodeMap

def Finding.message : Finding Float → String
  | .roundTrip error _ points =>
    "Round trip: max error " ++ Decimal.scientific 3 error ++ " rad over " ++ toString points
      ++ " points"
  | .lobeCoverage problems =>
    "Lobe coverage: " ++ toString problems.length ++ " ambiguous or misassigned longitudes"
  | .seamContinuity jump .. => "Seam continuity: max jump " ++ Decimal.scientific 3 jump
  | .hemisphereSymmetry north south =>
    "Seam offset: north=" ++ Decimal.fixed 10 north ++ ", south=" ++ Decimal.fixed 10 south
  | .regionClassification mismatches points =>
    "Region classification: " ++ toString mismatches ++ " mismatches over " ++ toString points
      ++ " points"
  | .equalArea deviation _ =>
    "Equal area: max area-scale deviation " ++ Decimal.scientific 3 deviation

namespace Failure

def message : Failure Float → String
  | latitudeRange latitude =>
    "Latitude " ++ Decimal.shortest latitude
      ++ " rad out of range [-π/2, π/2]. Did you pass degrees instead of radians?"
  | longitudeRange longitude =>
    "Longitude " ++ Decimal.shortest longitude ++ " rad out of range [-π, π]"
  | latitudeOf .. | offGlobe .. => "Latitude outside [-π/2, π/2]"
  | beyondPole .. => "Planar y beyond the pole"
  | beyondEllipse .. => "Planar y outside the Mollweide ellipse"
  | unsettled budget .. =>
    "Auxiliary angle did not converge in " ++ toString budget ++ " iterations"
  | noLobes .. => "Lobe table has no lobes"
  | boundaryCount _ lobes boundaries =>
    "Lobe table needs " ++ toString (lobes + 1) ++ " boundaries for " ++ toString lobes
      ++ " central meridians, got " ++ toString boundaries
  | tableNotFinite .. => "Lobe table contains non-finite values"
  | boundariesNotIncreasing .. => "Lobe boundaries must be strictly increasing"
  | boundariesNotSpanning .. => "Lobe boundaries must span [-π, π]"
  | meridianOutsideLobe .. => "Central meridian outside its lobe"
  | outsideTable .. => "Coordinate outside lobe table"
  | noSuchLobe => "Lobe index out of range"
  | offMap .. => "Planar y beyond the poles"
  | interruption .. => "Planar point falls inside an interruption"
  | inLobe _ _ cause => cause.message
  | parametersNotFinite .. => "Projection parameters must be finite"
  | axesNotPositive .. => "Semi-axes must be positive"
  | axesReversed .. => "Semi-minor axis larger than semi-major axis"
  | unknownParameters names _ => "Unknown projection parameters: " ++ ", ".intercalate names
  | incompatibleUnit expected _ unit =>
    "Incompatible units: expected " ++ expected ++ ", got " ++ unit
  | unknownProjection name _ => "Unknown projection '" ++ name ++ "'"
  | notOnMap .. => "Point is not on the map"
  | violated finding => finding.message
  | nothingRecorded => "No trace events recorded"
  | unknownErrorMode mode => "errors must be 'raise' or 'nan', got " ++ mode.render
  | notANumber => "Text is not a number"
  | notNumeric => "Value has no number"
  | unexpectedArgument => "Unexpected argument"
  | integerTooLarge => "Integer too large"
  | unknownUnit name => "Unknown unit " ++ name
  | raggedArray => "Array rows differ in shape"
  | tooManyAxes => "Array has too many axes"
  | tooManyStretchedAxes => "Array has too many axes to be stretched"
  | shapeMismatch => "Array shapes do not match"
  | notAScalar => "One number expected, got an array"
  | loneEntry => "Array of one number given for a number"
  | notAnArray => "Array expected, got a number"
  | emptySample => "Maximum of an empty sample"
  | negativeCount => "Negative number of samples"
  | arrayTooLarge => "Array too large"
  | outOfMemory => "Out of memory"
  | noAuxiliaryAngle => "Projection without an auxiliary angle"
  | noParameters => "Map gives out no parameters"
  | squareOverflow => "Square too large"
  | zeroDivision => "Division by zero"

def context : Failure Float → Context
  | latitudeRange latitude => [("latitude", .number latitude)]
  | longitudeRange longitude => [("longitude", .number longitude)]
  | latitudeOf projection phi => [("projection", .text projection), ("phi", .number phi)]
  | beyondPole x y => [("projection", .text "Sinusoidal"), ("x", .number x), ("y", .number y)]
  | beyondEllipse x y => [("projection", .text "Mollweide"), ("x", .number x), ("y", .number y)]
  | unsettled _ phi estimate =>
    [("projection", .text "Mollweide"), ("phi", .number phi), ("last_estimate", .number estimate)]
  | noLobes table | boundaryCount table .. | tableNotFinite table => [("table", .text table)]
  | boundariesNotIncreasing table boundaries | boundariesNotSpanning table boundaries =>
    [("table", .text table), ("boundaries", .tuple (boundaries.map .number))]
  | meridianOutsideLobe table lobe meridian =>
    [("table", .text table), ("lobe", .whole lobe), ("central_meridian", .number meridian)]
  | outsideTable table coordinate west east =>
    [("table", .text table), ("coordinate", .number coordinate),
     ("range", .tuple [.number west, .number east])]
  | offGlobe lam phi => [("lam", .number lam), ("phi", .number phi)]
  | offMap x y | notOnMap x y => [("x", .number x), ("y", .number y)]
  | interruption x y hemisphere lobe lam =>
    [("x", .number x), ("y", .number y), ("hemisphere", .text hemisphere.name),
     ("lobe", .whole lobe), ("lam", .number lam)]
  | inLobe hemisphere lobe cause =>
    Context.update cause.context [("hemisphere", .text hemisphere.name), ("lobe", .whole lobe)]
  | parametersNotFinite values => values.map fun v => (v.1, .number v.2)
  | axesNotPositive semiMajor semiMinor | axesReversed semiMajor semiMinor =>
    [("semi_major", .number semiMajor), ("semi_minor", .number semiMinor)]
  | unknownParameters _ recognized => [("recognized", .tuple (recognized.map .text))]
  | incompatibleUnit _ magnitude unit =>
    [("value", .text (Decimal.shortest magnitude ++ " " ++ unit))]
  | unknownProjection _ available => [("available", .list (available.map .text))]
  | violated finding => [("check", .text finding.test)]
  | _ => []

def report (f : Failure Float) : Report := ⟨f.message, f.context⟩

end Failure
end GoodeMap
