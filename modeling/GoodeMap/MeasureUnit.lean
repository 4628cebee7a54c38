import GoodeMap.Scalar
import GoodeMap.UnitRegistry

/-!
The registry of units in use. Plain ratios count as angles; lengths and angles never convert into each other.
-/
namespace GoodeMap

inductive MeasureUnit where
  | degree | radian | arcminute | arcsecond | milliradian | turn | grade
  | dimensionless | percent | ppm
  | meter | kilometer | centimeter | millimeter | micrometer | foot | mile | inch | yard
  | nauticalMile
  | second | kilogram | kelvin | meterPerSecond | squareMeter
deriving Repr, DecidableEq

inductive Dimension where
  | angle | length | time | mass | temperature | speed | area
deriving Repr, DecidableEq

namespace MeasureUnit

def name : MeasureUnit → String
  | degree => "degree"
  | radian => "radian"
  | arcminute => "arcminute"
  | arcsecond => "arcsecond"
  | milliradian => "milliradian"
  | turn => "turn"
  | grade => "grade"
  | dimensionless => "dimensionless"
  | percent => "percent"
  | ppm => "ppm"
  | meter => "meter"
  | kilometer => "kilometer"
  | centimeter => "centimeter"
  | millimeter => "millimeter"
  | micrometer => "micrometer"
  | foot => "foot"
  | mile => "mile"
  | inch => "inch"
  | yard => "yard"
  | nauticalMile => "nautical_mile"
  | second => "second"
  | kilogram => "kilogram"
  | kelvin => "kelvin"
  | meterPerSecond => "meter / second"
  | squareMeter => "meter ** 2"

def all : List MeasureUnit :=
  [degree, radian, arcminute, arcsecond, milliradian, turn, grade, dimensionless, percent, ppm,
   meter, kilometer, centimeter, millimeter, micrometer, foot, mile, inch, yard, nauticalMile,
   second, kilogram, kelvin, meterPerSecond, squareMeter]

def synonyms : List (String × MeasureUnit) :=
  [("gradian", grade), ("m", meter), ("km", kilometer)]

def ofName? (s : String) : Option MeasureUnit :=
  (synonyms.lookup s).or (all.find? fun u => u.name == s)

def dimension : MeasureUnit → Dimension
  | degree | radian | arcminute | arcsecond | milliradian | turn | grade
  | dimensionless | percent | ppm => .angle
  | meter | kilometer | centimeter | millimeter | micrometer | foot | mile | inch | yard
  | nauticalMile => .length
  | second => .time
  | kilogram => .mass
  | kelvin => .temperature
  | meterPerSecond => .speed
  | squareMeter => .area

/-- Size in the main unit of the dimension, the radian and the meter among them. -/
def size {α : Type} [Scalar α] : MeasureUnit → α
  | degree => 0.017453292519943295
  | radian => 1.0
  | arcminute => 0.00029088820866572163
  | arcsecond => 4.84813681109536e-06
  | milliradian => 0.001
  | turn => 6.283185307179586
  | grade => 0.015707963267948967
  | dimensionless => 1.0
  | percent => 0.01
  | ppm => 1e-06
  | meter => 1.0
  | kilometer => 1000.0
  | centimeter => 0.01
  | millimeter => 0.001
  | micrometer => 1e-06
  | foot => 0.30479999999999996
  | mile => 1609.344
  | inch => 0.0254
  | yard => 0.9144
  | nauticalMile => 1852.0
  | second | kilogram | kelvin | meterPerSecond | squareMeter => 1.0

def factor {α : Type} [Scalar α] (u v : MeasureUnit) : α := u.size / v.size

def registry {α : Type} [Scalar α] : UnitRegistry MeasureUnit α where
  named? := ofName?
  text := name
  convert? x u v := if u.dimension = v.dimension then some (x * u.factor v) else none

theorem multiplies_registry {α : Type} [Scalar α] :
    (registry : UnitRegistry MeasureUnit α).Multiplies dimension factor where
  convert_of_eq h := if_pos h
  convert_of_ne h := if_neg h
  angles := ⟨degree, radian, rfl, rfl, rfl⟩
  lengths := ⟨meter, rfl⟩

end MeasureUnit
end GoodeMap
