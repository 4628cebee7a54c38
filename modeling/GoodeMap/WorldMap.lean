import GoodeMap.Homolosine
import GoodeMap.Longitude
import GoodeMap.Parameters
import GoodeMap.Distortion
import GoodeMap.Logging.Entry

/-!
Maps in real-world units. A unit-sphere core is turned to a central meridian, scaled by a radius and moved
to a false origin. The core works in any monad with failures, so one that records its calls serves as
well.
-/
namespace GoodeMap

structure Core (m : Type → Type) (α : Type) where
  forward : α → α → m (α × α)
  inverse : α → α → m (α × α)

inductive Family where
  | sinusoidal
  | mollweide
  | homolosine
  | reference
deriving Repr, DecidableEq

namespace Family

def keyword : Family → String
  | sinusoidal => "sinu"
  | mollweide => "moll"
  | homolosine | reference => "igh"

def registry : List (String × Family) :=
  [("Goode_Homolosine", homolosine), ("Homolosine", homolosine), ("Mollweide", mollweide),
   ("Sinusoidal", sinusoidal)]

def ofName? (name : String) : Option Family :=
  (registry.find? fun e => e.1.toLower = name.toLower).map (·.2)

def withMapping {U α : Type} [Scalar α] (units : UnitRegistry U α) (name : String)
    (given : List (String × Given U α)) : Except (Failure α) (Family × Parameters α) :=
  match ofName? name with
  | some f => (Parameters.ofMapping units given).map (f, ·)
  | none => .error (.unknownProjection name (registry.map (·.1)))

def preservesAngles (_ : Family) : Bool := false

def preservesArea (_ : Family) : Bool := true

def title (f : Family) (centralMeridian : Float) : String :=
  let place := " (CM=" ++ Decimal.general 5 (Scalar.toDegrees centralMeridian) ++ "°)"
  match f with
  | sinusoidal => "Sinusoidal" ++ place
  | mollweide => "Mollweide" ++ place
  | homolosine => "Goode Homolosine" ++ place
  | reference => "Goode Homolosine (PROJ)"

end Family

structure WorldMap (m : Type → Type) (α : Type) where
  family : Family
  parameters : Parameters α
  core : Core m α

namespace Core
variable {α : Type} [Scalar α]

def sinusoidal : Core (Except (Failure α)) α := ⟨Sinusoidal.forward, Sinusoidal.inverse⟩

def mollweide (p : Mollweide α) : Core (Except (Failure α)) α := ⟨p.forward, Mollweide.inverse⟩

def homolosine (g : Homolosine α) : Core (Except (Failure α)) α := ⟨g.forward, g.inverse⟩

def lift {m : Type → Type} [Monad m] [MonadExceptOf (Failure α) m]
    (c : Core (Except (Failure α)) α) : Core m α :=
  ⟨fun lam phi => liftExcept (c.forward lam phi), fun x y => liftExcept (c.inverse x y)⟩

def traced (g : Homolosine α) : Core (Traced α) α :=
  ⟨g.forwardIn Traced.record, g.inverseIn Traced.record⟩

def ofFamilyWith (p : Mollweide α) (reference : Core (Except (Failure α)) α) :
    Family → Except (Failure α) (Core (Except (Failure α)) α)
  | .sinusoidal => .ok sinusoidal
  | .mollweide => .ok (mollweide p)
  | .homolosine => do return homolosine (← Homolosine.usual p)
  | .reference => .ok reference

def ofFamily (reference : Core (Except (Failure α)) α) : Family → Except (Failure α) (Core (Except (Failure α)) α) :=
  ofFamilyWith (Mollweide.newton Mollweide.Budget.standard) reference

def tracedOfFamily : Family → Except (Failure α) (Core (Traced α) α)
  | .homolosine => do return traced (← Homolosine.standard)
  | _ => .error .unexpectedArgument

end Core

namespace WorldMap
variable {m : Type → Type} {α : Type} [Scalar α]

def radius (w : WorldMap m α) : α := w.parameters.radius

def givenParameters (w : WorldMap m α) : Except (Failure α) (Parameters α) :=
  match w.family with
  | .reference => .error .noParameters
  | _ => .ok w.parameters

def project [Monad m] (w : WorldMap m α) (lat lon : α) : m (α × α) := do
  let (x, y) ← w.core.forward (Longitude.normalize (lon - w.parameters.centralMeridian)) lat
  return (w.radius * x + w.parameters.falseEasting, w.radius * y + w.parameters.falseNorthing)

def locate [Monad m] (w : WorldMap m α) (x y : α) : m (α × α) := do
  let (lam, phi) ← w.core.inverse ((x - w.parameters.falseEasting) / w.radius)
    ((y - w.parameters.falseNorthing) / w.radius)
  return (phi, Longitude.normalize (lam + w.parameters.centralMeridian))

def unproject [Monad m] [MonadExceptOf (Failure α) m] (w : WorldMap m α) (x y : α) : m (α × α) :=
  match w.family with
  | .reference => tryCatch (w.locate x y) fun _ => throw (Failure.notOnMap x y)
  | _ => w.locate x y

def distortion [Monad m] [MonadExceptOf (Failure α) m] (w : WorldMap m α) (lat lon delta : α) :
    m (Indicatrix α) :=
  Distortion.indicatrix w.project w.radius lat lon delta

def title (w : WorldMap m Float) : String := w.family.title w.parameters.centralMeridian

def definition (w : WorldMap m Float) : String :=
  "+proj=" ++ w.family.keyword ++ " " ++ w.parameters.definition

def notices (w : WorldMap m Float) : List LogEntry :=
  if w.family = .reference ∨ w.parameters.IsSphere then []
  else [⟨LogEntry.mapLogger, Severity.info,
    w.title ++ " is spherical; using semi-major axis " ++ Decimal.fixed 3 w.radius
      ++ " m as sphere radius"⟩]

end WorldMap
end GoodeMap
