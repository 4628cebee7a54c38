import GoodeMap.Decimal.Shortest
import GoodeMap.Text.Quoted

/-!
Values that describe a failure, and the named values in the order they were given.
-/
namespace GoodeMap

inductive Detail where
  | absent
  | truth (b : Bool)
  | whole (n : Int)
  | number (x : Float)
  | text (s : String)
  | list (items : List Detail)
  | tuple (items : List Detail)
  | entries (items : List (String × Detail))
deriving Inhabited

namespace Detail

mutual

def render : Detail → String
  | absent => "None"
  | truth b => if b then "True" else "False"
  | whole n => toString n
  | number x => Decimal.shortest x
  | text s => Text.quoted s
  | list items => "[" ++ ", ".intercalate (renderAll items) ++ "]"
  | tuple [item] => "(" ++ render item ++ ",)"
  | tuple items => "(" ++ ", ".intercalate (renderAll items) ++ ")"
  | entries items => "\x7b" ++ ", ".intercalate (renderEntries items) ++ "\x7d"

def renderAll : List Detail → List String
  | [] => []
  | item :: items => render item :: renderAll items

def renderEntries : List (String × Detail) → List String
  | [] => []
  | (key, item) :: items => (Text.quoted key ++ ": " ++ render item) :: renderEntries items

end

end Detail

abbrev Context := List (String × Detail)

namespace Context

def put : Context → String → Detail → Context
  | [], key, value => [(key, value)]
  | (k, v) :: rest, key, value =>
    if k = key then (key, value) :: rest else (k, v) :: put rest key value

def update (c : Context) (entries : List (String × Detail)) : Context :=
  entries.foldl (fun c e => put c e.1 e.2) c

def ofEntries (entries : List (String × Detail)) : Context := update [] entries

def keys (c : Context) : List String := c.map (·.1)

end Context

structure Report where
  message : String
  context : Context

def Report.render (r : Report) : String :=
  if r.context.isEmpty then r.message
  else
    let entries := r.context.map fun e => e.1 ++ "=" ++ e.2.render
    r.message ++ " (" ++ ", ".intercalate entries ++ ")"

end GoodeMap
