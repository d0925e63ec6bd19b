/-!
JSON values.

Whole numbers and other numbers are kept apart, since a whole number can serve as an offset and a
number with a point cannot. An object keeps its fields in the order in which they are written.
-/
namespace Scriptlet

inductive Json where
  | null
  | bool (b : Bool)
  | int (n : Int)
  | float (x : Float)
  | string (s : String)
  | array (items : List Json)
  | object (fields : List (String × Json))

namespace Json

/-- The field of an object, or nothing if it is absent or this is no object; the last of several
fields of one name counts. -/
def field? (name : String) : Json → Option Json
  | object fields => (fields.reverse.find? (·.1 == name)).map (·.2)
  | _ => none

def ofNat (n : Nat) : Json :=
  int n

end Json
end Scriptlet
