/-!
The functions that the language brings with it.

An arity code below 256 is a number of arguments; from 256 on it stands for at least as many as its
excess over 256.
-/
namespace Scriptlet

inductive Native where
  | print | input | clock | len | append | extend | merge | insert | index | count | pop | remove
  | clear | number
  deriving DecidableEq, Repr

inductive Arity where
  | exactly (n : Nat)
  | atLeast (n : Nat)
  deriving DecidableEq, Repr

namespace Arity

def variadic : Nat := 256

def ofCode (code : Nat) : Arity :=
  if code < variadic then exactly code else atLeast (code - variadic)

def accepts : Arity → Nat → Bool
  | exactly n, count => count == n
  | atLeast n, count => n ≤ count

def text : Arity → String
  | exactly n => toString n
  | atLeast n => s!"at least {n}"

end Arity

namespace Native

/-- All natives, in the order in which they are listed. -/
def all : List Native :=
  [print, input, clock, len, append, extend, merge, insert, index, count, pop, remove, clear,
    number]

def name : Native → String
  | print => "print" | input => "input" | clock => "clock" | len => "len" | append => "append"
  | extend => "extend" | merge => "merge" | insert => "insert" | index => "index"
  | count => "count" | pop => "pop" | remove => "remove" | clear => "clear" | number => "number"

def arityCode : Native → Nat
  | print => Arity.variadic + 1
  | input | clock => 0
  | len | clear | number => 1
  | index | count => 2
  | insert => 3
  | append | extend | merge | pop | remove => Arity.variadic + 2

def arity (n : Native) : Arity :=
  .ofCode n.arityCode

/-- The names of the parameters. -/
def params : Native → List String
  | print => ["values"]
  | input | clock => []
  | len | clear => ["sequence"]
  | append => ["sequence", "values"]
  | extend | merge => ["sequence", "others"]
  | insert => ["sequence", "index", "value"]
  | index | count => ["sequence", "value"]
  | pop => ["sequence", "indices"]
  | remove => ["sequence", "values"]
  | number => ["value"]

/-- The name and the parameters; dots mark a parameter that takes any number of arguments. -/
def signature (n : Native) : String :=
  let dots := match n.arity with
    | .atLeast _ => if n.params.isEmpty then "" else "..."
    | .exactly _ => ""
  n.name ++ "(" ++ ", ".intercalate n.params ++ dots ++ ")"

def ofName? (name : String) : Option Native :=
  all.find? (·.name == name)

end Native
end Scriptlet
