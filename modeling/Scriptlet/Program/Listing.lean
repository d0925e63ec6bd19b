import Scriptlet.Json.Basic
import Scriptlet.Number.Decimal
import Scriptlet.Program.Basic

/-!
The JSON form of a program.

A node is an object with the node itself and its span. A node without parts is the text of its name;
any other is an object whose one field is named for it and holds its parts, either the only part or
an object of named parts. A part that is absent is null. A number that is not finite has no JSON form
and is null too, so a program is read back from its form exactly if all its numbers are finite.

`Program.toJson` writes the form and `Program.ofJson?` reads it. The reader is more lenient than the
writer: an absent part may be left out, unknown fields are passed over, a node without parts may be
an object with null, and an object that is not the parts of a node may be the array of its fields.
-/
namespace Scriptlet

namespace Span

def toJson (s : Span) : Json :=
  .object [("start", .ofNat s.start), ("end", .ofNat s.stop)]

end Span

/-- A node with its span. -/
def Json.spanned (node : Json) (span : Span) : Json :=
  .object [("node", node), ("span", span.toJson)]

/-- A node with its parts. -/
def Json.variant (name : String) (parts : Json) : Json :=
  .object [(name, parts)]

def Located.toJson {α : Type} (encode : α → Json) (x : Located α) : Json :=
  .spanned (encode x.val) x.span

namespace BinaryOp

def all : List BinaryOp :=
  [add, sub, mul, div, mod, eq, ne, lt, le, gt, ge, and, or]

def listing : BinaryOp → String
  | add => "Add" | sub => "Sub" | mul => "Mul" | div => "Div" | mod => "Mod" | eq => "Eq"
  | ne => "Ne" | lt => "Lt" | le => "Le" | gt => "Gt" | ge => "Ge" | and => "And" | or => "Or"

end BinaryOp

namespace UnaryOp

def all : List UnaryOp :=
  [not, neg, pos, typeOf, stringify]

def listing : UnaryOp → String
  | not => "Not" | neg => "Neg" | pos => "Pos" | typeOf => "TypeOf" | stringify => "Stringify"

end UnaryOp

/-! ### Writing -/

section Writing

variable (number : Float → Json)

mutual

def Expr.toJson : Expr Unit → Json
  | .number span x => .spanned (.variant "Number" (number x)) span
  | .text span s => .spanned (.variant "Str" (.string s)) span
  | .bool span b => .spanned (.variant "Bool" (.bool b)) span
  | .nil span => .spanned (.string "Nil") span
  | .array span items => .spanned (.variant "Array" (.array (Expr.listToJson items))) span
  | .group span inner => .spanned (.variant "Grouping" (inner.toJson)) span
  | .name span global x =>
    .spanned (.variant "Var" (.object [("name", .string x), ("global", .bool global)])) span
  | .binary span op left right =>
    .spanned (.variant "Binary" (.object
      [("left", left.toJson), ("op", .string op.listing), ("right", right.toJson)])) span
  | .unary span op operand =>
    .spanned (.variant "Unary" (.object
      [("op", .string op.listing), ("expr", operand.toJson)])) span
  | .conditional span test yes no =>
    .spanned (.variant "Conditional" (.object
      [("cond", test.toJson), ("then_branch", yes.toJson), ("else_branch", no.toJson)])) span
  | .call span callee args =>
    .spanned (.variant "Call" (.object
      [("callee", callee.toJson), ("args", .array (Expr.listToJson args))])) span
  | .index span target i =>
    .spanned (.variant "Index" (.object
      [("target", target.toJson), ("index", i.toJson)])) span
  | .slice span target start stop =>
    .spanned (.variant "Slice" (.object
      [("target", target.toJson), ("start", Expr.optionToJson start),
        ("end", Expr.optionToJson stop)])) span
  | .assign span global constant x value =>
    .spanned (.variant "Assign" (.object
      [("name", .string x), ("global", .bool global), ("constant", .bool constant),
        ("value", value.toJson)])) span
  | .assignIndex span global constant x i value =>
    .spanned (.variant "IndexAssign" (.object
      [("name", .string x), ("global", .bool global), ("constant", .bool constant),
        ("index", i.toJson), ("value", value.toJson)])) span
  | .function span _ params body =>
    .spanned (.variant "Function" (.object
      [("params", .array (params.map (Located.toJson .string))),
        ("body", .array (Stmt.listToJson body))])) span

def Expr.listToJson : List (Expr Unit) → List Json
  | [] => []
  | e :: es => e.toJson :: Expr.listToJson es

def Expr.optionToJson : Option (Expr Unit) → Json
  | none => .null
  | some e => e.toJson

def Stmt.toJson : Stmt Unit → Json
  | .expr span e => .spanned (.variant "Expr" e.toJson) span
  | .block span body => .spanned (.variant "Block" (.array (Stmt.listToJson body))) span
  | .cond span test yes no =>
    .spanned (.variant "If" (.object
      [("cond", test.toJson), ("then_branch", .array (Stmt.listToJson yes)),
        ("else_branch", Stmt.optionToJson no)])) span
  | .while span test body =>
    .spanned (.variant "While" (.object
      [("cond", test.toJson), ("body", .array (Stmt.listToJson body))])) span
  | .range span x cmp first last body =>
    .spanned (.variant "Range" (.object
      [("var", x.toJson .string), ("cmp", cmp.toJson fun op => .string op.listing),
        ("start", first.toJson), ("end", last.toJson),
        ("body", .array (Stmt.listToJson body))])) span
  | .break span => .spanned (.string "Break") span
  | .continue span => .spanned (.string "Continue") span
  | .return span value => .spanned (.variant "Return" (Expr.optionToJson value)) span

def Stmt.listToJson : List (Stmt Unit) → List Json
  | [] => []
  | s :: ss => s.toJson :: Stmt.listToJson ss

def Stmt.optionToJson : Option (List (Stmt Unit)) → Json
  | none => .null
  | some ss => .array (Stmt.listToJson ss)

end

/-- The JSON form of a program, with numbers written by `number`. -/
def Program.toJsonWith (p : Program) : Json :=
  .object [("body", .array (Stmt.listToJson number p.body))]

end Writing

/-- The JSON form of a number. -/
def Json.ofNumber (x : Float) : Json :=
  if Number.isFinite x then .float x else .null

/-- The JSON form of a program. -/
def Program.toJson (p : Program) : Json :=
  p.toJsonWith Json.ofNumber

/-! ### Reading -/

namespace Json

def nat? : Json → Option Nat
  | int (.ofNat n) => some n
  | _ => none

def number? : Json → Option Float
  | int (.ofNat n) => some (Number.Decimal.mk n 0).toFloat
  | int (.negSucc n) => some (-(Number.Decimal.mk (n + 1) 0).toFloat)
  | float x => some x
  | _ => none

def string? : Json → Option String
  | string s => some s
  | _ => none

def bool? : Json → Option Bool
  | bool b => some b
  | _ => none

def array? : Json → Option (List Json)
  | array items => some items
  | _ => none

/-- The two fields of a record. -/
def pair? (first second : String) : Json → Option (Json × Json)
  | array [a, b] => some (a, b)
  | object fields => do
    let a ← (object fields).field? first
    let b ← (object fields).field? second
    return (a, b)
  | _ => none

/-- The name of a node and its parts. -/
def variant? : Json → Option (String × Option Json)
  | string name => some (name, none)
  | object [(name, parts)] => some (name, some parts)
  | _ => none

/-- The name of a node without parts. -/
def unit? (j : Json) : Option String :=
  match j.variant? with
  | some (name, none) => some name
  | some (name, some null) => some name
  | _ => none

/-- A field that may be null or missing. -/
def optional? {α : Type} (decode : Json → Option α) (name : String) (j : Json) :
    Option (Option α) :=
  match j.field? name with
  | none => some none
  | some null => some none
  | some value => (decode value).map some

/-- How deeply arrays and objects are nested. -/
def depth : Json → Nat
  | array items => listDepth items + 1
  | object fields => fieldsDepth fields + 1
  | _ => 1
where
  listDepth : List Json → Nat
    | [] => 0
    | item :: items => max (depth item) (listDepth items)
  fieldsDepth : List (String × Json) → Nat
    | [] => 0
    | (_, value) :: fields => max (depth value) (fieldsDepth fields)

end Json

def Span.ofJson? (j : Json) : Option Span := do
  let (start, stop) ← j.pair? "start" "end"
  return ⟨← start.nat?, ← stop.nat?⟩

def Json.spanned? (j : Json) : Option (Json × Span) := do
  let (node, span) ← j.pair? "node" "span"
  return (node, ← Span.ofJson? span)

def Located.ofJson? {α : Type} (decode : Json → Option α) (j : Json) : Option (Located α) := do
  let (node, span) ← j.spanned?
  return ⟨← decode node, span⟩

def BinaryOp.ofJson? (j : Json) : Option BinaryOp := do
  let name ← j.unit?
  BinaryOp.all.find? (·.listing == name)

def UnaryOp.ofJson? (j : Json) : Option UnaryOp := do
  let name ← j.unit?
  UnaryOp.all.find? (·.listing == name)

mutual

def Expr.ofJson? : Nat → Json → Option (Expr Unit)
  | 0, _ => none
  | fuel + 1, j => do
    let (node, span) ← j.spanned?
    match ← node.variant? with
    | ("Nil", none) | ("Nil", some .null) => return .nil span
    | ("Number", some parts) => return .number span (← parts.number?)
    | ("Str", some parts) => return .text span (← parts.string?)
    | ("Bool", some parts) => return .bool span (← parts.bool?)
    | ("Array", some (.array items)) => return .array span (← items.mapM (Expr.ofJson? fuel))
    | ("Grouping", some parts) => return .group span (← Expr.ofJson? fuel parts)
    | ("Function", some parts) =>
      let (params, body) ← parts.pair? "params" "body"
      return .function span ()
        (← (← params.array?).mapM (Located.ofJson? Json.string?))
        (← (← body.array?).mapM (Stmt.ofJson? fuel))
    | (name, some (.object fields)) => Expr.ofFields? fuel span name (.object fields)
    | _ => none

/-- A node with named parts. -/
def Expr.ofFields? : Nat → Span → String → Json → Option (Expr Unit)
  | 0, _, _, _ => none
  | fuel + 1, span, name, parts =>
    let text (part : String) := (parts.field? part).bind Json.string?
    let flag (part : String) := (parts.field? part).bind Json.bool?
    let expr (part : String) := (parts.field? part).bind (Expr.ofJson? fuel)
    match name with
    | "Var" => return .name span (← flag "global") (← text "name")
    | "Binary" =>
      return .binary span (← (parts.field? "op").bind BinaryOp.ofJson?)
        (← expr "left") (← expr "right")
    | "Unary" =>
      return .unary span (← (parts.field? "op").bind UnaryOp.ofJson?) (← expr "expr")
    | "Conditional" =>
      return .conditional span (← expr "cond") (← expr "then_branch") (← expr "else_branch")
    | "Call" => do
      let args ← (parts.field? "args").bind Json.array?
      return .call span (← expr "callee") (← args.mapM (Expr.ofJson? fuel))
    | "Index" => return .index span (← expr "target") (← expr "index")
    | "Slice" =>
      return .slice span (← expr "target") (← parts.optional? (Expr.ofJson? fuel) "start")
        (← parts.optional? (Expr.ofJson? fuel) "end")
    | "Assign" =>
      return .assign span (← flag "global") (← flag "constant") (← text "name") (← expr "value")
    | "IndexAssign" =>
      return .assignIndex span (← flag "global") (← flag "constant") (← text "name")
        (← expr "index") (← expr "value")
    | _ => none

def Stmt.ofJson? : Nat → Json → Option (Stmt Unit)
  | 0, _ => none
  | fuel + 1, j => do
    let (node, span) ← j.spanned?
    match ← node.variant? with
    | ("Break", none) | ("Break", some .null) => return .break span
    | ("Continue", none) | ("Continue", some .null) => return .continue span
    | ("Return", some .null) => return .return span none
    | ("Return", some parts) => return .return span (some (← Expr.ofJson? fuel parts))
    | ("Expr", some parts) => return .expr span (← Expr.ofJson? fuel parts)
    | ("Block", some (.array items)) => return .block span (← items.mapM (Stmt.ofJson? fuel))
    | (name, some (.object fields)) => Stmt.ofFields? fuel span name (.object fields)
    | _ => none

def Stmt.ofFields? : Nat → Span → String → Json → Option (Stmt Unit)
  | 0, _, _, _ => none
  | fuel + 1, span, name, parts =>
    let expr (part : String) := (parts.field? part).bind (Expr.ofJson? fuel)
    let block (part : String) := do
      let items ← (parts.field? part).bind Json.array?
      items.mapM (Stmt.ofJson? fuel)
    match name with
    | "If" =>
      let no (j : Json) := do (← j.array?).mapM (Stmt.ofJson? fuel)
      return .cond span (← expr "cond") (← block "then_branch") (← parts.optional? no "else_branch")
    | "While" => return .while span (← expr "cond") (← block "body")
    | "Range" =>
      return .range span
        (← (parts.field? "var").bind (Located.ofJson? Json.string?))
        (← (parts.field? "cmp").bind (Located.ofJson? BinaryOp.ofJson?))
        (← expr "start") (← expr "end") (← block "body")
    | _ => none

end

/-- The program that a JSON value is the form of. Every node is nested deeper than the one around it,
and takes two calls at most. -/
def Program.ofJson? (j : Json) : Option Program := do
  let body ← match j with
    | .array [body] => some body
    | j => j.field? "body"
  let statements ← (← body.array?).mapM (Stmt.ofJson? (2 * j.depth))
  return ⟨statements⟩

end Scriptlet
