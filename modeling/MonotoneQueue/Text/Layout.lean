/- Descriptions of nested values, on one line or with one item a line. A description is a tree
   (`Layout`) that knows nothing about the style; `render` writes it in either.

   Correspondence:
     `debug_struct`, `field`, a derived `Debug`   ↔ `record`, `field`
     `debug_tuple`, `debug_list`                  ↔ `wrapped`, `list`
     `{:?}`, `{:#?}`                              ↔ `Style.compact`, `Style.expanded` -/
namespace MonotoneQueue.Text

/-- How a description is laid out. -/
inductive Style where
  /-- All on one line. -/
  | compact
  /-- Every item of a group on lines of its own, indented and followed by a comma. -/
  | expanded
  deriving DecidableEq, Repr

/-- The parts of a description. -/
inductive Layout where
  | atom (text : String)
  | field (label : String) (body : Layout)
  /-- Items between two marks; `padding` stands inside the marks on one line. -/
  | group (opening closing padding : String) (items : List Layout)

namespace Layout

/-- A named record: `name { a: 1, b: 2 }`. -/
def record (name : String) (fields : List Layout) : Layout :=
  .group (name ++ " \x7b") "\x7d" " " fields

/-- A constructor applied to one value: `name(value)`. -/
def wrapped (name : String) (body : Layout) : Layout := .group (name ++ "(") ")" "" [body]

/-- A list: `[1, 2]`. -/
def list (items : List Layout) : Layout := .group "[" "]" "" items

/-- A number in decimal. -/
def number (n : Nat) : Layout := .atom (toString n)

mutual

/-- The description on one line. -/
def line : Layout → String
  | .atom text => text
  | .field label body => label ++ ": " ++ line body
  | .group opening closing _ [] => opening ++ closing
  | .group opening closing padding (first :: rest) =>
    opening ++ padding ++ line first ++ restLine rest ++ padding ++ closing

/-- The items after the first, each behind a comma. -/
def restLine : List Layout → String
  | [] => ""
  | item :: rest => ", " ++ line item ++ restLine rest

end

/-- Four blanks for every level. -/
def indent (depth : Nat) : String := "".pushn ' ' (4 * depth)

mutual

/-- The description over several lines, the first of which is already indented to `depth`. -/
def lines (depth : Nat) : Layout → String
  | .atom text => text
  | .field label body => label ++ ": " ++ lines depth body
  | .group opening closing _ [] => opening ++ closing
  | .group opening closing _ (first :: rest) =>
    opening ++ "\n" ++ indent (depth + 1) ++ lines (depth + 1) first ++ ",\n" ++
      restLines (depth + 1) rest ++ indent depth ++ closing

/-- The items after the first, each on lines of its own. -/
def restLines (depth : Nat) : List Layout → String
  | [] => ""
  | item :: rest => indent depth ++ lines depth item ++ ",\n" ++ restLines depth rest

end

/-- The text of a description. -/
def render : Style → Layout → String
  | .compact, layout => layout.line
  | .expanded, layout => layout.lines 0

/-! A record with a list in it, in both styles. An empty group has nothing between its marks. -/

example : (record "R" [.field "a" (.number 1), .field "b" (.list [.number 2])]).render .compact =
    "R \x7b a: 1, b: [2] \x7d" := by decide +kernel

example : (record "R" [.field "a" (.number 1), .field "b" (.list [.number 2])]).render .expanded =
    "R \x7b\n    a: 1,\n    b: [\n        2,\n    ],\n\x7d" := by decide +kernel

example (style : Style) : (list []).render style = "[]" := by cases style <;> decide +kernel

end Layout

end MonotoneQueue.Text
