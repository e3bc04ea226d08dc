import Repaint.Binary.Decimal
import Repaint.Geometry

/-!
# JSON text

JSON values and their text on indented lines. The fields of an object are written in ascending order of their
names. Strings are labels of this library, which have no character that JSON would escape.
-/

namespace Repaint

/-- A JSON value. -/
inductive Json where
  | count (n : Nat)
  /-- A double, written in the fewest digits; JSON has no text for one that is not finite. -/
  | real (x : Coord)
  | flag (b : Bool)
  | label (s : String)
  | list (items : List Json)
  | object (fields : List (String × Json))

namespace Json

/-- A field put in front of the first one whose name does not come before its own. -/
def insertField (field : String × Json) : List (String × Json) → List (String × Json)
  | [] => [field]
  | next :: fields =>
    if field.1 ≤ next.1 then field :: next :: fields else next :: insertField field fields

/-- An object, its fields in ascending order of their names. -/
def sorted (fields : List (String × Json)) : Json := .object (fields.foldr insertField [])

/-- A new line, indented by a number of steps. -/
def newline (depth : Nat) : String := "\n" ++ String.ofList (List.replicate (2 * depth) ' ')

/-- Items on lines of their own between two marks. -/
def block (depth : Nat) (first last : String) (items : List String) : String :=
  if items.isEmpty then first ++ last
  else
    let lines := items.map (fun item => newline (depth + 1) ++ item)
    first ++ String.join (lines.intersperse ",") ++ newline depth ++ last

/-- A label in quotes. -/
def quoted (s : String) : String := "\"" ++ s ++ "\""

mutual

/-- The text of a value that begins on a line indented by `depth` steps. -/
def text (depth : Nat) : Json → String
  | .count n => toString n
  | .real x => if x.isFinite then x.shortest else "null"
  | .flag b => if b then "true" else "false"
  | .label s => quoted s
  | .list items => block depth "[" "]" (itemTexts (depth + 1) items)
  | .object fields => block depth "\x7b" "\x7d" (fieldTexts (depth + 1) fields)

/-- The texts of the items of a list. -/
def itemTexts (depth : Nat) : List Json → List String
  | [] => []
  | item :: items => text depth item :: itemTexts depth items

/-- The texts of the fields of an object. -/
def fieldTexts (depth : Nat) : List (String × Json) → List String
  | [] => []
  | (name, value) :: fields => (quoted name ++ ": " ++ text depth value) :: fieldTexts depth fields

end

end Json

end Repaint
