/-!
# Records as text

How records, lists and values that may be missing are written out on one line for a reader.
-/

namespace ByteMatch.Text

/-- A record: its name, and its fields with their values. -/
def record (name : String) (fields : List (String × String)) : String :=
  let written := fields.map fun field => field.1 ++ ": " ++ field.2
  name ++ " \x7b " ++ ", ".intercalate written ++ " \x7d"

/-- A list. -/
def sequence (items : List String) : String := "[" ++ ", ".intercalate items ++ "]"

/-- A number that may be missing. -/
def optional : Option Nat → String
  | none => "None"
  | some n => "Some(" ++ toString n ++ ")"

/-- A truth value. -/
def truth (b : Bool) : String := if b then "true" else "false"

end ByteMatch.Text
