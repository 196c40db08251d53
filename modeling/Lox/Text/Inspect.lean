import Lox.Text.Quoted

/-!
# Inspection text

The one-line form in which a value shows its own structure: a name with fields in braces, a name
with parts in parentheses, or items in brackets.
-/

namespace Lox.Inspect

/-- A name and its fields in braces. -/
def record (name : String) (fields : List (String × String)) : String :=
  name ++ " \x7b " ++ ", ".intercalate (fields.map fun (field, value) => field ++ ": " ++ value)
    ++ " \x7d"

/-- A name and its parts in parentheses. -/
def tuple (name : String) (parts : List String) : String :=
  name ++ "(" ++ ", ".intercalate parts ++ ")"

/-- Items in brackets. -/
def list (items : List String) : String :=
  "[" ++ ", ".intercalate items ++ "]"

def option {α : Type} (inspect : α → String) : Option α → String
  | none => "None"
  | some value => tuple "Some" [inspect value]

def bool (value : Bool) : String :=
  if value then "true" else "false"

def nat (value : Nat) : String :=
  toString value

end Lox.Inspect
