import ResponsiveImage.Number.Basic
import ResponsiveImage.Text.Quoted

/-!
# JSON values

A JSON value keeps the difference between integers and other numbers, and the order of the members of
an object. In messages a value is shown with its own spelling of the constants and with quoted text.
-/

namespace ResponsiveImage.Json

inductive Value where
  | null
  | bool (b : Bool)
  | int (n : Int)
  | float (x : Binary64)
  | string (s : String)
  | array (values : List Value)
  | object (members : List (String × Value))
deriving Inhabited

namespace Value

/-- The number that a value is, if it is one. -/
def number? : Value → Option Number
  | .int n => some (.int n)
  | .float x => some (.float x)
  | .bool b => some (.flag b)
  | _ => none

def ofNumber : Number → Value
  | .int n => .int n
  | .float x => .float x
  | .flag b => .bool b

@[simp] theorem number?_ofNumber (n : Number) : (ofNumber n).number? = some n := by
  cases n <;> rfl

def string? : Value → Option String
  | .string s => some s
  | _ => none

/-- Whether a value counts as true: all but null, false, zero, and what is empty. -/
def truthy : Value → Bool
  | .null => false
  | .bool b => b
  | .int n => n != 0
  | .float x => !x.isZero
  | .string s => s != ""
  | .array values => !values.isEmpty
  | .object members => !members.isEmpty

mutual

/-- A value as messages show it inside another one. -/
def shown : Value → String
  | .null => "None"
  | .bool b => if b then "True" else "False"
  | .int n => toString n
  | .float x => x.text
  | .string s => Text.quoted s
  | .array values => "[" ++ ", ".intercalate (showAll values) ++ "]"
  | .object members => "\x7b" ++ ", ".intercalate (showMembers members) ++ "\x7d"

def showAll : List Value → List String
  | [] => []
  | v :: vs => v.shown :: showAll vs

def showMembers : List (String × Value) → List String
  | [] => []
  | (key, v) :: ms => (Text.quoted key ++ ": " ++ v.shown) :: showMembers ms

end

/-- A value as messages show it: a text stands for itself. -/
def text : Value → String
  | .string s => s
  | v => v.shown

end Value

/-- Sets the member of a key, in its place if there is one and else at the end. -/
def setMember {κ α : Type} [DecidableEq κ] (key : κ) (v : α) : List (κ × α) → List (κ × α)
  | [] => [(key, v)]
  | (k, w) :: ms => if k = key then (key, v) :: ms else (k, w) :: setMember key v ms

end ResponsiveImage.Json
