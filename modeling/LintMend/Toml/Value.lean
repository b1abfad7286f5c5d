import LintMend.Number.Double
import LintMend.Outcome

/-!
# TOML values

Tables are kept in the order of their keys, each key once. A date or time is kept in its usual
spelling.
-/

namespace LintMend

/-- A TOML value. -/
inductive Toml where
  | string (text : String)
  | integer (n : Int)
  | float (x : Double)
  | boolean (b : Bool)
  | datetime (spelling : String)
  | array (items : List Toml)
  | table (entries : List (String × Toml))
deriving Repr, Inhabited

namespace Toml

/-- Entries in the order of their keys. -/
def sortEntries {α : Type} (entries : List (String × α)) : List (String × α) :=
  entries.mergeSort fun a b => decide (a.1 ≤ b.1)

/-- The value of a key. -/
def lookup? {α : Type} (entries : List (String × α)) (key : String) : Option α :=
  (entries.find? (·.1 == key)).map (·.2)

def text? : Toml → Option String
  | .string s => some s
  | _ => none

def boolean? : Toml → Option Bool
  | .boolean b => some b
  | _ => none

/-- A number that is not negative. -/
def natural? : Toml → Option Nat
  | .integer (.ofNat n) => some n
  | _ => none

def list? {α : Type} (decode : Toml → Option α) : Toml → Option (List α)
  | .array items => items.mapM decode
  | _ => none

/-- The key under which a date stands where a table is expected. -/
def datetimeKey : String := "$__toml_private_datetime"

/-- The entries of a table. A date counts as a table with one entry. -/
def entries? : Toml → Option (List (String × Toml))
  | .table entries => some entries
  | .datetime spelling => some [(datetimeKey, .string spelling)]
  | _ => none

/-- The values of the fields of a record, in the order of the names. A record may be written as an
array of its fields; further items are passed over. -/
def record? (names : List String) : Toml → Option (List (Option Toml))
  | .array items => some (names.mapIdx fun i _ => items[i]?)
  | value => value.entries?.map fun entries => names.map (lookup? entries)

/-- The value of a field, with one to take if it is missing. -/
def withDefault? {α : Type} (decode : Toml → Option α) (fallback : α) : Option Toml → Option α
  | none => some fallback
  | some value => decode value

end Toml

end LintMend
