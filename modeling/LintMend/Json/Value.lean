import LintMend.Outcome

/-!
# JSON values

Values keep what their text says: fields in order and with repetitions, integers exactly. The
decoders at the end give the rules by which records of a program are read: a record may be an object
or an array of its fields in order, other fields of an object are passed over, and a field given
twice is refused.
-/

namespace LintMend

/-- A JSON value.

A `decimal` is a number that is not written as an integer, as it is spelled. Minus zero is one.
A `broken` value is well formed but has no meaning: a string that escapes half of a surrogate pair,
or an object with such a key. -/
inductive Json where
  | null
  | bool (b : Bool)
  | integer (n : Int)
  | decimal (spelling : String)
  | string (text : String)
  | array (items : List Json)
  | object (fields : List (String × Json))
  | broken
deriving Repr, Inhabited

namespace Json

instance : Coe Bool Json := ⟨.bool⟩

instance : Coe String Json := ⟨.string⟩

/-- A natural number. -/
def ofNat (n : Nat) : Json := .integer n

instance : Coe Nat Json := ⟨ofNat⟩

/-- `null` for no value. -/
def ofOption {α : Type} (encode : α → Json) : Option α → Json
  | some a => encode a
  | none => .null

/-- An array of encoded values. -/
def ofList {α : Type} (encode : α → Json) (as : List α) : Json := .array (as.map encode)

/-! ## Decoding -/

/-- A natural number that fits a machine word. -/
def word? : Json → Option Nat
  | .integer (.ofNat n) => if n < wordLimit then some n else none
  | _ => none

def text? : Json → Option String
  | .string s => some s
  | _ => none

/-- The items of an array, each decoded. -/
def list? {α : Type} (decode : Json → Option α) : Json → Option (List α)
  | .array items => items.mapM decode
  | _ => none

/-- A value that may be `null`. -/
def nullable? {α : Type} (decode : Json → Option α) : Json → Option (Option α)
  | .null => some none
  | j => (decode j).map some

/-- A pair, written as an array of two. -/
def pair? {α β : Type} (first : Json → Option α) (second : Json → Option β) :
    Json → Option (α × β)
  | .array [a, b] => do return (← first a, ← second b)
  | _ => none

/-- One of some names, written as a string or as an object that maps the name to `null`. -/
def choice? {α : Type} (ofName : String → Option α) : Json → Option α
  | .string name => ofName name
  | .object [(name, .null)] => ofName name
  | _ => none

/-- The value of a field; refused if the field is given twice. -/
def field? (fields : List (String × Json)) (name : String) : Option (Option Json) :=
  match fields.filter (·.1 == name) with
  | [] => some none
  | [(_, value)] => some (some value)
  | _ => none

/-- The values of the fields of a record, in the order of the names. -/
def record? (names : List String) : Json → Option (List (Option Json))
  | .object fields => names.mapM (field? fields)
  | .array items =>
    if items.length ≤ names.length then
      some (items.map some ++ List.replicate (names.length - items.length) none)
    else none
  | _ => none

/-- The value of a field that has to be there. -/
def required? {α : Type} (decode : Json → Option α) (value : Option Json) : Option α :=
  value.bind decode

/-- The value of a field, with one to take if it is missing. -/
def withDefault? {α : Type} (decode : Json → Option α) (fallback : α) :
    Option Json → Option α
  | none => some fallback
  | some value => decode value

end Json

end LintMend
