/-!
# Values of a TOML document

A document is a table. Keys with dots and headers open the tables on their way; a table
opened on the way only is implied, and may be defined once more where it keeps what it
has. Everything else is defined once.
-/
namespace Stackwork.Toml

/-- A value. Of floats and points in time only that they are there is kept. -/
inductive Value where
  | text (s : String)
  | integer (n : Int)
  | float
  | moment
  | boolean (b : Bool)
  | array (items : List Value)
  | table (implied : Bool) (fields : List (String × Value))
  /-- Tables that headers add one after the other. -/
  | tables (items : List (List (String × Value)))
deriving Inhabited

/-- The entries of a table, in the order of their first mention. -/
abbrev Fields := List (String × Value)

namespace Fields

/-- Change or add the value of a key. -/
def update (key : String) (f : Option Value → Option Value) : Fields → Option Fields
  | [] => (f none).map fun v => [(key, v)]
  | (k, v) :: rest =>
    if k = key then (f (some v)).map fun v => (k, v) :: rest
    else (update key f rest).map ((k, v) :: ·)

/-- Change the table at the end of a path. Tables that are missing are opened; with
`settle` those that are there are no longer implied. The last of several tables stands
for all of them. -/
def within (settle : Bool) (f : Fields → Option Fields) : List String → Fields → Option Fields
  | [], fields => f fields
  | key :: path, fields => fields.update key fun
    | none => (within settle f path []).map (.table true)
    | some (.table implied inner) => (within settle f path inner).map (.table (implied && !settle))
    | some (.tables items) => do
      let last ← items.getLast?
      return .tables (items.dropLast ++ [← within settle f path last])
    | some _ => none

/-- Define a key. A plain value for an implied table leaves it as it is. -/
def define (key : String) (v : Value) (fields : Fields) : Option Fields :=
  fields.update key fun
    | none => some v
    | some (.table true inner) =>
      match v with
      | .table .. => none
      | _ => some (.table false inner)
    | some _ => none

/-- Define a key with dots. -/
def assign (path : List String) (v : Value) (fields : Fields) : Option Fields := do
  within true (define (← path.getLast?) v) path.dropLast fields

/-- Begin the table of a header. -/
def openTable (path : List String) (fields : Fields) : Option Fields := do
  let begin : Option Value → Option Value := fun
    | none => some (.table false [])
    | some (.table true inner) => some (.table false inner)
    | some _ => none
  within false (update (← path.getLast?) begin) path.dropLast fields

/-- Begin one more table of a repeated header. -/
def openNext (path : List String) (fields : Fields) : Option Fields := do
  let begin : Option Value → Option Value := fun
    | none => some (.tables [[]])
    | some (.tables items) => some (.tables (items ++ [[]]))
    | some _ => none
  within false (update (← path.getLast?) begin) path.dropLast fields

end Fields
end Stackwork.Toml
