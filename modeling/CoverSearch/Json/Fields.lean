import CoverSearch.Json.Magnitude

/-!
# Reading values of a known shape

* `Json.word?`, `Json.text?`, `Json.float?`, `Json.items?` : one value of a given type;
* `Json.fields?` : the fields of a structure, written as an object or as an array in declaration order.
-/

namespace CoverSearch.Json

/-- A natural number below `2 ^ 64`, written as such. -/
def word? : Json → Option UInt64
  | .number n => n.word?
  | _ => none

def float? : Json → Option Float
  | .number n => n.float?
  | _ => none

def text? : Json → Option String
  | .string s => s.decode?.map String.ofList
  | _ => none

/-- An array of values that each can be read. -/
def items? (read : Json → Option α) : Json → Option (List α)
  | .array items => items.mapM read
  | _ => none

/-- The only value under one of the accepted names, if there is one; `none` when there are more. -/
def field? (fields : List (List Char × Json)) (accepted : List String) : Option (Option Json) :=
  match fields.filter fun f => accepted.contains (String.ofList f.1) with
  | [] => some none
  | [f] => some (some f.2)
  | _ => none

/-- The values of the fields of a structure, each known by its accepted names. Fields of an object may come in any
order among unknown ones, but not twice; an array has them in order and may end early. -/
def fields? (names : List (List String)) : Json → Option (List (Option Json))
  | .array items =>
    if items.length ≤ names.length then
      some ((items.map some) ++ List.replicate (names.length - items.length) none)
    else none
  | .object fields => do
    let fields ← fields.mapM fun (key, v) => key.decode?.map (·, v)
    names.mapM (field? fields)
  | _ => none

/-- A value that has to be there. -/
def required (read : Json → Option α) (v : Option Json) : Option α := v.bind read

/-- A value that may be left out. -/
def optional (read : Json → Option α) (default : α) : Option Json → Option α
  | none => some default
  | some v => read v

end CoverSearch.Json
