import CoverSearch.Json.Token

/-!
# Reading JSON

The reader takes one token at a time and keeps the arrays and objects that are still open, innermost
first, so the depth of a text is not limited.

* `Json.Reader` : the open containers and what may come next;
* `Json.Reader.step?` : one token;
* `Json.parse?` : the value of a text that holds one value and nothing else.
-/

namespace CoverSearch.Json

/-- A container that is still open, with the items before the current one, last first. -/
inductive Frame
  | array (done : List Json)
  | object (done : List (Text × Json)) (key : Text)

/-- What may come next. -/
inductive Expected
  | value
  | itemOrClose
  | keyOrClose
  | key (done : List (Text × Json))
  | colon (done : List (Text × Json)) (key : Text)
  /-- The value has ended: a comma or a closing bracket. -/
  | separator (v : Json)

structure Reader where
  expected : Expected
  frames : List Frame

namespace Reader

/-- At the start of a text. -/
def start : Reader := ⟨.value, []⟩

/-- The first token of a value. -/
def beginValue? (frames : List Frame) : Token → Option Reader
  | .null => some ⟨.separator .null, frames⟩
  | .bool b => some ⟨.separator (.bool b), frames⟩
  | .number n => some ⟨.separator (.number n), frames⟩
  | .string s => some ⟨.separator (.string s), frames⟩
  | .openArray => some ⟨.itemOrClose, frames⟩
  | .openObject => some ⟨.keyOrClose, frames⟩
  | _ => none

/-- The token after a value. -/
def endValue? (v : Json) : List Frame → Token → Option Reader
  | .array done :: frames, .comma => some ⟨.value, .array (v :: done) :: frames⟩
  | .array done :: frames, .closeArray => some ⟨.separator (.array (v :: done).reverse), frames⟩
  | .object done k :: frames, .comma => some ⟨.key ((k, v) :: done), frames⟩
  | .object done k :: frames, .closeObject => some ⟨.separator (.object ((k, v) :: done).reverse), frames⟩
  | _, _ => none

/-- One token, unless it cannot come next. -/
def step? (r : Reader) (t : Token) : Option Reader :=
  match r.expected, t with
  | .value, t => beginValue? r.frames t
  | .itemOrClose, .closeArray => some ⟨.separator (.array []), r.frames⟩
  | .itemOrClose, t => beginValue? (.array [] :: r.frames) t
  | .keyOrClose, .closeObject => some ⟨.separator (.object []), r.frames⟩
  | .keyOrClose, .string k => some ⟨.colon [] k, r.frames⟩
  | .key done, .string k => some ⟨.colon done k, r.frames⟩
  | .colon done k, .colon => some ⟨.value, .object done k :: r.frames⟩
  | .separator v, t => endValue? v r.frames t
  | _, _ => none

def run? (r : Reader) : List Token → Option Reader
  | [] => some r
  | t :: ts =>
    match r.step? t with
    | none => none
    | some r => run? r ts

/-- The value that has been read, if it is complete. -/
def result? : Reader → Option Json
  | ⟨.separator v, []⟩ => some v
  | _ => none

end Reader

/-- The value of a text that holds one value and nothing else. -/
def parse? (text : String) : Option Json := do
  (← Reader.start.run? (← tokens? text.toList)).result?

end CoverSearch.Json
