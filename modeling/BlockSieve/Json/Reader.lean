import BlockSieve.Json.Token

/-!
Reading a JSON value from its tokens. What has been opened and not yet closed
is kept on a stack, so every token is looked at once and values may nest to
any depth.
-/

namespace BlockSieve.Json

/-- An array or object that is open: what it holds so far, the latest first, and for an object the
key whose value comes next. -/
inductive Frame where
  | array (before : List Value)
  | object (before : List (Written × Value)) (key : Written)

/-- What may come next. -/
inductive Expecting where
  | item
  | itemOrClose
  | key (before : List (Written × Value))
  | keyOrClose
  | colon (before : List (Written × Value)) (key : Written)
  | after (v : Value)

/-- Reads the rest of a document, given what may come next and what is open. -/
def readFrom : Expecting → List Frame → List Token → Option Value
  | .after v, [], [] => some v
  | .after v, .array before :: frames, .comma :: rest =>
    readFrom .item (.array (v :: before) :: frames) rest
  | .after v, .array before :: frames, .closeArray :: rest =>
    readFrom (.after (.array (v :: before).reverse)) frames rest
  | .after v, .object before k :: frames, .comma :: rest =>
    readFrom (.key ((k, v) :: before)) frames rest
  | .after v, .object before k :: frames, .closeObject :: rest =>
    readFrom (.after (.object ((k, v) :: before).reverse)) frames rest
  | .itemOrClose, .array [] :: frames, .closeArray :: rest =>
    readFrom (.after (.array [])) frames rest
  | .keyOrClose, frames, .closeObject :: rest => readFrom (.after (.object [])) frames rest
  | .keyOrClose, frames, .string k :: rest => readFrom (.colon [] k) frames rest
  | .key before, frames, .string k :: rest => readFrom (.colon before k) frames rest
  | .colon before k, frames, .colon :: rest => readFrom .item (.object before k :: frames) rest
  | .item, frames, token :: rest => readItem frames token rest
  | .itemOrClose, frames, token :: rest => readItem frames token rest
  | _, _, _ => none
where
  /-- Reads a document from the first token of a value on. -/
  readItem (frames : List Frame) (token : Token) (rest : List Token) : Option Value :=
    match token with
    | .null => readFrom (.after .null) frames rest
    | .bool b => readFrom (.after (.bool b)) frames rest
    | .number n => readFrom (.after (.number n)) frames rest
    | .string s => readFrom (.after (.string s)) frames rest
    | .openArray => readFrom .itemOrClose (.array [] :: frames) rest
    | .openObject => readFrom .keyOrClose frames rest
    | _ => none

/-- The value that a document holds. -/
def read? (t : Text) : Option Value := do
  readFrom .item [] (← Token.all? t)

end BlockSieve.Json
