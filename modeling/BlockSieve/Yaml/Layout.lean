import BlockSieve.Yaml.Token

/-!
From a document to its tokens. Indentation opens and closes block
collections, and a colon may turn the node before it into a key. Such a node
is remembered as a candidate when it begins; it must end on its line and
within a limited number of characters. Where a colon follows, the tokens that
open the key are put in front of the candidate.
-/

namespace BlockSieve.Yaml

/-- A node that may turn out to be a key: the number of tokens before it, where it begins, and
whether nothing but a key may begin there. -/
structure Candidate where
  before : Nat
  index : Nat
  line : Nat
  column : Nat
  required : Bool
  deriving DecidableEq

/-- How far a key may reach. -/
def keyLimit : Nat := 1024

/-- Whether a candidate can no longer be a key when the document is read up to `c`. -/
def Candidate.expired (c : Cursor) (k : Candidate) : Bool :=
  decide (k.line < c.line) || decide (k.index + keyLimit < c.index)

/-- A document that is read up to its cursor: the tokens so far, with the latest first, the columns
of the block collections that are open, with the innermost first, the candidate of the innermost
flow collection and those of the collections around it, and whether a key may begin next. -/
structure Layout where
  cursor : Cursor
  tokens : List Token
  columns : List Nat
  candidate : Option Candidate
  outer : List (Option Candidate)
  keyAllowed : Bool

namespace Layout

/-- A document of which nothing is read yet. -/
def start (t : Text) : Layout := ⟨Cursor.ofText t, [], [], none, [], true⟩

/-- Whether the cursor is inside a flow collection. -/
def flow (s : Layout) : Bool := !s.outer.isEmpty

/-- The least column that lines inside the innermost block collection can have. -/
def inner (s : Layout) : Nat :=
  match s.columns with
  | [] => 0
  | column :: _ => column + 1

/-! ### Tokens and indentation -/

/-- Adds a token that the cursor then stands after. -/
def emit (t : Token) (c : Cursor) (s : Layout) : Layout :=
  { s with tokens := t :: s.tokens, cursor := c }

/-- Adds a token of `n` characters. -/
def emitSign (t : Token) (n : Nat) (s : Layout) : Layout := s.emit t (s.cursor.skip n)

/-- Puts a token after the first `n` ones. -/
def insert (n : Nat) (t : Token) (s : Layout) : Layout :=
  { s with tokens := s.tokens.insertIdx (s.tokens.length - n) t }

/-- Opens a block collection at a column if that is deeper than the one around it, after the first
`n` tokens. -/
def openBlock (t : Token) (column n : Nat) (s : Layout) : Layout :=
  if !s.flow && decide (s.inner ≤ column) then
    { s.insert n t with columns := column :: s.columns }
  else s

/-- Closes the block collections from the column `least` on. -/
def closeBlocks (least : Nat) (s : Layout) : Layout :=
  if s.flow then s
  else
    let closed := s.columns.takeWhile (least ≤ ·)
    { s with
      columns := s.columns.dropWhile (least ≤ ·)
      tokens := List.replicate closed.length .blockEnd ++ s.tokens }

/-! ### Candidates -/

/-- Gives up the candidate, which is refused if it has to be a key. -/
def giveUp? (s : Layout) : Option Layout :=
  match s.candidate with
  | none => some s
  | some k => if k.required then none else some { s with candidate := none }

/-- Gives up all candidates that can no longer be keys. -/
def expire? (s : Layout) : Option Layout :=
  let stale (k : Option Candidate) : Bool := k.any (·.expired s.cursor)
  if (s.candidate :: s.outer).any fun k => stale k && k.any (·.required) then none
  else
    let kept (k : Option Candidate) : Option Candidate := if stale k then none else k
    some { s with candidate := kept s.candidate, outer := s.outer.map kept }

/-- Remembers the node that begins at the cursor, if a key may begin there. No key may begin right
after it. -/
def remember? (s : Layout) : Option Layout :=
  if s.keyAllowed then do
    let s ← s.giveUp?
    let c := s.cursor
    let required := !s.flow && s.columns.head? == some c.column
    some { s with
      candidate := some ⟨s.tokens.length, c.index, c.line, c.column, required⟩
      keyAllowed := false }
  else some s

/-! ### Signs -/

/-- The mark that begins or ends a document. -/
def documentMark? (t : Token) (s : Layout) : Option Layout := do
  let s ← (s.closeBlocks 0).giveUp?
  some ({ s with keyAllowed := false }.emitSign t 3)

/-- A directive. -/
def directive? (s : Layout) : Option Layout := do
  let s ← (s.closeBlocks 0).giveUp?
  let (t, c) ← Token.directive? s.cursor
  some ({ s with keyAllowed := false }.emit t c)

/-- The beginning of a flow collection. -/
def openFlow? (t : Token) (s : Layout) : Option Layout := do
  let s ← s.remember?
  let s := { s with outer := s.candidate :: s.outer, candidate := none, keyAllowed := true }
  some (s.emitSign t 1)

/-- The end of a flow collection. What comes before it there cannot be a key any more. -/
def closeFlow? (t : Token) (s : Layout) : Option Layout := do
  let s ← s.giveUp?
  let s := match s.outer with
    | [] => s
    | candidate :: outer => { s with candidate := candidate, outer := outer }
  some ({ s with keyAllowed := false }.emitSign t 1)

/-- The comma between the entries of a flow collection. -/
def comma? (s : Layout) : Option Layout := do
  let s ← s.giveUp?
  some ({ s with keyAllowed := true }.emitSign .comma 1)

/-- The sign of a new entry in a block, which opens a collection where the line goes deeper. -/
def entry? (collection : Token) (s : Layout) : Option Layout :=
  if s.flow then some s
  else if s.keyAllowed then some (s.openBlock collection s.cursor.column s.tokens.length)
  else none

/-- The dash before an item. -/
def dash? (s : Layout) : Option Layout := do
  let s ← (← s.entry? .blockSequence).giveUp?
  some ({ s with keyAllowed := true }.emitSign .dash 1)

/-- The question mark before a key. -/
def question? (s : Layout) : Option Layout := do
  let s ← (← s.entry? .blockMapping).giveUp?
  some ({ s with keyAllowed := !s.flow }.emitSign .key 1)

/-- The colon before a value. It makes the candidate a key. -/
def colon? (s : Layout) : Option Layout :=
  match s.candidate with
  | some k =>
    let s := (s.insert k.before .key).openBlock .blockMapping k.column k.before
    some ({ s with candidate := none, keyAllowed := false }.emitSign .value 1)
  | none => do
    let s ← s.entry? .blockMapping
    some ({ s with keyAllowed := !s.flow }.emitSign .value 1)

/-! ### Nodes -/

/-- An anchor or an alias. -/
def name? (token : Text → Token) (s : Layout) : Option Layout := do
  let s ← s.remember?
  let (name, c) ← Token.name? (s.cursor.skip 1)
  some ({ s with keyAllowed := false }.emit (token name) c)

/-- A tag. -/
def tag? (s : Layout) : Option Layout := do
  let s ← s.remember?
  let (t, c) ← Token.tag? s.flow s.cursor
  some ({ s with keyAllowed := false }.emit t c)

/-- A scalar in a block. A key may begin after it. -/
def blockScalar? (literal : Bool) (s : Layout) : Option Layout := do
  let s ← s.giveUp?
  let (t, c) ← block? literal s.inner s.cursor
  some ({ s with keyAllowed := true }.emit (.scalar false t) c)

/-- A quoted scalar. -/
def quotedScalar? (q : Char) (s : Layout) : Option Layout := do
  let s ← s.remember?
  let (t, c) ← quoted? q s.cursor
  some ({ s with keyAllowed := false }.emit (.scalar false t) c)

/-- A plain scalar. A key may begin after it if line breaks follow. -/
def plainScalar? (s : Layout) : Option Layout := do
  let s ← s.remember?
  let ((t, broken), c) ← plain? s.flow s.inner s.cursor
  some ({ s with keyAllowed := broken }.emit (.scalar true t) c)

/-! ### Documents -/

/-- The characters that stand for something else at the beginning of a node. -/
def signs : List Char :=
  ['-', '?', ':', ',', '[', ']', '\x7b', '\x7d', '#', '&', '*', '!', '|', '>', '\'', '"', '%', '@',
    '\x60']

/-- Whether a plain scalar can begin with `ch` before `rest`. -/
def beginsPlain (flow : Bool) (ch : Char) (rest : Text) : Bool :=
  !(isGap ch || isBreak ch || signs.contains ch) || (ch == '-' && !beginsWith [' ', '\t'] rest) ||
    (!flow && (ch == '?' || ch == ':') && !edge rest)

/-- Reads the token that begins with `ch` before `rest`. -/
def token? (ch : Char) (rest : Text) (s : Layout) : Option Layout :=
  if s.cursor.column = 0 ∧ ch = '%' then s.directive?
  else if s.cursor.marked '-' then s.documentMark? .documentStart
  else if s.cursor.marked '.' then s.documentMark? .documentEnd
  else if ch = '[' then s.openFlow? .openBracket
  else if ch = '\x7b' then s.openFlow? .openBrace
  else if ch = ']' then s.closeFlow? .closeBracket
  else if ch = '\x7d' then s.closeFlow? .closeBrace
  else if ch = ',' then s.comma?
  else if ch = '-' ∧ edge rest then s.dash?
  else if ch = '?' ∧ (s.flow ∨ edge rest) then s.question?
  else if ch = ':' ∧ (s.flow ∨ edge rest) then s.colon?
  else if ch = '*' then s.name? .alias
  else if ch = '&' then s.name? .anchor
  else if ch = '!' then s.tag?
  else if ch = '|' ∧ !s.flow then s.blockScalar? true
  else if ch = '>' ∧ !s.flow then s.blockScalar? false
  else if ch = '\'' ∨ ch = '"' then s.quotedScalar? ch
  else if beginsPlain s.flow ch rest then s.plainScalar?
  else none

/-- The cursor at the next token, and whether a key may begin there. Tabs may not stand where one
could. -/
def toToken (flow allowed : Bool) (c : Cursor) : Cursor × Bool :=
  let inner := c.skipWhile fun ch => ch == ' ' || ((flow || !allowed) && ch == '\t')
  let tail := if beginsWith ['#'] inner.rest then inner.skipWhile (!isBreak ·) else inner
  match tail.break? with
  | none => (tail, allowed)
  | some (_, after) =>
    if after.rest.length < c.rest.length then toToken flow (allowed || !flow) after
    else (tail, allowed)
termination_by c.rest.length

/-- The layout at its next token, where lines that are less deep have closed their collections. -/
def atToken? (s : Layout) : Option Layout := do
  let (c, allowed) := toToken s.flow s.keyAllowed s.cursor
  let s ← { s with cursor := c, keyAllowed := allowed }.expire?
  some (s.closeBlocks (c.column + 1))

/-- Reads the tokens up to the end of the document. -/
def readAll? (s : Layout) : Option Layout :=
  match s.atToken? with
  | none => none
  | some ready =>
    match ready.cursor.rest with
    | [] => (ready.closeBlocks 0).giveUp?
    | ch :: rest =>
      match ready.token? ch rest with
      | none => none
      | some next => if next.cursor.rest.length < s.cursor.rest.length then next.readAll? else none
termination_by s.cursor.rest.length

end Layout

/-- The tokens of a document. -/
def tokens? (t : Text) : Option (List Token) :=
  if t.all isPrintable then (Layout.start t).readAll?.map (·.tokens.reverse) else none

end BlockSieve.Yaml
