import BlockSieve.Text.Cut
import BlockSieve.Text.Utf8

/-!
Paths as text with forward slashes. A path is made from any text by turning
backslashes into slashes. Its parent, its file name and what is appended to
it leave slashes at its end aside.
-/

namespace BlockSieve

/-- A path, spelled as it is shown and as it is handed to the disk. -/
structure Path where
  text : Text
  deriving DecidableEq

namespace Path

/-- The path that a text names: its backslashes become slashes. -/
def ofText (t : Text) : Path := ⟨t.map fun c => if c = '\\' then '/' else c⟩

/-- The path that a sequence of bytes names. -/
def ofBytes (b : Bytes) : Path := ofText (Utf8.decode b)

/-- A text without the slashes it ends with. -/
def dropSlashes (t : Text) : Text := (t.reverse.dropWhile (· == '/')).reverse

/-- The path of the directory that holds the last name. A name without a slash before it has none,
and neither does a path of slashes only. -/
def parent? (p : Path) : Option Path :=
  match Text.cutLast '/' (dropSlashes p.text) with
  | none => none
  | some ([], _) => some ⟨['/']⟩
  | some (before, _) => some ⟨before⟩

/-- The last name of a path. -/
def fileName? (p : Path) : Option Text :=
  let trimmed := dropSlashes p.text
  let name := match Text.cutLast '/' trimmed with
    | none => trimmed
    | some (_, after) => after
  if name = [] then none else some name

/-- What follows the last dot of the file name, unless that dot begins it. -/
def extension? (p : Path) : Option Text :=
  match p.fileName?.bind (Text.cutLast '.') with
  | none => none
  | some ([], _) => none
  | some (_, after) => some after

/-- The path with a text appended to its last name. -/
def withSuffix (p : Path) (suffix : Text) : Path := ⟨dropSlashes p.text ++ suffix⟩

/-- Where the copy of a file is kept: beside it, with `.backup` after its name. -/
def backup (p : Path) : Path := p.withSuffix ".backup".toList

end Path

end BlockSieve
