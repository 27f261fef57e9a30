import BlockSieve.Disk.Replace
import BlockSieve.Json.Reader
import BlockSieve.Toml.Reader
import BlockSieve.Yaml.Reader

/-!
Allow-lists in documents. A document has a key `keep` with a list of names,
and whatever else stands in it is passed over; without that key the list is
empty, and the key may not come twice. The format follows from the extension
of the file's name.
-/

namespace BlockSieve

/-- The key of the names. -/
def keepKey : Text := "keep".toList

namespace Json

/-- The names in a JSON document. Instead of an object, an array may hold the list of names as its
only item, or nothing. -/
def Value.names? : Value → Option (List Text)
  | .object members =>
    if members.all (·.1.isSome) then
      match members.filter (·.1 = some keepKey) with
      | [] => some []
      | [(_, value)] => value.texts?
      | _ => none
    else none
  | .array [] => some []
  | .array [item] => item.texts?
  | _ => none

end Json

namespace Toml

/-- The names in a TOML document. -/
def Members.names? (members : Members) : Option (List Text) :=
  match members.get? keepKey with
  | none => some []
  | some node => node.texts?

end Toml

namespace Yaml

/-- The names in a YAML document. All keys must be scalars. -/
def Node.names? (document : Node Nat) : Option (List Text) :=
  let anchors := document.anchors
  match document.meant anchors with
  | .mapping pairs => do
    let keys ← pairs.mapM fun pair => pair.1.text? anchors
    match (keys.zip pairs).filter (·.1 = keepKey) with
    | [] => some []
    | [(_, _, value)] => value.texts? anchors
    | _ => none
  | .scalar true [] => some []
  | _ => none

end Yaml

namespace Format

/-- The format that an extension stands for, in letters of either case. The letters of these
extensions are the lower case of ASCII letters only. -/
def ofExtension? (extension : Text) : Option Format :=
  let lower := extension.map Char.toLower
  if lower = "toml".toList then some .toml
  else if lower = "json".toList then some .json
  else if lower = "yaml".toList ∨ lower = "yml".toList then some .yaml
  else none

/-- The names in a document of a format. -/
def names? (format : Format) (t : Text) : Option (List Text) :=
  match format with
  | .toml => (Toml.read? t).bind Toml.Members.names?
  | .json => (Json.read? t).bind Json.Value.names?
  | .yaml => (Yaml.read? t).bind Yaml.Node.names?

end Format

/-- The names in the document at a path. The file is read before its format is looked at. -/
def Disk.loadNames (d : Disk) (path : Path) : Except Fault (List Text) :=
  match d.readText path with
  | .error fault => .error fault
  | .ok t =>
    let extension := path.extension?.getD []
    match Format.ofExtension? extension with
    | none => .error (.unsupportedFormat extension)
    | some format =>
      match format.names? t with
      | none => .error (.malformed format path)
      | some names => .ok names

end BlockSieve
