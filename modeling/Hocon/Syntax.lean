/-!
# The kinds of documents
-/

namespace Hocon

/-- How a document is written. -/
inductive DocumentSyntax where
  /-- Plain JSON: no comments, substitutions, bare text or `+=`. -/
  | json
  /-- HOCON, the superset of JSON. -/
  | conf
  /-- Flat `key=value` lines. -/
  | properties
  deriving DecidableEq, Repr, Inhabited

namespace DocumentSyntax

/-- The ending of the names of such files. -/
def suffix : DocumentSyntax → String
  | json => ".json"
  | conf => ".conf"
  | properties => ".properties"

/-- The syntax that the ending of a file's name tells. -/
def ofFileName? (name : String) : Option DocumentSyntax :=
  [json, conf, properties].find? fun s => s.suffix.toList.isSuffixOf name.toList

end DocumentSyntax

end Hocon
