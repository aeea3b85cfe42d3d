/-!
# Origins

Every value remembers where it was written: a description of the document, the lines, and
the comments right above it.  Two origins can be merged into one that describes both; an
origin never takes part in comparing values.
-/

namespace Hocon

/-- The kind of source that an origin describes. -/
inductive OriginKind where
  | generic
  | file
  | environment
  deriving DecidableEq, Repr

/-- Where a value comes from. -/
structure Origin where
  source : String
  kind : OriginKind := .generic
  fileName : Option String := none
  firstLine : Option Nat := none
  lastLine : Option Nat := none
  comments : List String := []
  deriving DecidableEq, Repr

namespace Origin

/-- An origin that is described by a text only. -/
def named (source : String) : Origin := { source }

/-- The origin of a document read from a file. -/
def ofFile (fileName : String) : Origin :=
  { source := fileName, kind := .file, fileName := some fileName }

/-- The origin of the variables of the environment. -/
def environment : Origin := { source := "env variables", kind := .environment }

/-! ### Changes -/

/-- The same source, one line of it. -/
def atLine (o : Origin) (line : Nat) : Origin :=
  { o with firstLine := some line, lastLine := some line }

def withComments (o : Origin) (comments : List String) : Origin :=
  { o with comments }

def prependComments (o : Origin) (comments : List String) : Origin :=
  { o with comments := comments ++ o.comments }

def appendComments (o : Origin) (comments : List String) : Origin :=
  { o with comments := o.comments ++ comments }

/-! ### Text -/

/-- The source and the lines. -/
def describe (o : Origin) : String :=
  match o.firstLine, o.lastLine with
  | some line, some last =>
    if last = line then o.source ++ ": " ++ toString line
    else o.source ++ ": " ++ toString line ++ "-" ++ toString last
  | some line, none => o.source ++ ": " ++ toString line
  | none, _ => o.source

/-! ### Merging -/

/-- What the description of a merged origin starts with. -/
def mergeMark : String := "merge of "

/-- A description without the mark of a merged origin. -/
def dropMergeMark (s : String) : String :=
  if mergeMark.toList.isPrefixOf s.toList then String.ofList (s.toList.drop mergeMark.length)
  else s

/-- One of two optional numbers, or `f` of both. -/
def eitherOrBoth (f : Nat → Nat → Nat) : Option Nat → Option Nat → Option Nat
  | some x, some y => some (f x y)
  | some x, none => some x
  | none, y => y

/-- One origin for both: the lines widen where the sources agree, else both are named. -/
def merge (a b : Origin) : Origin :=
  if a = b then a
  else
    let sourceA := dropMergeMark a.source
    let sameSource : Bool := sourceA = dropMergeMark b.source
    { source :=
        if sameSource then sourceA
        else mergeMark ++ dropMergeMark a.describe ++ "," ++ dropMergeMark b.describe
      kind := if a.kind = b.kind then a.kind else .generic
      fileName := if a.fileName = b.fileName then a.fileName else none
      firstLine := if sameSource then eitherOrBoth min a.firstLine b.firstLine else none
      lastLine := if sameSource then eitherOrBoth max a.lastLine b.lastLine else none
      comments := if a.comments = b.comments then a.comments else a.comments ++ b.comments }

/-- The merge of all, from the left. -/
def mergeAll? : List Origin → Option Origin
  | [] => none
  | o :: os => some (os.foldl merge o)

end Origin

end Hocon
