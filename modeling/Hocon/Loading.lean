import Hocon.Document.Grammar
import Hocon.FileTree
import Hocon.Properties

/-!
# Loading documents

A document is a text or a file.  What its include statements name is found by an includer:
the files beside the document, and after those any shelf of documents kept in memory.  A
document knows the chain of those that include it, and the chain may not grow beyond
`maxIncludeDepth`, so that documents that include each other come to an end.
-/

namespace Hocon

/-! ### Options -/

/-- Documents kept in memory, which include statements can name. -/
structure Shelf where
  /-- What the shelf is called; the origin of the empty object for names it lacks. -/
  tag : String
  texts : Entries String := []
  trees : Entries Value := []

/-- Who finds included documents. -/
inductive Includer where
  /-- The files themselves. -/
  | files
  | shelf (shelf : Shelf)
  /-- The first, with what the second finds underneath. -/
  | both (first second : Includer)

/-- How many documents on shelves an includer knows. -/
def Includer.texts : Includer → Nat
  | files => 0
  | shelf s => s.texts.length
  | both a b => a.texts + b.texts

/-- How a document is to be read. -/
structure ParseOptions where
  /-- The syntax; if none, the file's name tells it, and HOCON is the last resort. -/
  syn : Option DocumentSyntax := none
  /-- What origins call the document, instead of the file's name. -/
  description : Option String := none
  /-- Whether a file that is not there counts as an empty object. -/
  allowMissing : Bool := true
  /-- Who is asked besides the files. -/
  includer : Option Includer := none

namespace ParseOptions

/-- Asks only the given includer besides the files. -/
def withIncluder (o : ParseOptions) (i : Includer) : ParseOptions :=
  { o with includer := some i }

/-- Asks the given includer before the present one. -/
def prependIncluder (o : ParseOptions) (i : Includer) : ParseOptions :=
  { o with includer := some (match o.includer with
      | some other => .both i other
      | none => i) }

/-- Asks the given includer after the present one. -/
def appendIncluder (o : ParseOptions) (i : Includer) : ParseOptions :=
  { o with includer := some (match o.includer with
      | some other => .both other i
      | none => i) }

/-- The options that an included document inherits. -/
def inherited (o : ParseOptions) : ParseOptions := { includer := o.includer }

/-- All who are asked for included documents: the files come first. -/
def allIncluders (o : ParseOptions) : Includer :=
  match o.includer with
  | some extra => .both .files extra
  | none => .files

end ParseOptions

/-! ### Documents -/

/-- What a document is read from. -/
inductive DocumentSource where
  | text (content : String)
  | file (name : String)
  deriving DecidableEq, Repr

/-- A document that can be read. -/
structure Document where
  source : DocumentSource
  /-- The documents that include this one, outermost first. -/
  chain : List String := []
  deriving DecidableEq, Repr

namespace Document

/-- How many documents may include each other. -/
def maxIncludeDepth : Nat := 50

def ofText (content : String) : Document := { source := .text content }

def ofFile (name : String) : Document := { source := .file name }

/-- What chains call the document. -/
def describe (d : Document) : String :=
  match d.source with
  | .text _ => "String"
  | .file name => name

/-- A file that this document includes. -/
def child (d : Document) (name : String) : Document :=
  { source := .file name, chain := d.chain ++ [d.describe] }

@[simp] theorem chain_child (d : Document) (name : String) :
    (d.child name).chain = d.chain ++ [d.describe] := rfl

/-- The name of a file as seen from this document: a file's neighbours are in its
directory. -/
def neighbour (d : Document) (name : String) : String :=
  match d.source with
  | .text _ => name
  | .file own =>
    match FileName.parent? own with
    | some directory => FileName.join directory name
    | none => name

/-- The origin of the document. -/
def originFor (d : Document) (o : ParseOptions) : Origin :=
  match o.description, d.source with
  | some description, _ => .named description
  | none, .file name => .ofFile name
  | none, .text _ => .named d.describe

/-- The syntax that the file's name tells. -/
def syntaxOfName? (d : Document) : Option DocumentSyntax :=
  match d.source with
  | .file name => DocumentSyntax.ofFileName? name
  | .text _ => none

/-- The syntax in which to read the document. -/
def syntaxFor (d : Document) (o : ParseOptions) : DocumentSyntax :=
  (o.syn.or d.syntaxOfName?).getD .conf

/-- The text of the document. -/
def content (d : Document) (files : FileTree) : Except ReadFault String :=
  match d.source with
  | .text content => .ok content
  | .file name => files.read name

/-- What the includer is asked, for the record. -/
def record (d : Document) (tag : String) (o : ParseOptions) (name : String) : IncludeRecord :=
  { includer := tag, name, chain := d.chain ++ [d.describe], allowMissing := o.allowMissing
    relative := d.neighbour name }

/-- A root that is no object is refused. -/
def checkRoot (origin : Origin) (v : Value) : Except Error Value :=
  if v.fields?.isSome then .ok v else .error (.wrongType origin (.documentRoot v.type?))

end Document

/-! ### Names without an ending -/

/-- The syntaxes that are tried for a name without an ending, the first on top. -/
def candidateSyntaxes (o : ParseOptions) : List DocumentSyntax :=
  [.conf, .json, .properties].filter fun s => o.syn.isNone || o.syn == some s

/-- What was found of several candidates. -/
structure Candidates where
  found : Option Value := none
  failures : List (Origin × ReadFault) := []

/-- Adds what became of one candidate; only a file that cannot be read is passed over. -/
def Candidates.add (c : Candidates) : Except Error Value → Except Error Candidates
  | .ok v =>
    .ok { c with found := some (match c.found with
      | some found => found.withFallback v
      | none => v) }
  | .error (.unreadable o (.file fault)) => .ok { c with failures := c.failures ++ [(o, fault)] }
  | .error (.unreadable _ (.candidates attempts)) =>
    .ok { c with failures := c.failures ++ attempts }
  | .error e => .error e

/-- The value of the candidates for a name. -/
def Candidates.result (c : Candidates) (name : String) (allowMissing : Bool) :
    Except Error Value :=
  match c.found with
  | some v => .ok v
  | none =>
    if allowMissing then .ok (.emptyObject (.named name))
    else
      match c.failures with
      | [] => .error (.broken (.noCandidates name))
      | [(o, fault)] => .error (.unreadable o (.file fault))
      | attempts => .error (.unreadable (.named name) (.candidates attempts))

/-- Reads each candidate in turn. -/
def loadCandidates (read : DocumentSyntax → Loading Value) :
    List DocumentSyntax → Candidates → Loading Candidates
  | [], c => pure c
  | s :: rest, c => do
    let outcome : Except Error Value ←
      (ExceptT.run (read s) : StateM (List IncludeRecord) (Except Error Value))
    loadCandidates read rest (← c.add outcome)

/-- Loads a name: as it is if its ending tells a syntax, else with each ending that is
there, all merged.  `read` reads the file of a name. -/
def loadName (o : ParseOptions) (name : String)
    (read : String → ParseOptions → Loading Value) : Loading Value := do
  if (DocumentSyntax.ofFileName? name).isSome then read name o
  else
    let forced (s : DocumentSyntax) : Loading Value :=
      read (name ++ s.suffix) { o with allowMissing := false, syn := some s }
    let candidates ← loadCandidates forced (candidateSyntaxes o) {}
    candidates.result name o.allowMissing

/-! ### Loading -/

mutual

/-- Loads a document.  The chain of files that include each other is bounded, and `shelves`
bounds how many documents on shelves may be open. -/
def Document.load (files : FileTree) (shelves : Nat) (d : Document) (o : ParseOptions) :
    Loading Value :=
  let origin := d.originFor o
  if h : d.chain.length < Document.maxIncludeDepth then
    match d.content files with
    -- whatever keeps the file from being read counts as its being away
    | .error fault =>
      if o.allowMissing then pure (.emptyObject origin)
      else throw (.unreadable origin (.file fault))
    | .ok text => do
      let inner := o.inherited
      let answer (r : IncludeRequest) : Loading Value :=
        let inner := if r.required then { inner with allowMissing := false } else inner
        d.find files shelves h inner r inner.allIncluders
      let v ← match d.syntaxFor o with
        | .properties => Properties.read origin text
        | syn => Document.read syn origin answer text
      Document.checkRoot origin v
  else
    throw (.parse origin (.includesTooDeep Document.maxIncludeDepth d.chain) .none none)
termination_by (shelves, Document.maxIncludeDepth - d.chain.length, 1, 0)

/-- What an includer finds for a document's include statement. -/
def Document.find (files : FileTree) (shelves : Nat) (d : Document)
    (h : d.chain.length < Document.maxIncludeDepth) (o : ParseOptions) (r : IncludeRequest) :
    Includer → Loading Value
  | .files =>
    loadName o r.name fun name o =>
      (d.child (if r.isFileName then name else d.neighbour name)).load files shelves o
  | .shelf s => do
    modify fun records => records ++ [d.record s.tag o r.name]
    match Entries.get? s.trees r.name, Entries.get? s.texts r.name with
    | some v, _ => return v
    | none, some text =>
      match shelves with
      | 0 =>
        let fault := ParseFault.includesTooDeep Document.maxIncludeDepth d.chain
        throw (.parse (.named s.tag) fault .none none)
      -- a document on a shelf starts a chain of its own
      | shelves + 1 => (Document.ofText text).load files shelves o
    | none, none => return .emptyObject (.named s.tag)
  | .both first second => do
    let found ← d.find files shelves h o r first
    return found.withFallback (← d.find files shelves h o r second)
termination_by i => (shelves, Document.maxIncludeDepth - d.chain.length, 0, sizeOf i)
decreasing_by
  · refine .right _ (.left _ _ ?_)
    simp only [Document.chain_child, List.length_append, List.length_singleton]
    omega
  · exact .left _ _ (Nat.lt_succ_self _)
  · exact .right _ (.right _ (.right _ (by simp only [Includer.both.sizeOf_spec]; omega)))
  · exact .right _ (.right _ (.right _ (by simp only [Includer.both.sizeOf_spec]; omega)))

end

/-- How many documents on shelves may be open at once.  One that is open twice with the same
options would include itself without end. -/
def ParseOptions.shelfDepth (o : ParseOptions) : Nat := 2 * o.allIncluders.texts + 1

/-- The tree of a text. -/
def parseText (files : FileTree) (o : ParseOptions) (text : String) : Loading Value :=
  (Document.ofText text).load files o.shelfDepth o

/-- The tree of a file. -/
def parseFile (files : FileTree) (o : ParseOptions) (name : String) : Loading Value :=
  (Document.ofFile name).load files o.shelfDepth o

/-- The tree of a file whose name may lack its ending. -/
def parseAnySyntax (files : FileTree) (o : ParseOptions) (name : String) : Loading Value :=
  loadName o name fun name o => parseFile files o name

end Hocon
