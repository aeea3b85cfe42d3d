import Hocon.Error

/-!
# Files

Documents are read from a tree of files below a working directory.  A name is looked up
part by part: every part but the last has to be a directory.
-/

namespace Hocon

/-! ### Names -/

namespace FileName

/-- Whether a name starts at the root of the file system. -/
def isAbsolute (name : String) : Bool := name.toList.head? == some '/'

/-- The name without slashes and lone periods at its end, last character first. -/
def trimReversed : List Char → List Char
  | '/' :: rest => trimReversed rest
  | '.' :: '/' :: rest => trimReversed rest
  | cs => cs

/-- The name of the directory that holds a file: empty for the working directory, and
nothing if there is none. -/
def parent? (name : String) : Option String :=
  match trimReversed name.toList.reverse with
  | [] => none
  | cs =>
    let directory := trimReversed (cs.dropWhile (· != '/'))
    if directory.isEmpty && isAbsolute name then some "/"
    else some (String.ofList directory.reverse)

/-- A name as seen from a directory. -/
def join (directory name : String) : String :=
  if isAbsolute name || directory.isEmpty then name
  else if directory.toList.getLast? == some '/' then directory ++ name
  else directory ++ "/" ++ name

/-- The parts between the slashes. -/
def splitSlashes (current : List Char) : List Char → List String
  | [] => [String.ofList current.reverse]
  | c :: cs =>
    if c = '/' then String.ofList current.reverse :: splitSlashes [] cs
    else splitSlashes (c :: current) cs

/-- The parts of a name, empty ones included. -/
def parts (name : String) : List String := splitSlashes [] name.toList

/-- The longest part that a directory can hold, in bytes. -/
def maxPart : Nat := 255

/-- The longest name that can be looked up, in bytes. -/
def maxName : Nat := 4095

end FileName

/-! ### Trees -/

/-- What a name stands for. -/
inductive FileContent where
  | directory
  | text (content : String)
  /-- Bytes that are no text. -/
  | noText
  deriving DecidableEq, Repr

/-- The files below the working directory, each with the parts of its name. -/
structure FileTree where
  files : List (List String × FileContent) := []

namespace FileTree

/-- The tree of files with relative names. -/
def ofNames (files : List (String × FileContent)) : FileTree :=
  { files := files.map fun f =>
      ((FileName.parts f.1).filter (fun p => p != "" && p != "."), f.2) }

/-- What stands at the given parts below the working directory; directories stand there
because something is in them. -/
def at? (t : FileTree) (place : List String) : Option FileContent :=
  match t.files.find? fun f => f.1 = place with
  | some f => some f.2
  | none =>
    if place.isEmpty || t.files.any fun f => place.isPrefixOf f.1 then some .directory else none

/-- Follows parts from a directory. -/
def follow (t : FileTree) (place : List String) :
    List String → Except ReadFault (List String × FileContent)
  | [] =>
    match t.at? place with
    | some content => .ok (place, content)
    | none => .error .notFound
  | part :: rest =>
    match t.at? place with
    | none => .error .notFound
    | some .directory =>
      if part = "" ∨ part = "." then follow t place rest
      else if part = ".." then
        -- nothing is known of what lies above the working directory
        if place.isEmpty then .error .notFound else follow t place.dropLast rest
      else if part.utf8ByteSize > FileName.maxPart then .error .nameTooLong
      else follow t (place ++ [part]) rest
    | some _ => .error .notADirectory

/-- The text of a file. -/
def read (t : FileTree) (name : String) : Except ReadFault String :=
  if name.toList.contains '\x00' then .error .nulInName
  else if name.isEmpty || FileName.isAbsolute name then .error .notFound
  else if name.utf8ByteSize > FileName.maxName then .error .nameTooLong
  else
    match t.follow [] (FileName.parts name) with
    | .error fault => .error fault
    | .ok (_, .directory) => .error .isDirectory
    | .ok (_, .noText) => .error .notText
    | .ok (_, .text content) => .ok content

end FileTree

end Hocon
