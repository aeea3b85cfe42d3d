import Hocon.Path.Expression
import Hocon.Units
import Hocon.Value

/-!
# Everything that can go wrong

An error is a cause together with the place it points at.  The wording of each cause stands
in one function beside it, and `Error.message` puts the place in front.
-/

namespace Hocon

/-- What describes an origin stands in front of a message. -/
def Origin.label (o : Origin) (message : String) : String := o.describe ++ ": " ++ message

/-- The kind of a value in messages; a value that waits for a reference has none. -/
def describeType : Option ValueType → String
  | some t => t.name
  | none => "unresolved value"

/-! ### Malformed documents -/

/-- What is wrong in the text of a document.  Tokens are given as messages show them. -/
inductive ParseFault where
  | lexical (problem : LexicalProblem)
  | bareTextInJson (text : String)
  | substitutionInJson
  | emptyDocument
  | badRoot (token : String)
  | trailing (token : String)
  | noValue (token : String)
  | noFieldInJson (token : String)
  | noField (token : String)
  | braceAfterComma
  | unbalancedBrace
  | noSeparator (key : Path) (token : String)
  | duplicateField (key : String) (earlier : Origin)
  | openObject (token : String)
  | openRoot (token : String)
  | noFirstElement (token : String)
  | openList (token : String)
  | noNextElement (token : String)
  | noIncludeName (token : String)
  | noIncludeArgument (token : String)
  | unsupportedInclude (word : String)
  | badIncludeWord (word : String)
  | noCloseParenthesis (token : String)
  | includesTooDeep (limit : Nat) (chain : List String)
  deriving DecidableEq, Repr

/-- The wording of a fault. -/
def ParseFault.message : ParseFault → String
  | lexical problem => problem.message
  | bareTextInJson text => "Token not allowed in valid JSON: '" ++ text ++ "'"
  | substitutionInJson => "Substitutions ($\x7b\x7d syntax) not allowed in JSON"
  | emptyDocument => "Empty document"
  | badRoot token =>
    "Document must have an object or array at root, unexpected token: " ++ token
  | trailing token =>
    "Document has trailing tokens after first object or array: " ++ token
  | noValue token => "Expecting a value but got wrong token: " ++ token
  | noFieldInJson token => "Expecting close brace \x7d or a field name here, got " ++ token
  | noField token => "expecting a close brace or a field name here, got " ++ token
  | braceAfterComma => "expecting a field name after a comma, got a close brace \x7d instead"
  | unbalancedBrace => "unbalanced close brace '\x7d' with no open brace"
  | noSeparator key token =>
    "Key '" ++ key.render ++ "' may not be followed by token: " ++ token
  | duplicateField key earlier =>
    "JSON does not allow duplicate fields: '" ++ key ++ "' was already seen at "
      ++ earlier.describe
  | openObject token => "Expecting close brace \x7d or a comma, got " ++ token
  | openRoot token => "Expecting end of input or a comma, got " ++ token
  | noFirstElement token =>
    "List should have ] or a first element after the open [, instead had token: " ++ token
      ++ " (if you want " ++ token ++ " to be part of a string value, then double-quote it)"
  | openList token =>
    "List should have ended with ] or had a comma, instead had token: " ++ token
      ++ " (if you want " ++ token ++ " to be part of a string value, then double-quote it)"
  | noNextElement token =>
    "List should have had new element after a comma, instead had token: " ++ token
      ++ " (if you want the comma or " ++ token
      ++ " to be part of a string value, then double-quote it)"
  | noIncludeName token =>
    "include keyword is not followed by a quoted string, but by: " ++ token
  | noIncludeArgument token =>
    "expecting a quoted string inside file() or required(), rather than: " ++ token
  | unsupportedInclude word =>
    "include " ++ word ++ ") is not supported, use file() or a plain quoted name"
  | badIncludeWord word =>
    "expecting include parameter to be quoted filename, file(), or required(). "
      ++ "No spaces are allowed before the open paren. Not expecting: '" ++ word ++ "'"
  | noCloseParenthesis token => "expecting a close parentheses ')' here, not: " ++ token
  | includesTooDeep limit chain =>
    "include statements nested more than " ++ toString limit
      ++ " times, you probably have a cycle in your includes. Trace: "
      ++ ", ".intercalate chain

/-- What a message adds about the place in the document. -/
inductive ParseHint where
  | none
  /-- The key whose value is being read, if any. -/
  | inKey (key : Option Path)
  /-- Quotes may help: the key that comes before, the token, and whether the value follows
  an equals sign, as in a file of plain `key=value` lines. -/
  | quotes (previous : Option Path) (token : String) (afterEquals : Bool)
  deriving DecidableEq, Repr

/-- A message with the hint. -/
def ParseHint.extend (message : String) : ParseHint → String
  | none => message
  | inKey (some key) => "in value for key '" ++ key.render ++ "': " ++ message
  | inKey .none => message
  | quotes previous token afterEquals =>
    let close (advice : String) : String :=
      message ++ " (if you intended " ++ advice
        ++ (if afterEquals then
              ", or you may be able to rename the file .properties rather than .conf)"
            else ")")
    match previous, token == TokenKind.stop.describe with
    | some key, true =>
      close ("'" ++ key.render ++ "' to be part of a value, instead of a key, "
        ++ "try adding double quotes around the whole value")
    | .none, true => message
    | some key, false =>
      close (token ++ " to be part of the value for '" ++ key.render
        ++ "', try enclosing the value in double quotes")
    | .none, false =>
      close (token ++ " to be part of a key or string value, "
        ++ "try enclosing the key or value in double quotes")

/-! ### Files -/

/-- Why a file could not be read as text. -/
inductive ReadFault where
  | notFound
  | notADirectory
  | isDirectory
  | nameTooLong
  | nulInName
  | notText
  deriving DecidableEq, Repr

/-- The wording of a fault, as the operating system words it. -/
def ReadFault.message : ReadFault → String
  | notFound => "No such file or directory (os error 2)"
  | notADirectory => "Not a directory (os error 20)"
  | isDirectory => "Is a directory (os error 21)"
  | nameTooLong => "File name too long (os error 36)"
  | nulInName => "file name contained an unexpected NUL byte"
  | notText => "stream did not contain valid UTF-8"

/-- What was tried to load a document. -/
inductive LoadFault where
  | file (fault : ReadFault)
  /-- Several files, one after the other. -/
  | candidates (attempts : List (Origin × ReadFault))
  deriving DecidableEq, Repr

def LoadFault.message : LoadFault → String
  | file fault => fault.message
  | candidates attempts => ", ".intercalate (attempts.map fun a => a.1.label a.2.message)

/-- Why an include statement failed, other than by its syntax. -/
inductive IncludeFault where
  | requiredMissing (name : String) (fault : LoadFault)
  | notAnObject (name : String)
  deriving DecidableEq, Repr

def IncludeFault.message : IncludeFault → String
  | requiredMissing name fault =>
    "required include '" ++ name ++ "' could not be loaded: " ++ fault.message
  | notAnObject name => "include of '" ++ name ++ "' did not produce an object"

/-! ### References -/

/-- Why a reference has no value. -/
inductive LookupFault where
  | noTarget (target : PathReference)
  /-- The reference came back to itself; `trace` holds all that were being looked up. -/
  | cycle (target : PathReference) (trace : List PathReference)
  deriving DecidableEq, Repr

/-- The reference and what became of it. -/
def LookupFault.detail : LookupFault → String
  | noTarget target => target.render
  | cycle target trace =>
    target.render ++ " was part of a cycle of substitutions involving "
      ++ ", ".intercalate (trace.map PathReference.render)

/-- What was asked of a tree that still waits for references. -/
inductive PendingFault where
  | reading (origin : Origin) (path : String)
  | converting (origin : Origin)
  | validating
  /-- A layer of a waiting merge may hold or hide the key. -/
  | hidden (path : Path) (key : String) (merge layer : Origin)
  deriving DecidableEq, Repr

/-- The wording of a fault. -/
def PendingFault.message : PendingFault → String
  | reading origin path =>
    origin.label ("'" ++ path
      ++ "' has not been resolved, call Config::resolve() before reading it")
  | converting origin =>
    origin.label "value has not been resolved, resolve it before converting to JSON"
  | validating => "need to Config::resolve() each config before validating it"
  | hidden path key merge layer =>
    path.render ++ " has not been resolved: Key '" ++ key ++ "' is not available at '"
      ++ merge.describe ++ "' because value at '" ++ layer.describe
      ++ "' has not been resolved and may turn out to contain or hide '" ++ key
      ++ "'. Be sure to resolve before using a config object."

/-! ### Types -/

/-- Where a value of one kind stands in for another. -/
inductive TypeFault where
  | cannotJoin (left right : Value)
  | documentRoot (found : Option ValueType)
  | configRoot (found : Option ValueType)
  | mismatch (path : String) (found : Option ValueType) (expected : ValueType)
  | tooBigForInt32 (path : String) (number : Int64)
  | listElement (path : String) (found : Option ValueType)
  | noQuantity (path : String) (found : Option ValueType) (quantity : Quantity)

/-- The wording of a fault. -/
def TypeFault.message : TypeFault → String
  | cannotJoin left right =>
    "Cannot concatenate object or list with a non-object-or-list, " ++ left.describe
      ++ " and " ++ right.describe ++ " are not compatible"
  | documentRoot found =>
    "document root has type " ++ describeType found ++ " rather than object"
  | configRoot found => "the root of a config must be an object, not " ++ describeType found
  | mismatch path found expected =>
    path ++ " has type " ++ describeType found ++ " rather than " ++ expected.name
  | tooBigForInt32 path number =>
    path ++ " has type out-of-range value " ++ toString number.toInt
      ++ " rather than 32-bit integer"
  | listElement path found =>
    path ++ " has type list of " ++ describeType found ++ " rather than list of string"
  | noQuantity path found quantity =>
    path ++ " has type " ++ describeType found ++ " rather than "
      ++ match quantity with
        | .duration => "duration string or number of milliseconds"
        | .size => "memory size string or number of bytes"

/-- One finding of a check against a reference tree. -/
structure ValidationProblem where
  path : Path
  origin : Origin
  problem : String
  deriving DecidableEq, Repr

def ValidationProblem.message (p : ValidationProblem) : String :=
  p.origin.label (p.path.render ++ ": " ++ p.problem)

/-! ### Broken promises -/

/-- What a caller or a tree made by hand got wrong; no document leads here. -/
inductive Breach where
  | appendedNothing
  | noCandidates (name : String)
  | valueAndParent (path : Path)
  | throughValue (path : Path)
  | noResult
  | escapedCycle
  | stillPending (value : Value)
  | notAnObject (object : Value) (result : Option Value)
  | notJoined (pieces : List Value)
  | nestedMerge (merge : Value)
  | nothingPending
  | unreadable (found : Option ValueType)
  | pendingReference

/-- The wording of a breach. -/
def Breach.message : Breach → String
  | appendedNothing => "appending produced no value"
  | noCandidates name => "no include candidates tried for " ++ name
  | valueAndParent path =>
    "In the map, path '" ++ path.render
      ++ "' occurs as both the parent object of a value and as a value"
  | throughValue path => "path '" ++ path.render ++ "' runs through a value"
  | noResult => "resolving produced no value"
  | escapedCycle => "a cycle escaped the reference that caused it"
  | stillPending value => "resolving did not give a resolved value: " ++ value.describe
  | notAnObject object result =>
    "resolved object " ++ object.describe ++ " to non-object "
      ++ match result with
        | some v => "Some(" ++ v.describe ++ ")"
        | none => "None"
  | notJoined pieces =>
    "resolved concatenation joined to too many values: ["
      ++ ", ".intercalate (pieces.map Value.describe) ++ "]"
  | nestedMerge merge => "a delayed merge should not contain another one: " ++ merge.describe
  | nothingPending => "delayed merge stack does not contain any unmergeable values"
  | unreadable found =>
    "value of type " ++ describeType found ++ " passed the type check but could not be read"
  | pendingReference =>
    "do not call check_valid() with an unresolved reference config, "
      ++ "call Config::resolve() first"

/-! ### Errors -/

/-- Why a configuration could not be loaded, resolved or read. -/
inductive Error where
  /-- A malformed document. -/
  | parse (origin : Origin) (fault : ParseFault) (hint : ParseHint) (span : Option Span)
  | badPath (origin : Option Origin) (path : String) (fault : PathFault)
  | unresolved (origin : Origin) (fault : LookupFault)
  | pending (fault : PendingFault)
  /-- Nothing is at the path. -/
  | missing (path : String)
  /-- Null is at the path; any value would do if no kind is given. -/
  | null (origin : Origin) (path : String) (expected : Option ValueType)
  | wrongType (origin : Origin) (fault : TypeFault)
  | badValue (origin : Origin) (path : String) (fault : UnitFault)
  | invalid (problems : List ValidationProblem)
  | unreadable (origin : Origin) (fault : LoadFault)
  | notIncluded (origin : Origin) (fault : IncludeFault)
  | broken (breach : Breach)

namespace Error

/-- The origin that the error points at. -/
def origin? : Error → Option Origin
  | parse o _ _ _ => some o
  | badPath o _ _ => o
  | unresolved o _ => some o
  | null o _ _ => some o
  | wrongType o _ => some o
  | badValue o _ _ => some o
  | unreadable o _ => some o
  | notIncluded o _ => some o
  | _ => none

/-- The place in the text that the error points at. -/
def span? : Error → Option Span
  | parse _ _ _ span => span
  | _ => none

/-- A malformed document's error with another place. -/
def withSpan (e : Error) (span : Span) : Error :=
  match e with
  | parse o fault hint _ => parse o fault hint (some span)
  | other => other

/-- Whether the error says that a value is not there. -/
def isMissing : Error → Bool
  | missing _ => true
  | null _ _ _ => true
  | _ => false

/-- What is wrong, without the place. -/
def complaint : Error → String
  | parse _ fault hint _ => hint.extend fault.message
  | badPath _ path fault => "Invalid path '" ++ path ++ "': " ++ fault.message
  | unresolved _ fault => "Could not resolve substitution to a value: " ++ fault.detail
  | pending fault => fault.message
  | missing path => "No configuration setting found for key '" ++ path ++ "'"
  | null _ path expected =>
    "Configuration key '" ++ path ++ "' is set to null but expected "
      ++ (expected.map ValueType.name).getD "a value"
  | wrongType _ fault => fault.message
  | badValue _ path fault => "Invalid value at '" ++ path ++ "': " ++ fault.message
  | invalid problems => ", ".intercalate (problems.map ValidationProblem.message)
  | unreadable _ fault => fault.message
  | notIncluded _ fault => fault.message
  | broken breach => "bug or broken: " ++ breach.message

/-- What is wrong, behind the place if there is one. -/
def message (e : Error) : String :=
  match e.origin? with
  | some o => o.label e.complaint
  | none => e.complaint

end Error

end Hocon
