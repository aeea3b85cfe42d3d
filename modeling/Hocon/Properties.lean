import Hocon.PathMap
import Hocon.Text.Line
import Hocon.Text.Quoted
import Hocon.Token.Scan

/-!
# Documents of `key=value` lines

Each line sets a key to a text.  A line that ends with a backslash goes on with the next
one, `#` and `!` start comments, and escapes work as in string literals.  Periods split a
key into a path; of a value and an object at one path, the object stays.
-/

namespace Hocon.Properties

open Text

/-! ### Lines -/

/-- Whether a line goes on with the next one: it ends with an odd number of backslashes. -/
def goesOn (line : List Char) : Bool :=
  (line.reverse.takeWhile (· == '\\')).length % 2 == 1

/-- Whether a line is blank or a comment. -/
def isSkipped : List Char → Bool
  | [] => true
  | c :: _ => c == '#' || c == '!'

/-- Joins lines that go on; `current` is the line so far, if one is open. -/
def joinLines (current : Option (List Char)) : List (List Char) → List (List Char)
  | [] => current.toList
  | raw :: rest =>
    let trimmed := trimStart raw
    let finish (line : List Char) :=
      if goesOn line then joinLines (some line.dropLast) rest else line :: joinLines none rest
    match current with
    -- a line that is gone on with may be blank or look like a comment
    | some before => finish (before ++ trimmed)
    | none => if isSkipped trimmed then joinLines none rest else finish trimmed

/-- The lines of a text that set something. -/
def entryLines (text : List Char) : List (List Char) :=
  joinLines none (lines text)

/-! ### Escapes -/

/-- The code point that digits in base sixteen spell, where a plus sign may stand in front. -/
def hexCode? (digits : List Char) : Option Nat :=
  let body := match digits with
    | '+' :: rest => rest
    | other => other
  if body.isEmpty then none
  else body.foldlM (fun n c => (Scan.hexValue? c).map fun d => 16 * n + d) 0

/-- The character that an escape other than a code point stands for. -/
def escaped : Char → Char
  | 't' => '\t'
  | 'n' => '\n'
  | 'r' => '\r'
  | 'f' => '\x0c'
  | c => c

/-- The text of an escape behind its backslash, and what follows; an escape that names no
character stands for its own letters. -/
def takeEscape : List Char → List Char × List Char
  | [] => ([], [])
  | c :: cs =>
    if c = 'u' then
      let digits := cs.take 4
      match (hexCode? digits).bind Scan.charOfCode? with
      | some decoded => ([decoded], cs.drop 4)
      | none => ('u' :: digits, cs.drop 4)
    else ([escaped c], cs)

theorem takeEscape_length_le (cs : List Char) : (takeEscape cs).2.length ≤ cs.length := by
  cases cs with
  | nil => exact Nat.le_refl _
  | cons c cs =>
    have le : (cs.drop 4).length ≤ (c :: cs).length := by simp; omega
    rw [takeEscape]
    split
    · dsimp only
      split <;> exact le
    · exact Nat.le_succ _

/-- A text with its escapes replaced. -/
def unescape (cs : List Char) : List Char :=
  match cs with
  | [] => []
  | c :: rest =>
    if c = '\\' then (takeEscape rest).1 ++ unescape (takeEscape rest).2 else c :: unescape rest
termination_by cs.length
decreasing_by
  · exact Nat.lt_succ_of_le (takeEscape_length_le rest)
  · exact Nat.lt_succ_self _

/-! ### Keys and values -/

/-- What follows the blanks behind a key: one separator is dropped. -/
def dropSeparator (cs : List Char) : List Char :=
  match cs.dropWhile isWhiteSpace with
  | '=' :: rest => rest
  | ':' :: rest => rest
  | rest => rest

/-- The key at the front of a line, and what follows its separator. -/
def takeKey (cs : List Char) : List Char × List Char :=
  match cs with
  | [] => ([], [])
  | c :: rest =>
    if c = '\\' then
      let (key, left) := takeKey (takeEscape rest).2
      ((takeEscape rest).1 ++ key, left)
    else if c = '=' ∨ c = ':' then ([], rest)
    else if isWhiteSpace c then ([], dropSeparator rest)
    else
      let (key, left) := takeKey rest
      (c :: key, left)
termination_by cs.length
decreasing_by
  · exact Nat.lt_succ_of_le (takeEscape_length_le rest)
  · exact Nat.lt_succ_self _

/-- The key and the value of a line. -/
def readEntry (line : List Char) : String × String :=
  let (key, left) := takeKey line
  (String.ofList key, String.ofList (unescape (left.dropWhile isWhiteSpace)))

/-- The path of a key, split at periods. -/
def keyPath (key : String) : Path :=
  ((Path.ofKeys? ((Path.splitPeriods [] key.toList).map String.ofList))).getD (.ofKey key)

/-- The tree of a document. -/
def read (o : Origin) (text : String) : Except Error Value :=
  let entries := Entries.ofPairs ((entryLines text.toList).map readEntry)
  PathMap.toValue? o (entries.map fun e => (keyPath e.1, .ofText o e.2)) true

end Hocon.Properties
