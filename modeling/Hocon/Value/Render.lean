import Hocon.Text.Line
import Hocon.Value

/-!
# Values as text

`Value.render` writes a tree as a document that reads back as the same tree.  The options
choose between one line and indented lines, between JSON and HOCON, and whether comments
and origins are written above the values.  The keys of an object stand in one fixed order,
whatever their order of insertion.
-/

namespace Hocon

/-- How a value is written. -/
structure RenderOptions where
  /-- Line feeds and indentation. -/
  formatted : Bool := true
  /-- The comments of the values. -/
  comments : Bool := true
  /-- A comment that names the origin of each value. -/
  originComments : Bool := true
  /-- Quoted keys, colons, and braces around the root. -/
  json : Bool := true
  deriving DecidableEq, Repr

/-- JSON on one line without comments. -/
def RenderOptions.concise : RenderOptions := ⟨false, false, false, true⟩

namespace RenderOptions

/-- The blanks in front of a line. -/
def indent (o : RenderOptions) (depth : Nat) : String :=
  if o.formatted then "".pushn ' ' (4 * depth) else ""

/-- The end of a line. -/
def lineEnd (o : RenderOptions) : String := if o.formatted then "\n" else ""

/-- What separates the fields of an object. -/
def fieldEnd (o : RenderOptions) : String :=
  if o.formatted then (if o.json then ",\n" else "\n") else ","

/-- What separates the items of a list and the layers of a merge. -/
def itemEnd (o : RenderOptions) : String := "," ++ o.lineEnd

/-- What separates a quoted key from its value. -/
def colon (o : RenderOptions) : String := if o.formatted then " : " else ":"

end RenderOptions

namespace Value

/-! ### The order of keys -/

/-- Whether a key is made of digits only. -/
def isDigits (s : String) : Bool := s != "" && s.toList.all Char.isDigit

/-- Digits that stand for more than this are compared by their number. -/
def digitsLimit : Nat := Nat.pow 2 128

/-- Keys of digits come first and by their value, then all others by their characters. -/
def keyOrder (a b : String) : Ordering :=
  match isDigits a, isDigits b with
  | true, true =>
    let m := ofDigits a.toList
    let n := ofDigits b.toList
    if m < digitsLimit && n < digitsLimit then (compare m n).then (compare a b)
    else (compare a.length b.length).then (compare a b)
  | true, false => .lt
  | false, true => .gt
  | false, false => compare a b

/-- Puts a field among fields in order, of which the last one comes first: past all that it
belongs in front of. -/
def placeField {α : Type} (f : String × α) : List (String × α) → List (String × α)
  | [] => [f]
  | g :: gs => if keyOrder f.1 g.1 = .lt then g :: placeField f gs else f :: g :: gs

/-- The fields in the order of their keys, each placed among those before it. -/
def sortFields {α : Type} (fs : List (String × α)) : List (String × α) :=
  (fs.foldl (fun done f => placeField f done) []).reverse

theorem placeField_perm {α : Type} (f : String × α) (gs : List (String × α)) :
    (placeField f gs).Perm (f :: gs) := by
  induction gs with
  | nil => exact .refl _
  | cons g gs ih =>
    rw [placeField]
    split
    · exact (ih.cons g).trans (.swap f g gs)
    · exact .refl _

/-- No field is lost and none is added. -/
theorem sortFields_perm {α : Type} (fs : List (String × α)) : (sortFields fs).Perm fs := by
  have placed (fs done : List (String × α)) :
      (fs.foldl (fun done f => placeField f done) done).Perm (fs ++ done) := by
    induction fs generalizing done with
    | nil => exact .refl _
    | cons f fs ih =>
      exact (ih _).trans (((placeField_perm f done).append_left fs).trans List.perm_middle)
  simpa [sortFields] using (List.reverse_perm _).trans (placed fs [])

/-! ### Comments and keys -/

/-- The lines of comment above a value. -/
def commentsAbove (o : RenderOptions) (depth : Nat) (v : Value) : String :=
  let line (text : String) (apart : Bool) : String :=
    o.indent depth ++ "#" ++ (if apart then " " else "") ++ text ++ "\n"
  let origins :=
    if o.originComments then
      (Text.lines v.origin.describe.toList).map fun l => line (String.ofList l) (!l.isEmpty)
    else []
  let comments :=
    if o.comments then
      v.origin.comments.map fun c => line c (c.toList.head? != some ' ')
    else []
  "".intercalate (origins ++ comments)

/-- A key with its separator, as it stands before a value. -/
def renderKey (o : RenderOptions) (v : Value) (key : String) : String :=
  if o.json then Text.quote key ++ o.colon
  else
    Text.bareOrQuoted key
      ++ (if v.fields?.isSome then (if o.formatted then " " else "") else "=")

/-! ### Writings -/

/-- Text to be written behind other text, once the last `back` characters of that are taken
back.  Only a merge without layers takes anything back: where it stands, a separator that was
never written is removed. -/
structure Writing where
  back : Nat := 0
  text : String := ""
  deriving DecidableEq, Repr

namespace Writing

/-- Text that takes nothing back. -/
def plain (text : String) : Writing := { text }

/-- One writing behind another. -/
def before (a b : Writing) : Writing :=
  if b.back = 0 then { a with text := a.text ++ b.text }
  else
    let cs := a.text.toList
    { back := a.back + (b.back - cs.length)
      text := String.ofList (cs.take (cs.length - b.back)) ++ b.text }

instance : Append Writing := ⟨before⟩

/-- Writings with a separator between them. -/
def join (separator : String) : List Writing → Writing
  | [] => {}
  | w :: ws => ws.foldl (fun out v => out ++ plain separator ++ v) w

end Writing

/-! ### Values -/

/-- What takes back the separator behind an item. -/
def takeItemEnd (o : RenderOptions) : Writing := { back := o.itemEnd.length }

/-- The text above the layers of a merge. -/
def mergeHead (o : RenderOptions) (count : Nat) : Writing :=
  if o.comments then
    .plain ("# unresolved merge of " ++ toString count ++ " values follows (\n")
  else {}

/-- The text below the layers of a merge. -/
def mergeFoot (o : RenderOptions) (depth : Nat) : Writing :=
  .plain (o.lineEnd ++ if o.comments then o.indent depth ++ "# ) end of unresolved merge\n" else "")

/-- What stands above and before one layer of a merge; `below` counts the layers under it. -/
def layerHead (o : RenderOptions) (depth : Nat) (key : Option String) (v : Value)
    (below : Nat) : Writing :=
  let comment :=
    if o.comments then
      o.indent depth ++ "#     unmerged value " ++ toString below
        ++ (match key with
          | some k => " for key " ++ Text.quote k
          | none => "")
        ++ " from " ++ v.origin.describe ++ "\n"
    else ""
  let keyText :=
    match key with
    | some k => Text.quote k ++ o.colon
    | none => ""
  .plain (comment ++ o.indent depth ++ keyText)

/-- The comments above a value and the blanks in front of it. -/
def itemHead (o : RenderOptions) (depth : Nat) (v : Value) : Writing :=
  .plain (commentsAbove o depth v ++ o.indent depth)

/-- The key in front of a value, if it has one, with its separator. -/
def keyHead (o : RenderOptions) (key : Option String) (v : Value) : Writing :=
  .plain (match key with
    | some k => renderKey o v k
    | none => "")

mutual

/-- The text of a value behind its key, if it has one.  A merge repeats its key in front of
every layer. -/
def renderAt (o : RenderOptions) (depth : Nat) (atRoot : Bool) (key : Option String) :
    Value → Writing
  | merge _ _ layers =>
    mergeHead o layers.length
      ++ (if layers.isEmpty then takeItemEnd o
        -- the lowest layer comes first, since later fields go on top
        else .join o.itemEnd (layerParts o depth atRoot key layers).reverse)
      ++ mergeFoot o depth
  | object p closed fs =>
    keyHead o key (object p closed fs) ++
      if fs.isEmpty then .plain "\x7b\x7d"
      else
        -- HOCON allows the root to go without braces
        let braces := o.json || !atRoot
        let inner := if braces then depth + 1 else depth
        -- fields are written in the order of their keys, not in that of the document
        let parts := sortFields (fieldParts o inner fs)
        .plain (if braces then "\x7b" ++ o.lineEnd else "")
          ++ .join o.fieldEnd (parts.map (·.2))
          ++ .plain (if braces then o.lineEnd ++ o.indent depth ++ "\x7d" else "")
  | list p xs =>
    keyHead o key (list p xs) ++
      if xs.isEmpty then .plain "[]"
      else
        .plain ("[" ++ o.lineEnd) ++ .join o.itemEnd (itemParts o (depth + 1) xs)
          ++ .plain (o.lineEnd ++ o.indent depth ++ "]")
  | concat p pieces => keyHead o key (concat p pieces) ++ .join "" (pieceParts o depth pieces)
  | string p t q => keyHead o key (string p t q) ++ .plain (Text.quote t)
  | reference p r => keyHead o key (reference p r) ++ .plain r.target.render
  | v => keyHead o key v ++ .plain (v.scalarText?.getD "")

def fieldParts (o : RenderOptions) (depth : Nat) : Entries Value → List (String × Writing)
  | [] => []
  | (k, v) :: fs =>
    (k, itemHead o depth v ++ renderAt o depth false (some k) v) :: fieldParts o depth fs

def itemParts (o : RenderOptions) (depth : Nat) : List Value → List Writing
  | [] => []
  | v :: vs => (itemHead o depth v ++ renderAt o depth false none v) :: itemParts o depth vs

def pieceParts (o : RenderOptions) (depth : Nat) : List Value → List Writing
  | [] => []
  | v :: vs => renderAt o depth false none v :: pieceParts o depth vs

def layerParts (o : RenderOptions) (depth : Nat) (atRoot : Bool) (key : Option String) :
    List Value → List Writing
  | [] => []
  | v :: vs =>
    (layerHead o depth key v vs.length ++ renderAt o depth atRoot none v)
      :: layerParts o depth atRoot key vs

end

/-- The value as text.  An object on lines of its own ends with a line feed. -/
def render (v : Value) (o : RenderOptions) : String :=
  let text := (renderAt o 0 true none v).text
  if o.formatted && v.fields?.isSome && text.toList.getLast? != some '\n' then text ++ "\n"
  else text

end Value

end Hocon
