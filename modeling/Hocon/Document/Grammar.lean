import Hocon.Document.Item
import Hocon.Token.Lexer
import Hocon.Value.Join
import Hocon.Value.Relocate

/-!
# The grammar of documents

A document is read by recursive descent over its items.  Every function takes the items that
are left and gives back those that it leaves; each type says that these are no more than
before, and so reading ends.

Where an included document comes from is not decided here: the reader is given a function
that answers an `IncludeRequest`.  It may fail, and it may keep a record of the requests.
-/

namespace Hocon

/-! ### Including -/

/-- What an include statement asks for. -/
structure IncludeRequest where
  name : String
  /-- The name is a file's name, not one relative to the document. -/
  isFileName : Bool
  /-- The document has to be there. -/
  required : Bool
  deriving DecidableEq, Repr

/-- A question that an includer was asked, and the state of affairs at that time. -/
structure IncludeRecord where
  includer : String
  name : String
  /-- The documents being read, outermost first. -/
  chain : List String
  allowMissing : Bool
  /-- The name as seen from the including document. -/
  relative : String
  deriving DecidableEq, Repr

/-- A computation that may fail and keeps a record of includes, also when it fails. -/
abbrev Loading := ExceptT Error (StateM (List IncludeRecord))

/-! ### Places -/

namespace Document

/-- What is known at a place in a document. -/
structure Context where
  syn : DocumentSyntax
  /-- The origin of the document. -/
  origin : Origin
  /-- The item for the end of the document. -/
  stop : Item
  /-- The keys of the fields around this place, the innermost first. -/
  keys : List Path
  /-- Whether a value around this place follows an equals sign. -/
  afterEquals : Bool
  answer : IncludeRequest → Loading Value

namespace Context

def originAt (c : Context) (line : Nat) : Origin := c.origin.atLine line

/-- The path of the field around this place. -/
def place? (c : Context) : Option Path :=
  Path.ofKeys? (c.keys.reverse.flatMap Path.keys)

/-- The context of the value of a field. -/
def enter (c : Context) (key : Path) : Context := { c with keys := key :: c.keys }

/-- The item at this place. -/
def front (c : Context) (s : List Item) : Item := s.headD c.stop

/-- An error at an item. -/
def fail (c : Context) (t : Item) (fault : ParseFault) (hint : ParseHint := .none) : Error :=
  .parse (c.originAt t.line) fault hint (some t.span)

/-- The hint that names the key around this place. -/
def keyHint (c : Context) : ParseHint := .inKey c.keys.head?

/-- The hint that quotes may help with an item. -/
def quoteHint (c : Context) (t : Item) : ParseHint :=
  .quotes c.keys.head? t.describe c.afterEquals

/-- The error of an item that may stand nowhere in the document. -/
def refusal? (c : Context) (t : Item) : Option Error :=
  match t.kind, c.syn with
  | .problem p, _ =>
    some (c.fail t (.lexical p) (if p.suggestsQuotes then c.quoteHint t else c.keyHint))
  | .bare text, .json => some (c.fail t (.bareTextInJson text) c.keyHint)
  | .substitution _ _, .json => some (c.fail t .substitutionInJson c.keyHint)
  | _, _ => none

end Context

/-- Items of which there are no more than in `s`. -/
abbrev Left (s : List Item) := { r : List Item // r.length ≤ s.length }

/-- Items of which there are less than in `s`. -/
abbrev Fewer (s : List Item) := { r : List Item // r.length < s.length }

/-- A result with the items that are left of `s`. -/
abbrev Read (α : Type) (s : List Item) := Loading (α × Left s)

/-! ### Moving on -/

/-- Refuses the front item if it may stand nowhere. -/
def checkFront (c : Context) (s : List Item) : Loading Unit :=
  match c.refusal? (c.front s) with
  | some e => throw e
  | none => pure ()

/-- The items behind the line ends here, the front one checked. -/
def skipNewlines (c : Context) (s : List Item) : Loading (Left s) := do
  let r := s.dropWhile Item.isNewline
  checkFront c r
  return ⟨r, (List.dropWhile_suffix _).length_le⟩

/-- Whether two fields or elements are separated here, and what is left. -/
inductive Separation (s : List Item) where
  | found (rest : Fewer s)
  | missing (rest : Left s)

/-- Reads a comma, or in HOCON the end of a line, with the line ends around it. -/
def readSeparator (c : Context) (s : List Item) : Loading (Separation s) := do
  let r ← skipNewlines c s
  let other : Separation s :=
    if h : c.syn ≠ .json ∧ r.val.length < s.length then .found ⟨r.val, h.2⟩ else .missing r
  match r with
  | ⟨[], _⟩ => return other
  | ⟨t :: rest, h⟩ =>
    match t.kind with
    | .comma => return .found ⟨rest, h⟩
    | _ => return other

/-! ### Scalars and references -/

/-- The value of a literal. -/
def literalValue (o : Origin) : Literal → Value
  | .null => .null { origin := o }
  | .bool b => .bool { origin := o } b
  | .whole n text => .ofInt64 o n (some text)
  | .double d text => .ofDouble o d (some text)
  | .string text => .ofText o text

/-- A token of a path as the text spells it. -/
def sourceText : TokenKind → String
  | .bare text => text
  | .value (.string text) => "\"" ++ text ++ "\""
  | .value literal => literal.text
  | other => other.describe

/-- The path that tokens spell. -/
def pathOf (o : Origin) (kinds : List TokenKind) : Except Error Path :=
  match Path.ofTokens? kinds with
  | .ok p => .ok p
  | .error fault => .error (.badPath (some o) ("".intercalate (kinds.map sourceText)) fault)

/-- A value with comments put in front of its own. -/
def withComments (v : Value) (comments : List String) : Value :=
  if comments.isEmpty then v else v.withOrigin (v.origin.prependComments comments)

/-! ### Include statements -/

/-- The words before the name of an include statement, the name and its item. -/
structure IncludeName where
  words : String
  name : String
  item : Item

/-- Reads the name of an include statement; `words` were read before. -/
def readIncludeName (c : Context) (words : String) (s : List Item) : Read IncludeName s := do
  let ⟨r, h⟩ ← skipNewlines c s
  let refuse (t : Item) : Error :=
    c.fail t (if words = "" then .noIncludeName t.describe else .noIncludeArgument t.describe)
  match r, h with
  | [], _ => throw (refuse c.stop)
  | t :: rest, h =>
    have lt : rest.length < s.length := h
    match t.kind with
    | .value (.string name) => return (⟨words, name, t⟩, ⟨rest, by omega⟩)
    | .bare text =>
      let (found, ⟨q, _⟩) ← readIncludeName c (if t.isBlank then words else words ++ text) rest
      return (found, ⟨q, by omega⟩)
    | _ => throw (refuse t)
termination_by s.length

/-- Reads as many closing parentheses as are open. -/
def readClosing (c : Context) (unclosed : Nat) (s : List Item) : Loading (Left s) := do
  if unclosed = 0 then return ⟨s, Nat.le_refl _⟩
  let ⟨r, h⟩ ← skipNewlines c s
  let refuse (t : Item) : Error := c.fail t (.noCloseParenthesis t.describe)
  match r, h with
  | [], _ => throw (refuse c.stop)
  | t :: rest, h =>
    have lt : rest.length < s.length := h
    if t.isBlank then
      let ⟨q, _⟩ ← readClosing c unclosed rest
      return ⟨q, by omega⟩
    else
      match t.kind with
      | .bare text =>
        if text ≠ "" ∧ text.toList.all (· == ')') ∧ text.length ≤ unclosed then
          let ⟨q, _⟩ ← readClosing c (unclosed - text.length) rest
          return ⟨q, by omega⟩
        else throw (refuse t)
      | _ => throw (refuse t)
termination_by s.length

/-- What the words before the name ask for: whether the document is required, whether the
name is a file's name, and how many parentheses are open. -/
def includeWords (c : Context) (n : IncludeName) : Except Error (Bool × Bool × Nat) :=
  let opening := "required("
  let required := opening.toList.isPrefixOf n.words.toList
  let word := if required then String.ofList (n.words.toList.drop opening.length) else n.words
  let depth := if required then 1 else 0
  if word = "" then .ok (required, false, depth)
  else if word = "file(" then .ok (required, true, depth + 1)
  else if word = "url(" ∨ word = "classpath(" then
    .error (c.fail n.item (.unsupportedInclude word))
  else .error (c.fail n.item (.badIncludeWord n.words))

/-- Puts the fields of an included object over earlier ones. -/
def includeFields (fields included : Entries Value) : Entries Value :=
  included.foldl (fun fs f =>
    Entries.put fs f.1
      (match Entries.get? fs f.1 with
        | some earlier => f.2.withFallback earlier
        | none => f.2)) fields

/-- Reads an include statement behind its keyword, and puts what it includes over the
fields so far. -/
def readInclude (c : Context) (fields : Entries Value) (keyword : Item) (s : List Item) :
    Read (Entries Value) s := do
  let (n, ⟨r, _⟩) ← readIncludeName c "" s
  let (required, isFileName, depth) ← includeWords c n
  let ⟨q, _⟩ ← readClosing c depth r
  let origin := c.originAt keyword.line
  let request : IncludeRequest := { name := n.name, isFileName, required }
  -- the failure is looked at, but the record of requests is kept
  let answer : Except Error Value ←
    (ExceptT.run (c.answer request) : StateM (List IncludeRecord) (Except Error Value))
  match answer with
  | .error e =>
    match e, required with
    | .unreadable _ fault, true => throw (.notIncluded origin (.requiredMissing n.name fault))
    | _, _ => throw e
  | .ok v =>
    let v := match c.place? with
      | some place => v.relocate place
      | none => v
    match v.fields? with
    | some included => return (includeFields fields included, ⟨q, by omega⟩)
    | none => throw (.notIncluded origin (.notAnObject n.name))

/-! ### Keys and fields -/

/-- Reads the key of a field that starts with the item `t`. -/
def readKey (c : Context) (t : Item) (s : List Item) : Read Path s :=
  if c.syn = .json then
    match t.kind with
    | .value (.string key) => return (.ofKey key, ⟨s, Nat.le_refl _⟩)
    | _ => throw (c.fail t (.noFieldInJson t.describe) c.keyHint)
  else if t.isKeyPiece then do
    -- a key does not go on beyond its line
    let rest := s.dropWhile Item.isKeyPiece
    checkFront c rest
    let kinds := (t :: s.takeWhile Item.isKeyPiece).map Item.kind
    let key ← pathOf (c.originAt t.line) kinds
    return (key, ⟨rest, (List.dropWhile_suffix _).length_le⟩)
  else throw (c.fail t (.noField t.describe) c.keyHint)

/-- Whether an item separates a key from its value. -/
def isKeySeparator (c : Context) (t : Item) : Bool :=
  match t.kind with
  | .colon => true
  | .equals => c.syn != .json
  | .plusEquals => c.syn != .json
  | _ => false

/-- The value of `key += value`: the list of the value behind what the key held before. -/
def appended (c : Context) (key : Path) (v : Value) : Except Error Value :=
  let place := match c.place? with
    | some p => key.prepend p
    | none => key
  let earlier := Value.ofReference v.origin { path := place, optional := true }
  match Value.concatenate [earlier, .ofItems v.origin [v]] with
  | .error e => .error e
  | .ok (some v) => .ok v
  | .ok none => .error (.broken .appendedNothing)

/-- A value nested under keys; the new objects do not take its comments. -/
def nest (v : Value) (keys : List String) : Value :=
  keys.foldr (fun key inner => .ofFields (v.origin.withComments []) [(key, inner)]) v

/-- Puts a value at a key over the fields so far; JSON allows each key once. -/
def putField (c : Context) (fields : Entries Value) (keyItem : Item) (key : Path) (v : Value) :
    Except Error (Entries Value) :=
  match Entries.get? fields key.first with
  | none => .ok (Entries.put fields key.first (nest v key.rest))
  | some earlier =>
    if c.syn = .json ∧ key.rest = [] then
      .error (c.fail keyItem (.duplicateField key.first earlier.origin))
    else .ok (Entries.put fields key.first ((nest v key.rest).withFallback earlier))

/-- The fields of an object so far. -/
structure Fields where
  entries : Entries Value := []
  afterSeparator : Bool := false
  /-- The key of the last field, and whether its value follows an equals sign. -/
  lastKey : Option Path := none
  lastAfterEquals : Bool := false

/-- The hint behind the fields so far that quotes may help. -/
def Fields.hint (f : Fields) (c : Context) (t : Item) : ParseHint :=
  .quotes (f.lastKey.or c.keys.head?) t.describe f.lastAfterEquals

/-! ### Values -/

mutual

/-- Reads a value that starts with the item `t`; `comments` stand above its key. -/
def readValue (c : Context) (t : Item) (comments : List String) (s : List Item) :
    Read Value s := do
  let origin := c.originAt t.line
  let finish (v : Value) : Value := withComments v (comments ++ t.comments)
  match t.kind with
  | .value literal => return (finish (literalValue origin literal), ⟨s, Nat.le_refl _⟩)
  | .bare text => return (finish (.bareText origin text), ⟨s, Nat.le_refl _⟩)
  | .substitution optional expression =>
    let path ← pathOf origin (expression.map Placed.kind)
    return (finish (.ofReference origin { path, optional }), ⟨s, Nat.le_refl _⟩)
  | .openBrace =>
    let (fields, r) ← readFields c true {} s
    return (finish (.ofFields origin fields), r)
  | .openBracket =>
    let (items, r) ← readList c s
    return (finish (.ofItems origin items), r)
  | _ => throw (c.fail t (.noValue t.describe) (c.quoteHint t))
termination_by 5 * s.length + 4
decreasing_by all_goals omega

/-- Reads the values that stand beside each other here, on one line. -/
def readPieces (c : Context) (first : Bool) (s : List Item) : Read (List Value) s :=
  match s with
  | [] => return ([], ⟨[], Nat.le_refl _⟩)
  | t :: rest =>
    if t.continuesValue then do
      -- what stands above the first piece goes to the joined value
      let u := { t with comments := if first then [] else t.comments }
      let (v, ⟨r, hr⟩) ← readValue c u [] rest
      checkFront c r
      have lt : r.length < (t :: rest).length := Nat.lt_succ_of_le hr
      let (vs, ⟨q, hq⟩) ← readPieces c false r
      return (v :: vs, ⟨q, by omega⟩)
    else return ([], ⟨t :: rest, Nat.le_refl _⟩)
termination_by 5 * s.length
decreasing_by
  · rw [List.length_cons]
    omega
  · omega

/-- Reads a value, joined from all that stand beside each other if this is HOCON.  The
comments above its key come first. -/
def readJoined (c : Context) (comments : List String) (s : List Item) :
    Read (Option Value) s := do
  let ⟨r, hr⟩ ← skipNewlines c s
  if c.syn = .json then return (none, ⟨r, hr⟩)
  let above := (c.front r).comments
  let (pieces, ⟨q, hq⟩) ← readPieces c true r
  match ← Value.concatenate pieces with
  | some v => return (some (withComments v (comments ++ above)), ⟨q, by omega⟩)
  | none => return (none, ⟨q, by omega⟩)
termination_by 5 * s.length + 1
decreasing_by all_goals omega

/-- Reads the items of a list behind its opening bracket, and the closing one. -/
def readList (c : Context) (s : List Item) : Read (List Value) s := do
  let (joined, ⟨r, hr⟩) ← readJoined c [] s
  match joined with
  | some v =>
    let (vs, ⟨q, hq⟩) ← readItems c r
    return (v :: vs, ⟨q, by omega⟩)
  | none =>
    let ⟨q, hq⟩ ← skipNewlines c r
    match q, hq with
    | [], _ => throw (c.fail c.stop (.noFirstElement c.stop.describe) c.keyHint)
    | t :: rest, hq =>
      have lt : rest.length < r.length := hq
      match t.kind with
      | .closeBracket => return ([], ⟨rest, by omega⟩)
      | _ =>
        if t.opensValue then
          let (v, ⟨p, hp⟩) ← readValue c t [] rest
          let (vs, ⟨p', hp'⟩) ← readItems c p
          return (v :: vs, ⟨p', by omega⟩)
        else throw (c.fail t (.noFirstElement t.describe) c.keyHint)
termination_by 5 * s.length + 3
decreasing_by all_goals omega

/-- Reads the items of a list behind one of them, and the closing bracket. -/
def readItems (c : Context) (s : List Item) : Read (List Value) s := do
  match ← readSeparator c s with
  | .missing ⟨r, hr⟩ =>
    match r, hr with
    | [], _ => throw (c.fail c.stop (.openList c.stop.describe) c.keyHint)
    | t :: rest, hr =>
      have lt : rest.length < s.length := hr
      match t.kind with
      | .closeBracket => return ([], ⟨rest, by omega⟩)
      | _ => throw (c.fail t (.openList t.describe) c.keyHint)
  | .found ⟨r, hr⟩ =>
    let (joined, ⟨q, hq⟩) ← readJoined c [] r
    match joined with
    | some v =>
      let (vs, ⟨p, hp⟩) ← readItems c q
      return (v :: vs, ⟨p, by omega⟩)
    | none =>
      let ⟨p, hp⟩ ← skipNewlines c q
      match p, hp with
      | [], _ => throw (c.fail c.stop (.noNextElement c.stop.describe) c.keyHint)
      | t :: rest, hp =>
        have lt : rest.length < q.length := hp
        if t.opensValue then
          let (v, ⟨p, hp⟩) ← readValue c t [] rest
          let (vs, ⟨p', hp'⟩) ← readItems c p
          return (v :: vs, ⟨p', by omega⟩)
        else
          match t.kind, c.syn with
          -- HOCON allows one comma behind the last item
          | .closeBracket, .conf => return ([], ⟨rest, by omega⟩)
          | _, _ => throw (c.fail t (.noNextElement t.describe) c.keyHint)
termination_by 5 * s.length + 2
decreasing_by all_goals omega

/-- Reads a value behind the separator of a field, where `comments` stand above it. -/
def readFieldValue (c : Context) (comments : List String) (s : List Item) :
    Read Value s := do
  let (joined, ⟨r, hr⟩) ← readJoined c comments s
  match joined with
  | some v => return (v, ⟨r, hr⟩)
  | none =>
    let ⟨q, hq⟩ ← skipNewlines c r
    match q, hq with
    | [], _ => throw (c.fail c.stop (.noValue c.stop.describe) (c.quoteHint c.stop))
    | t :: rest, hq =>
      have lt : rest.length < r.length := hq
      let (v, ⟨p, hp⟩) ← readValue c t comments rest
      return (v, ⟨p, by omega⟩)
termination_by 5 * s.length + 2
decreasing_by all_goals omega

/-- Reads a field that starts with the item `t`, and puts it over the fields so far. -/
def readField (c : Context) (f : Fields) (t : Item) (s : List Item) : Read Fields s := do
  let (key, ⟨r, hr⟩) ← readKey c t s
  let inner := c.enter key
  let ⟨q, hq⟩ ← skipNewlines c r
  match q, hq with
  | [], _ =>
    throw (c.fail c.stop (.noSeparator key c.stop.describe) (inner.quoteHint c.stop))
  | u :: rest, hq =>
    have lt : rest.length < s.length := Nat.lt_of_lt_of_le hq hr
    let done (v : Value) (afterEquals : Bool) : Except Error Fields := do
      let entries ← putField c f.entries t key v
      return { f with entries, lastKey := some key, lastAfterEquals := afterEquals }
    match u.kind, c.syn with
    -- an object needs no separator in front
    | .openBrace, .conf =>
      let (v, ⟨p, hp⟩) ← readValue inner u t.comments rest
      return (← done v false, ⟨p, by omega⟩)
    | kind, _ =>
      if isKeySeparator c u then
        let afterEquals := kind.isEquals
        let inner := { inner with afterEquals := c.afterEquals || afterEquals }
        let (v, ⟨p, hp⟩) ← readFieldValue inner (t.comments ++ u.comments) rest
        let v ← if kind.isPlusEquals then appended c key v else pure v
        return (← done v afterEquals, ⟨p, by omega⟩)
      else throw (c.fail u (.noSeparator key u.describe) (inner.quoteHint u))
termination_by 5 * s.length + 2
decreasing_by all_goals omega

/-- Reads fields; `braced` tells whether a brace opened the object and has to close it. -/
def readFields (c : Context) (braced : Bool) (f : Fields) (s : List Item) :
    Read (Entries Value) s := do
  let ⟨r, hr⟩ ← skipNewlines c s
  match r, hr with
  | [], hr =>
    if braced then
      throw (c.fail c.stop
        (if c.syn = .json then .noFieldInJson c.stop.describe else .noField c.stop.describe)
        c.keyHint)
    else return (f.entries, ⟨[], hr⟩)
  | t :: rest, hr =>
    have lt : rest.length < s.length := hr
    match t.kind with
    | .closeBrace =>
      if c.syn = .json ∧ f.afterSeparator then
        throw (c.fail t .braceAfterComma (c.quoteHint t))
      else if !braced then throw (c.fail t .unbalancedBrace (c.quoteHint t))
      else return (f.entries, ⟨rest, by omega⟩)
    | kind =>
      let (f, ⟨q, hq⟩) ←
        if kind.isInclude && c.syn != .json then do
          let (entries, q) ← readInclude c f.entries t rest
          pure ({ f with entries }, q)
        else readField c f t rest
      match ← readSeparator c q with
      | .found ⟨p, hp⟩ =>
        let (entries, ⟨p', hp'⟩) ← readFields c braced { f with afterSeparator := true } p
        return (entries, ⟨p', by omega⟩)
      | .missing ⟨p, hp⟩ =>
        match p, hp with
        | [], hp =>
          if braced then
            throw (c.fail c.stop (.openObject c.stop.describe) (f.hint c c.stop))
          else return (f.entries, ⟨[], by omega⟩)
        | u :: rest', hp =>
          have lt' : rest'.length < q.length := hp
          match u.kind with
          | .closeBrace =>
            if braced then return (f.entries, ⟨rest', by omega⟩)
            else throw (c.fail u .unbalancedBrace (f.hint c u))
          | _ =>
            throw (c.fail u
              (if braced then .openObject u.describe else .openRoot u.describe) (f.hint c u))
termination_by 5 * s.length + 3
decreasing_by all_goals omega

end

/-- Reads a whole document: an object, whose braces HOCON allows to leave out, or a list. -/
def readRoot (c : Context) (s : List Item) : Loading Value := do
  let ⟨r, _⟩ ← skipNewlines c s
  let braceless : Loading (Value × List Item) :=
    if c.syn = .json then
      throw (c.fail (c.front r)
        (if r.isEmpty then .emptyDocument else .badRoot (c.front r).describe))
    else do
      let (fields, q) ← readFields c false {} r
      return (.ofFields (c.originAt (c.front r).line) fields, q.val)
  let (v, q) ← match r with
    | [] => braceless
    | t :: rest =>
      if t.kind.opensContainer then do
        let (v, q) ← readValue c t [] rest
        pure (v, q.val)
      else braceless
  let ⟨p, _⟩ ← skipNewlines c q
  match p with
  | [] => return v
  | t :: _ => throw (c.fail t (.trailing t.describe))

/-- The tree of a text in JSON or HOCON. -/
def read (syn : DocumentSyntax) (origin : Origin) (answer : IncludeRequest → Loading Value)
    (text : String) : Loading Value :=
  let tokens := Token.ofText syn text.toList
  let c : Context :=
    { syn, origin, answer, stop := .stopOf tokens, keys := [], afterEquals := false }
  readRoot c (Item.ofTokens tokens)

end Document

end Hocon
