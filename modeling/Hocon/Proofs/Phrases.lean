import Hocon.Proofs.Following
import Hocon.Proofs.Spelling

/-!
# The phrases of a document

A document in HOCON is a phrase: fields and include statements, whose values are terms that stand
beside each other, and terms hold phrases in turn.  A phrase has no comments, no line ends and no
commas, and it keeps apart what is one in a tree: the fields that a key has several times, and the
neighbours of which a value is made.

`Body.Written` and its like say which kinds of tokens are a way of writing a phrase.  Where the
line ends and the commas are is a matter of the writing.
-/

namespace Hocon

mutual

/-- A value that stands for itself. -/
inductive Term where
  | literal (literal : Literal)
  | bare (text : String)
  | reference (target : PathReference)
  | object (body : Body)
  | list (rows : Rows)

/-- Terms beside each other. -/
inductive Terms where
  | nil
  | cons (term : Term) (terms : Terms)

/-- A value: one term or more beside each other. -/
inductive Row where
  | mk (term : Term) (terms : Terms)

/-- The items of a list. -/
inductive Rows where
  | nil
  | cons (row : Row) (rows : Rows)

/-- Fields and include statements, in order. -/
inductive Body where
  | nil
  /-- A field; it may grow what the key held before. -/
  | field (key : Path) (grows : Bool) (row : Row) (rest : Body)
  | inclusion (request : IncludeRequest) (rest : Body)

end

def Rows.isNil : Rows → Bool
  | nil => true
  | cons _ _ => false

def Body.isNil : Body → Bool
  | nil => true
  | _ => false

/-! ### Ways of writing -/

/-- What stands behind a field or an item: it may be nothing if no other follows. -/
inductive WritesGap : Bool → List TokenKind → Prop
  | separator (last : Bool) {kinds : List TokenKind} (h : SpellsSeparator kinds) :
      WritesGap last kinds
  | nothing : WritesGap true []

/-- The tokens of a key; an include statement does not start with them. -/
structure WritesKey (key : Path) (kinds : List TokenKind) : Prop where
  path : Path.ofTokens? kinds = .ok key
  noInclude : ∀ kind ∈ kinds.head?, kind.isInclude = false

/-- The sign in front of a value, which tells whether it grows what the key held before. -/
inductive WritesSign : Bool → TokenKind → Prop
  | colon : WritesSign false .colon
  | equals : WritesSign false .equals
  | plusEquals : WritesSign true .plusEquals

/-- What stands between a key and its value; an object needs no sign. -/
inductive WritesLink : Bool → Row → List TokenKind → Prop
  | sign (m n : Nat) {grows : Bool} (row : Row) {kind : TokenKind} (h : WritesSign grows kind) :
      WritesLink grows row (newlines m ++ kind :: newlines n)
  | object (m : Nat) (body : Body) : WritesLink false (.mk (.object body) .nil) (newlines m)

/-- The words in front of the name of an include statement and the name; `words` were read
before. -/
inductive WritesName : String → String → String → List TokenKind → Prop
  | name (n : Nat) (words name : String) :
      WritesName words words name (newlines n ++ [.value (.string name)])
  | word (n : Nat) {words all name : String} (text : String) {kinds : List TokenKind}
      (rest : WritesName (if (TokenKind.bare text).isBlank then words else words ++ text) all name
        kinds) :
      WritesName words all name (newlines n ++ .bare text :: kinds)

/-- Closing parentheses, as many as are open. -/
inductive WritesClosing : Nat → List TokenKind → Prop
  | none : WritesClosing 0 []
  | blank (n : Nat) {unclosed : Nat} {text : String} {kinds : List TokenKind}
      (isBlank : (TokenKind.bare text).isBlank = true) (rest : WritesClosing (unclosed + 1) kinds) :
      WritesClosing (unclosed + 1) (newlines n ++ .bare text :: kinds)
  | close (n : Nat) {unclosed : Nat} {text : String} {kinds : List TokenKind}
      (notBlank : (TokenKind.bare text).isBlank = false) (present : text ≠ "")
      (parentheses : text.toList.all (· == ')') = true) (enough : text.length ≤ unclosed + 1)
      (rest : WritesClosing (unclosed + 1 - text.length) kinds) :
      WritesClosing (unclosed + 1) (newlines n ++ .bare text :: kinds)

/-- The words in front of a name that ask for a document in some way, and how many parentheses
they open. -/
def AsksFor (words : String) (required isFileName : Bool) (unclosed : Nat) : Prop :=
  ∀ (c : Document.Context) (n : Document.IncludeName), n.words = words →
    Document.includeWords c n = .ok (required, isFileName, unclosed)

/-- The tokens of an include statement. -/
inductive WritesInclusion : IncludeRequest → List TokenKind → Prop
  | mk {keyword : TokenKind} {words name : String} {required isFileName : Bool} {unclosed : Nat}
      {kinds closing : List TokenKind} (isKeyword : keyword.isInclude = true)
      (hname : WritesName "" words name kinds) (asks : AsksFor words required isFileName unclosed)
      (hclosing : WritesClosing unclosed closing) :
      WritesInclusion { name, isFileName, required } (keyword :: (kinds ++ closing))

mutual

/-- Tokens of these kinds are a way of writing a term. -/
inductive Term.Written : Term → List TokenKind → Prop
  | literal (literal : Literal) : Term.Written (.literal literal) [.value literal]
  | bare (text : String) : Term.Written (.bare text) [.bare text]
  | reference (optional : Bool) {path : Path} {expression : List Token}
      (h : Path.ofTokens? (expression.map Placed.kind) = .ok path) :
      Term.Written (.reference ⟨path, optional⟩) [.substitution optional expression]
  | object (n : Nat) {body : Body} {kinds : List TokenKind} (h : Body.Written body kinds) :
      Term.Written (.object body) (.openBrace :: (newlines n ++ (kinds ++ [.closeBrace])))
  | list (n : Nat) {rows : Rows} {kinds : List TokenKind} (h : Rows.Written rows kinds) :
      Term.Written (.list rows) (.openBracket :: (newlines n ++ (kinds ++ [.closeBracket])))

/-- A way of writing terms beside each other. -/
inductive Terms.Written : Terms → List TokenKind → Prop
  | nil : Terms.Written .nil []
  | cons {term : Term} {terms : Terms} {kinds kinds' : List TokenKind}
      (head : Term.Written term kinds) (tail : Terms.Written terms kinds') :
      Terms.Written (.cons term terms) (kinds ++ kinds')

/-- A way of writing a value. -/
inductive Row.Written : Row → List TokenKind → Prop
  | mk {term : Term} {terms : Terms} {kinds kinds' : List TokenKind}
      (head : Term.Written term kinds) (tail : Terms.Written terms kinds') :
      Row.Written (.mk term terms) (kinds ++ kinds')

/-- A way of writing the items of a list; a separator may stand behind the last one. -/
inductive Rows.Written : Rows → List TokenKind → Prop
  | nil : Rows.Written .nil []
  | cons {row : Row} {rows : Rows} {kinds gap rest : List TokenKind} (hrow : Row.Written row kinds)
      (hgap : WritesGap rows.isNil gap) (hrest : Rows.Written rows rest) :
      Rows.Written (.cons row rows) (kinds ++ (gap ++ rest))

/-- A way of writing fields and include statements; a separator may stand behind the last one. -/
inductive Body.Written : Body → List TokenKind → Prop
  | nil : Body.Written .nil []
  | field {key : Path} {grows : Bool} {row : Row} {body : Body}
      {keys link kinds gap rest : List TokenKind} (hkey : WritesKey key keys)
      (hlink : WritesLink grows row link) (hrow : Row.Written row kinds)
      (hgap : WritesGap body.isNil gap) (hrest : Body.Written body rest) :
      Body.Written (.field key grows row body) (keys ++ (link ++ (kinds ++ (gap ++ rest))))
  | inclusion {request : IncludeRequest} {body : Body} {kinds gap rest : List TokenKind}
      (h : WritesInclusion request kinds) (hgap : WritesGap body.isNil gap)
      (hrest : Body.Written body rest) :
      Body.Written (.inclusion request body) (kinds ++ (gap ++ rest))

end

/-- What is to be shown of each way of writing a phrase, if it holds of the phrases in it. -/
structure WrittenCases (P : Term → List TokenKind → Prop) (Q : Terms → List TokenKind → Prop)
    (R : Row → List TokenKind → Prop) (S : Rows → List TokenKind → Prop)
    (B : Body → List TokenKind → Prop) : Prop where
  literal : ∀ literal, P (.literal literal) [.value literal]
  bare : ∀ text, P (.bare text) [.bare text]
  reference : ∀ optional {path} {expression : List Token},
    Path.ofTokens? (expression.map Placed.kind) = .ok path →
    P (.reference ⟨path, optional⟩) [.substitution optional expression]
  object : ∀ n {body kinds}, Body.Written body kinds → B body kinds →
    P (.object body) (.openBrace :: (newlines n ++ (kinds ++ [.closeBrace])))
  list : ∀ n {rows kinds}, Rows.Written rows kinds → S rows kinds →
    P (.list rows) (.openBracket :: (newlines n ++ (kinds ++ [.closeBracket])))
  noTerm : Q .nil []
  terms : ∀ {term terms kinds kinds'}, Term.Written term kinds → Terms.Written terms kinds' →
    P term kinds → Q terms kinds' → Q (.cons term terms) (kinds ++ kinds')
  row : ∀ {term terms kinds kinds'}, Term.Written term kinds → Terms.Written terms kinds' →
    P term kinds → Q terms kinds' → R (.mk term terms) (kinds ++ kinds')
  noRow : S .nil []
  rows : ∀ {row rows kinds gap rest}, Row.Written row kinds → WritesGap rows.isNil gap →
    Rows.Written rows rest → R row kinds → S rows rest →
    S (.cons row rows) (kinds ++ (gap ++ rest))
  noField : B .nil []
  field : ∀ {key grows row body keys link kinds gap rest}, WritesKey key keys →
    WritesLink grows row link → Row.Written row kinds → WritesGap body.isNil gap →
    Body.Written body rest → R row kinds → B body rest →
    B (.field key grows row body) (keys ++ (link ++ (kinds ++ (gap ++ rest))))
  inclusion : ∀ {request body kinds gap rest}, WritesInclusion request kinds →
    WritesGap body.isNil gap → Body.Written body rest → B body rest →
    B (.inclusion request body) (kinds ++ (gap ++ rest))

namespace WrittenCases

variable {P : Term → List TokenKind → Prop} {Q : Terms → List TokenKind → Prop}
  {R : Row → List TokenKind → Prop} {S : Rows → List TokenKind → Prop}
  {B : Body → List TokenKind → Prop} (cases : WrittenCases P Q R S B)

include cases

mutual

theorem ofTerm {term : Term} {kinds : List TokenKind} : Term.Written term kinds → P term kinds
  | .literal literal => cases.literal literal
  | .bare text => cases.bare text
  | .reference optional h => cases.reference optional h
  | .object n h => cases.object n h (ofBody h)
  | .list n h => cases.list n h (ofRows h)

theorem ofTerms {terms : Terms} {kinds : List TokenKind} : Terms.Written terms kinds → Q terms kinds
  | .nil => cases.noTerm
  | .cons head tail => cases.terms head tail (ofTerm head) (ofTerms tail)

theorem ofRow {row : Row} {kinds : List TokenKind} : Row.Written row kinds → R row kinds
  | .mk head tail => cases.row head tail (ofTerm head) (ofTerms tail)

theorem ofRows {rows : Rows} {kinds : List TokenKind} : Rows.Written rows kinds → S rows kinds
  | .nil => cases.noRow
  | .cons hrow hgap hrest => cases.rows hrow hgap hrest (ofRow hrow) (ofRows hrest)

theorem ofBody {body : Body} {kinds : List TokenKind} : Body.Written body kinds → B body kinds
  | .nil => cases.noField
  | .field hkey hlink hrow hgap hrest =>
    cases.field hkey hlink hrow hgap hrest (ofRow hrow) (ofBody hrest)
  | .inclusion h hgap hrest => cases.inclusion h hgap hrest (ofBody hrest)

end

end WrittenCases

/-- A whole document: an object or a list, or fields without braces around them. -/
inductive Script where
  | term (term : Term)
  | body (body : Body)

/-- A way of writing a document. -/
inductive Script.Written : Script → List TokenKind → Prop
  | object (m n : Nat) {body : Body} {kinds : List TokenKind}
      (h : Term.Written (.object body) kinds) :
      Script.Written (.term (.object body)) (newlines m ++ (kinds ++ newlines n))
  | list (m n : Nat) {rows : Rows} {kinds : List TokenKind}
      (h : Term.Written (.list rows) kinds) :
      Script.Written (.term (.list rows)) (newlines m ++ (kinds ++ newlines n))
  | body (n : Nat) {body : Body} {kinds : List TokenKind} (h : Body.Written body kinds) :
      Script.Written (.body body) (newlines n ++ kinds)

end Hocon
