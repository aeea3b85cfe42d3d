import Hocon.Token

/-!
# Tokens with the comments above them

A comment belongs to the token below it.  A block of comments on lines of their own is
attached to the token that follows, unless a blank line comes between; a comment behind
something else on its line belongs to nothing.  The line ends inside a block stay where
they are, because they separate fields.
-/

namespace Hocon

/-- A token together with the comments above it. -/
structure Item where
  kind : TokenKind
  span : Span
  line : Nat
  comments : List String := []

namespace Item

def ofToken (t : Token) (comments : List String) : Item := ⟨t.kind, t.span, t.line, comments⟩

/-- The token in messages. -/
def describe (t : Item) : String := t.kind.describe

def isNewline (t : Item) : Bool :=
  match t.kind with
  | .newline => true
  | _ => false

/-- Whether the token is bare text of blanks only. -/
def isBlank (t : Item) : Bool := t.kind.isBlank

/-- Whether the token joins the value before it on the line. -/
def continuesValue (t : Item) : Bool :=
  match t.kind with
  | .openBrace => true
  | .openBracket => true
  | kind => kind.isSimpleValue

/-- Whether a value that is not joined with others starts here. -/
def opensValue (t : Item) : Bool :=
  match t.kind with
  | .value _ => true
  | .openBrace => true
  | .openBracket => true
  | _ => false

/-- Whether the token may be part of a key. -/
def isKeyPiece (t : Item) : Bool :=
  match t.kind with
  | .value _ => true
  | .bare _ => true
  | _ => false

end Item

/-- The tokens without the comments that stand behind something else on their line;
`midLine` tells whether something stands there already. -/
def dropSideComments (midLine : Bool) : List Token → List Token
  | [] => []
  | t :: ts =>
    match t.kind with
    | .newline => t :: dropSideComments false ts
    | .comment _ _ =>
      if midLine then dropSideComments midLine ts else t :: dropSideComments midLine ts
    | .start => t :: dropSideComments midLine ts
    | _ => t :: dropSideComments true ts

/-- A block of comments that the next token will take. -/
structure CommentBlock where
  comments : List String
  /-- Whether a line end was the last thing read, so that another one makes a blank line. -/
  afterNewline : Bool

/-- Attaches comments to the tokens below them; `block` is the block that is open, if one is.
The tokens for the ends of the text are left out. -/
def attachComments (block : Option CommentBlock) : List Token → List Item
  | [] => []
  | t :: ts =>
    match t.kind, block with
    | .start, _ => attachComments block ts
    | .stop, _ => attachComments block ts
    | .comment text _, none => attachComments (some ⟨[text], false⟩) ts
    | .comment text _, some b => attachComments (some ⟨b.comments ++ [text], false⟩) ts
    | .newline, none => .ofToken t [] :: attachComments none ts
    | .newline, some b =>
      -- a blank line parts the comments above it from what is below
      .ofToken t [] :: attachComments (some ⟨if b.afterNewline then [] else b.comments, true⟩) ts
    | _, none => .ofToken t [] :: attachComments none ts
    | _, some b => .ofToken t b.comments :: attachComments none ts

/-- The items of a document between its ends. -/
def Item.ofTokens (ts : List Token) : List Item :=
  attachComments none (dropSideComments false ts)

/-- The item for the end of a document. -/
def Item.stopOf (ts : List Token) : Item :=
  match ts.getLast? with
  | some t => .ofToken t []
  | none => ⟨.stop, .empty 0, 1, []⟩

end Hocon
