import SchemaModels.Schema.Grammar
import SchemaModels.Text.ByteOrderMark

/-! From the text of a schema to its document. A byte order mark at the start is passed over, and
positions count from after it. -/

namespace SchemaModels
set_option autoImplicit false

/-- The lexemes of a text, with its refusal positioned. -/
def tokenize (source : List Char) : Except ParseError (List Lexeme) :=
  (Lexeme.scan source).mapError (ParseError.ofUnreadable source)

/-- The document that a text spells, or why it spells none. -/
def Document.ofChars (text : List Char) : Except ParseError Document :=
  let source := Text.dropByteOrderMark text
  match tokenize source with
  | .error e => .error e
  | .ok lexemes =>
    (Grammar.document maxNesting (lexemes.map Lexeme.token)).mapError
      (ParseError.ofFault source lexemes)

def Document.parse (text : String) : Except ParseError Document :=
  Document.ofChars text.toList

end SchemaModels
