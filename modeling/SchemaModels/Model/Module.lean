import SchemaModels.Model.Outline
import SchemaModels.Schema.Extension
import SchemaModels.Schema.Source

/-! The Python module of a schema: extensions are folded in, every definition that has a declaration
is declared, and the header imports what the declarations need. -/

namespace SchemaModels
set_option autoImplicit false

namespace Document

/-- The declarations of a document's definitions, each with what it needs. -/
def declarations (doc : Document) (settings : Settings) : List (Declaration × Imports) :=
  let table := ScalarTable.ofDocument doc settings.scalars
  doc.definitions.filterMap (Declaration.ofDefinition? table settings.enumStyle)

/-- The module of a document without extensions to fold in. -/
def plainModule (doc : Document) (settings : Settings) : String :=
  let declarations := doc.declarations settings
  (Outline.ofList (declarations.map Prod.fst)).moduleText
    ((Declaration.allImports (declarations.map Prod.snd)).header settings.enumStyle)

/-- The text of the Python module for a document. -/
def pythonModule (doc : Document) (settings : Settings) : String :=
  if doc.hasExtensions then doc.merge.plainModule settings else doc.plainModule settings

end Document

/-- The text of the Python module for the text of a schema. -/
def generate (settings : Settings) (schema : String) : Except ParseError String :=
  (Document.parse schema).map (·.pythonModule settings)

end SchemaModels
