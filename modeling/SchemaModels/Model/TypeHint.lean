import SchemaModels.Model.Imports
import SchemaModels.Model.ScalarTable
import SchemaModels.Schema.TypeExpr

/-! Python type hints for schema types. Every layer is written as optional first; a mark that
excludes null takes one `Optional[...]` off again. Types that are no scalars are written in quotes,
so that they may be declared later. -/

namespace SchemaModels
set_option autoImplicit false

/-- A type hint: the type at its base, its text, and what the text needs. -/
structure TypeHint where
  identity : String
  text : String
  imports : Imports := ∅
deriving DecidableEq, Repr

namespace TypeHint

/-! ## Text -/

def optionalOpening : List Char := "Optional[".toList

/-- What stands inside an outer `Optional[...]`. -/
def insideOptional? (cs : List Char) : Option (List Char) :=
  if optionalOpening.isPrefixOf cs then
    let inner := cs.drop optionalOpening.length
    if inner.getLast? = some ']' then some inner.dropLast else none
  else none

/-- Takes one outer `Optional[...]` off, if there is one. -/
def stripOptional (text : String) : String :=
  match insideOptional? text.toList with
  | some inner => String.ofList inner
  | none => text

/-- Drops all single quotes. -/
def unquote (text : String) : String :=
  String.ofList (text.toList.filter (· ≠ '\x27'))

/-! ## Layers -/

/-- The type hint of a type by its name. -/
def named (table : ScalarTable) (name : String) : TypeHint :=
  match table.get? name with
  | some .any => ⟨ScalarTarget.any.identity, ScalarTarget.any.identity, { any := true }⟩
  | some (.named text) => ⟨text, "Optional[" ++ text ++ "]", { optional := true }⟩
  | none => ⟨name, "Optional['" ++ name ++ "']", { optional := true }⟩

/-- The type hint of a list. -/
def list (item : TypeHint) : TypeHint :=
  { item with
    text := "Optional[List[" ++ item.text ++ "]]"
    imports := item.imports ∪ { optional := true, list := true } }

/-- The type hint of a type without null. -/
def nonNull (inner : TypeHint) : TypeHint :=
  { inner with text := stripOptional inner.text }

/-- The type hint of a type. -/
def ofType (table : ScalarTable) : TypeExpr → TypeHint
  | .named name => named table name
  | .list item => (ofType table item).list
  | .nonNull inner => (ofType table inner).nonNull

end TypeHint

end SchemaModels
