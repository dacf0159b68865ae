import SchemaModels.Schema.Document

/-! Folding extensions into the definitions they extend. An extension belongs to the first
definition of its kind and name, before or after it in the document, and adds its contents behind
what is already there; an interface is added only once. An extension that belongs to no definition
stays where it is. -/

namespace SchemaModels
set_option autoImplicit false

/-- The kinds of definitions that can be extended. -/
inductive Kind where
  | schema
  | scalar
  | object
  | interface
  | union
  | enum
  | input
deriving DecidableEq, Repr

namespace Definition

/-- The kind and name under which extensions find a definition. -/
def target? : Definition → Option (Kind × Option String)
  | schema _ => some (.schema, none)
  | scalar d => some (.scalar, some d.name)
  | object d => some (.object, some d.name)
  | interface d => some (.interface, some d.name)
  | union d => some (.union, some d.name)
  | enum d => some (.enum, some d.name)
  | input d => some (.input, some d.name)
  | directive _ => none
  | extension _ => none

/-- Whether the contents of a definition belong to another one. -/
def accepts (base ext : Definition) : Bool :=
  base.target?.isSome && base.target? == ext.target?

end Definition

/-- Adds the names that are not yet there, in order. -/
def addNew (names added : List String) : List String :=
  added.foldl (fun names name => if names.contains name then names else names ++ [name]) names

/-- An object or interface type with the contents of another behind its own. -/
def FieldsType.extend (base ext : FieldsType) : FieldsType :=
  { base with
    interfaces := addNew base.interfaces ext.interfaces
    directives := base.directives ++ ext.directives
    fields := base.fields ++ ext.fields }

namespace Definition

/-- A definition with the contents of another of its kind behind its own. -/
def extend (base ext : Definition) : Definition :=
  match base, ext with
  | schema b, schema e =>
    schema { b with
      directives := b.directives ++ e.directives
      operations := b.operations ++ e.operations }
  | scalar b, scalar e => scalar { b with directives := b.directives ++ e.directives }
  | object b, object e => object (b.extend e)
  | interface b, interface e => interface (b.extend e)
  | union b, union e =>
    union { b with
      directives := b.directives ++ e.directives
      members := b.members ++ e.members }
  | enum b, enum e =>
    enum { b with
      directives := b.directives ++ e.directives
      values := b.values ++ e.values }
  | input b, input e =>
    input { b with
      directives := b.directives ++ e.directives
      fields := b.fields ++ e.fields }
  | _, _ => base

end Definition

namespace Document

/-- Adds an extension's contents to the first of some definitions, each with its place, that accepts them.
None may. -/
def absorb? (ext : Definition) : List (Definition × Nat) → Option (List (Definition × Nat))
  | [] => none
  | (d, place) :: entries =>
    if d.accepts ext then some ((d.extend ext, place) :: entries)
    else (absorb? ext entries).map ((d, place) :: ·)

/-- The definitions in the course of a merge, and the extensions that had none to go to. -/
structure Merging where
  bases : List (Definition × Nat)
  unmatched : List (Definition × Nat) := []

/-- Merges one extension. -/
def Merging.step (m : Merging) (entry : Definition × Nat) : Merging :=
  match entry.1 with
  | .extension ext =>
    match absorb? ext m.bases with
    | some bases => { m with bases }
    | none => { m with unmatched := m.unmatched ++ [entry] }
  | _ => m

/-- Folds every extension into the definition it belongs to. Gives the number of those that belong to none,
too; they stay in place. -/
def mergeExtensions (doc : Document) : Document × Nat :=
  let parts := doc.definitions.zipIdx.partition fun entry => entry.1.isExtension
  let merged := parts.1.foldl Merging.step { bases := parts.2 }
  let entries := (merged.bases ++ merged.unmatched).mergeSort fun a b => a.2 ≤ b.2
  (⟨entries.map Prod.fst⟩, merged.unmatched.length)

/-- The document with every extension folded into the definition it belongs to. -/
def merge (doc : Document) : Document :=
  doc.mergeExtensions.1

/-- How many extensions belong to no definition. -/
def unmatchedCount (doc : Document) : Nat :=
  doc.mergeExtensions.2

end Document

end SchemaModels
