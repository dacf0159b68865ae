/-! Families of sample schemas of any size. -/

namespace SchemaModels.Samples
set_option autoImplicit false

/-- The number after `i` on a ring of `size` numbers. -/
def following (size i : Nat) : Nat :=
  (i + 1) % max size 1

/-- One group: an interface, an object type that implements it, an input type, an enum and a union,
with fields that point at the group `j`. -/
def group (i j : Nat) : String :=
  let i := toString i
  let j := toString j
  "\"\"\"Entity number " ++ i ++ ".\"\"\"\n" ++
  "interface Node" ++ i ++ " \x7b\n" ++
  "  id: ID!\n" ++
  "  parent: Node" ++ j ++ "\n" ++
  "\x7d\n\n" ++
  "type Item" ++ i ++ " implements Node" ++ i ++ " \x7b\n" ++
  "  id: ID!\n" ++
  "  parent: Node" ++ j ++ "\n" ++
  "  name: String!\n" ++
  "  tags: [String!]!\n" ++
  "  createdAt: DateTime\n" ++
  "  payload: JSON\n" ++
  "  from: Item" ++ j ++ "\n" ++
  "  status: Status" ++ i ++ "\n" ++
  "\x7d\n\n" ++
  "input ItemFilter" ++ i ++ " \x7b\n" ++
  "  name: String\n" ++
  "  status: Status" ++ i ++ " = ACTIVE\n" ++
  "  and: [ItemFilter" ++ j ++ "!]\n" ++
  "\x7d\n\n" ++
  "enum Status" ++ i ++ " \x7b\n" ++
  "  ACTIVE\n" ++
  "  ARCHIVED\n" ++
  "  DELETED\n" ++
  "\x7d\n\n" ++
  "union Result" ++ i ++ " = Item" ++ i ++ " | Item" ++ j ++ "\n\n"

/-- A schema of `size` groups, each of which points at the next and the last at the first. -/
def groups (size : Nat) : String :=
  "scalar DateTime\nscalar JSON\n\n" ++
    String.join ((List.range size).map fun i => group i (following size i))

/-- A schema of `size` interfaces on one ring of references. -/
def ring (size : Nat) : String :=
  String.join ((List.range size).map fun i =>
    "interface Ring" ++ toString i ++ " \x7b next: Ring" ++ toString (following size i) ++
      "! \x7d\n")

end SchemaModels.Samples
