/-! The byte order mark, which may stand at the start of a text without belonging to it. -/

namespace SchemaModels.Text
set_option autoImplicit false

/-- Drops one byte order mark. -/
def dropByteOrderMark : List Char → List Char
  | [] => []
  | c :: cs => if c = '\ufeff' then cs else c :: cs

end SchemaModels.Text
