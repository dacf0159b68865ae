import SchemaModels.Text.Hidden

/-! Quoted display of a text: double quotes around it, a backslash before quotes and backslashes,
short escapes for NUL, tab, line feed and carriage return, and `\u` with the code point in braces
for every other hidden character. -/

namespace SchemaModels.Text
set_option autoImplicit false

/-- One character as it stands between the quotes. -/
def quotedChar (c : Char) : List Char :=
  if c = '"' then ['\\', '"']
  else if c = '\\' then ['\\', '\\']
  else if c = '\t' then ['\\', 't']
  else if c = '\n' then ['\\', 'n']
  else if c = '\r' then ['\\', 'r']
  else if c.toNat = 0 then ['\\', '0']
  else if isHidden c then ['\\', 'u', '\x7b'] ++ Nat.toDigits 16 c.toNat ++ ['\x7d']
  else [c]

/-- A text in double quotes. -/
def quoted (s : String) : String :=
  String.ofList ('"' :: s.toList.flatMap quotedChar ++ ['"'])

end SchemaModels.Text
