import Frontend.Text.Unprintable

/-!
# Quoted texts

Messages show a text between double quotes so that its limits and its invisible characters
can be seen. A quote and a backslash take a backslash, four controls have a letter, and any
other character without a glyph of its own is given by its code point.
-/

namespace Frontend.Text

/-- Writes one character of a quoted text. -/
def quoteChar (c : Char) : List Char :=
  match c with
  | '"' => ['\\', '"']
  | '\\' => ['\\', '\\']
  | '\t' => ['\\', 't']
  | '\n' => ['\\', 'n']
  | '\r' => ['\\', 'r']
  | '\x00' => ['\\', '0']
  | c => if isUnprintable c then ['\\', 'u', '{'] ++ Nat.toDigits 16 c.toNat ++ ['}'] else [c]

/-- Writes a text between double quotes. -/
def quoted (text : String) : String :=
  String.ofList ('"' :: text.toList.flatMap quoteChar ++ ['"'])

end Frontend.Text
