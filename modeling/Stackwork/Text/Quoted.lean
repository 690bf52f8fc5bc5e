import Stackwork.Text.Numeral
import Stackwork.Text.Printable

/-!
# Quoted text

A name inside a message is written between double quotes. The quote and the
backslash get a backslash, seven control characters have a letter of their own,
and other characters that cannot be shown are written by number.
-/
namespace Stackwork.Text

/-- One character of a quoted text. -/
def escape (c : Char) : String :=
  match c with
  | '"' => "\\\""
  | '\\' => "\\\\"
  | '\x07' => "\\a"
  | '\x08' => "\\b"
  | '\x0c' => "\\f"
  | '\n' => "\\n"
  | '\r' => "\\r"
  | '\t' => "\\t"
  | '\x0b' => "\\v"
  | c =>
    if isPrintable c then c.toString
    else if c.toNat < 0x80 then "\\x" ++ padLeft 2 '0' (hex c.toNat)
    else if c.toNat < 0x10000 then "\\u" ++ padLeft 4 '0' (hex c.toNat)
    else "\\U" ++ padLeft 8 '0' (hex c.toNat)

/-- `s` between double quotes, with everything escaped that needs it. -/
def quoted (s : String) : String :=
  "\"" ++ String.join (s.toList.map escape) ++ "\""

end Stackwork.Text
