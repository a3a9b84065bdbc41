import RangeTransfer.Text.Hexadecimal
import RangeTransfer.Text.Invisible
/-!
# Quoted text

Text between quotation marks on one line of visible characters: a backslash stands before the mark
itself, before another backslash and before the letter of a control character, and any other
invisible character is shown by its code point.
-/

namespace RangeTransfer.Text

/-- The form of one character between marks `mark`. -/
def quoteChar (mark c : Char) : String :=
  match c with
  | '\x00' => "\\0"
  | '\t' => "\\t"
  | '\r' => "\\r"
  | '\n' => "\\n"
  | '\\' => "\\\\"
  | c =>
    if c = mark then "\\" ++ mark.toString
    else if isInvisible c then "\\u\x7b" ++ hexDigits c.toNat ++ "\x7d"
    else c.toString

/-- `text` in double quotation marks. -/
def quote (text : String) : String :=
  "\"" ++ String.join (text.toList.map (quoteChar '"')) ++ "\""

/-- `c` in single quotation marks. -/
def quoteSingle (c : Char) : String :=
  let mark := Char.ofNat 39
  mark.toString ++ quoteChar mark c ++ mark.toString

end RangeTransfer.Text
