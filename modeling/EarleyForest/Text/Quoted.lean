import EarleyForest.Text.Combining
import EarleyForest.Text.Unprintable

/-!
# Quoted Text

Text in double quotes in which every character can be told from its
neighbours. A quotation mark and a backslash stand behind a backslash, and so
do the letters `n`, `t`, `r` and `0` for a line feed, a tab, a carriage return
and U+0000. Other characters that leave nothing to see, or that would merge
with the one before them, are given by their code point in hexadecimal digits.
All others, the apostrophe among them, stand for themselves.

## Main definitions

* `Quoted.encodeChar`: How one character is written inside the quotes.
* `Quoted.encode`: A text in quotes.
-/

namespace EarleyForest

namespace Quoted

/-- A code point in lower case hexadecimal digits without leading zeros. -/
def hex (n : Nat) : String := String.ofList (Nat.toDigits 16 n)

/-- How one character is written inside the quotes. -/
def encodeChar (c : Char) : String :=
  if c = '"' then "\\\""
  else if c = '\\' then "\\\\"
  else if c = '\n' then "\\n"
  else if c = '\t' then "\\t"
  else if c = '\r' then "\\r"
  else if c = '\x00' then "\\0"
  else if isCombining c || isUnprintable c then "\\u\x7b" ++ hex c.toNat ++ "\x7d"
  else c.toString

/-- A text in double quotes. -/
def encode (s : String) : String :=
  "\"" ++ String.join (s.toList.map encodeChar) ++ "\""

end Quoted

end EarleyForest
