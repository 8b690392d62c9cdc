import EarleyForest.Text.Blank

/-!
# Tokens of the Grammar Notation

The words of the notation in which grammars are written: names, quoted
terminals, the four marks `::=`, `;`, `|`, `ε`, and blank space between them.

A name starts with an ASCII letter or an underscore and goes on with those
and with ASCII digits. A quoted terminal runs from an apostrophe to the next
one; everything between, line breaks included, belongs to it. The first
character of a token settles its kind, so the longest token at a place is the
only one to look for.

## Main definitions

* `Token`: A word of the notation.
* `Token.chars`: The characters that a token is written with.
* `Token.Kind`: The kinds of tokens.
* `Token.front?`: The longest token at the front of a text.
* `Lexeme`: A token and the bytes it spans.
* `Scan`: The tokens of a text, up to the first place where there is none.
* `scan`: Cuts a text into tokens.

## Theorems

* `front?_length_lt`: Taking a token off a text leaves a shorter text.
-/

namespace EarleyForest

namespace Bnf

/-- A character that a name may start with. -/
def isNameStart (c : Char) : Bool := c.isAlpha || c == '_'

/-- A character that a name may go on with. -/
def isNameRest (c : Char) : Bool := isNameStart c || c.isDigit

/-- A word of the notation. A quoted terminal is kept without its quotes. -/
inductive Token where
  | name (text : List Char)
  | quoted (text : List Char)
  | defines
  | semicolon
  | bar
  | epsilon
deriving DecidableEq

namespace Token

/-- The kinds of tokens. -/
inductive Kind where
  | defines
  | semicolon
  | bar
  | epsilon
  | quoted
  | name
deriving DecidableEq

/-- The kind that a token belongs to. -/
def kind : Token → Kind
  | name _ => .name
  | quoted _ => .quoted
  | defines => .defines
  | semicolon => .semicolon
  | bar => .bar
  | epsilon => .epsilon

/-- The characters that a token is written with. -/
def chars : Token → List Char
  | name text => text
  | quoted text => '\'' :: text ++ ['\'']
  | defines => [':', ':', '=']
  | semicolon => [';']
  | bar => ['|']
  | epsilon => ['ε']

/-- The longest token at the front of a text, and the text behind it. -/
def front? : List Char → Option (Token × List Char)
  | [] => none
  | c :: rest =>
    if c = '\'' then
      match rest.dropWhile (· ≠ '\'') with
      | [] => none
      | _ :: behind => some (quoted (rest.takeWhile (· ≠ '\'')), behind)
    else if c = ':' then
      match rest with
      | ':' :: '=' :: behind => some (defines, behind)
      | _ => none
    else if c = ';' then some (semicolon, rest)
    else if c = '|' then some (bar, rest)
    else if c = 'ε' then some (epsilon, rest)
    else if isNameStart c then
      some (name (c :: rest.takeWhile isNameRest), rest.dropWhile isNameRest)
    else none

/-- Taking a token off a text leaves a shorter text. -/
theorem front?_length_lt {text behind : List Char} {token : Token}
    (h : front? text = some (token, behind)) : behind.length < text.length := by
  cases text with
  | nil => simp only [front?, reduceCtorEq] at h
  | cons c rest =>
      simp only [front?] at h
      split at h
      -- A quoted terminal ends with the quote that stopped the search.
      · split at h
        · simp only [reduceCtorEq] at h
        · rename_i quote after hdrop
          simp only [Option.some.injEq, Prod.mk.injEq] at h
          have hle : (rest.dropWhile (· ≠ '\'')).length ≤ rest.length :=
            (List.dropWhile_suffix _).length_le
          rw [hdrop, h.2] at hle
          simp only [List.length_cons] at hle ⊢
          omega
      -- The marks have a fixed length.
      · split at h
        · split at h
          · simp only [Option.some.injEq, Prod.mk.injEq] at h
            simp only [← h.2, List.length_cons]
            omega
          · simp only [reduceCtorEq] at h
        · repeat' split at h
          all_goals
            simp only [Option.some.injEq, Prod.mk.injEq, reduceCtorEq] at h
          all_goals simp only [← h.2, List.length_cons]
          · omega
          · omega
          · omega
          -- A name has its first character at least.
          · have hle : (rest.dropWhile isNameRest).length ≤ rest.length :=
              (List.dropWhile_suffix _).length_le
            omega

end Token

/-- The number of bytes that characters take in UTF-8. -/
def byteLength (text : List Char) : Nat := text.foldr (fun c bytes => c.utf8Size + bytes) 0

/-- A token of a text, with the bytes from `start` up to and without `stop`. -/
structure Lexeme where
  token : Token
  start : Nat
  stop : Nat
deriving DecidableEq

/-- The kind of a token in a text. -/
def Lexeme.kind (lexeme : Lexeme) : Token.Kind := lexeme.token.kind

/-- The tokens of a text from its start on. If the text goes on with
    something that is no token, `invalid` is the byte where that begins. -/
structure Scan where
  lexemes : List Lexeme
  invalid : Option Nat
deriving DecidableEq

/-- Cuts a text whose first byte has number `offset` into tokens, blank
    characters between them left out. -/
def scanFrom (offset : Nat) (text : List Char) : Scan :=
  match text with
  | [] => ⟨[], none⟩
  | c :: rest =>
    if isBlank c then scanFrom (offset + c.utf8Size) rest
    else
      match _h : Token.front? (c :: rest) with
      | none => ⟨[], some offset⟩
      | some (token, behind) =>
        let stop := offset + byteLength token.chars
        let later := scanFrom stop behind
        ⟨⟨token, offset, stop⟩ :: later.lexemes, later.invalid⟩
termination_by text.length
decreasing_by
  · simp only [List.length_cons, Nat.lt_add_one]
  · exact Token.front?_length_lt _h

/-- Cuts a text into tokens. -/
def scan (text : List Char) : Scan := scanFrom 0 text

end Bnf

end EarleyForest
