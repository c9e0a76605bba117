import Camlet.Token.Basic
import Camlet.Text.Blank
import Camlet.Text.Letter
import Camlet.Text.Digit

/-
  Cutting a source text into tokens. The first rule that fits decides the class of the next token:

    comment     "(*" … "*)", nested
    string      '"' characters or escapes '"', on one line
    char        "'" one character or escape "'"
    backtick    a backtick, anything but a backtick, a backtick
    number      digits, perhaps a point and digits, perhaps an exponent
    word        a letter or "_", then letters, digits, "_" and "'"
    symbol      the longest symbol that fits

  A scanner gets the rest of the text and says what it consumed (`span`) and what is left (`rest`), so
  that the two together are what it was given; places are computed from the spans alone. A stretch
  that fits no rule becomes one `error` token and scanning goes on right behind it. An unterminated
  comment reaches to the end of the text.
-/

namespace Camlet

open Text (isBlank isLetter isDigit)

/-- The words with a meaning of their own. -/
def keywords : List String :=
  ["let", "in", "match", "with", "fun", "type", "if", "then", "else", "rec", "module", "open", "and",
    "or", "exception", "try"]

/-- Operators that are spelled like names. -/
def operatorWords : List String := ["mod"]

/-- The symbols, the longer ones first, so that none is hidden by the start of another. -/
def symbols : List String :=
  [";;", "->", ":=", "::", "==", "<>", "<=", ">=", "&&", "||", "|>", "@@", "+.", "-.", "*.", "/.",
    "+", "-", "*", "/", "=", "<", ">", "|", ":", ";", ".", ",", "(", ")", "[", "]", "\x7b", "\x7d"]

/-- The symbols that separate or enclose. -/
def delimiters : List String :=
  [";;", ";", ",", ":", "|", "(", ")", "[", "]", "\x7b", "\x7d"]

/-- The character that an escape stands for: an unknown escape stands for its second character. -/
def unescape : Char → Char
  | 'n' => '\n'
  | 't' => '\t'
  | 'r' => '\r'
  | c => c

/-- One scanned token without its place, the stretch of text it covers and the text behind it. -/
structure Scan where
  kind : TokenKind
  lexeme : String
  note : Option String := none
  span : List Char
  rest : List Char

namespace Scan

/-- A token whose lexeme is the stretch of text it covers. -/
def plain (kind : TokenKind) (span rest : List Char) : Scan :=
  ⟨kind, String.ofList span, none, span, rest⟩

/-- A malformed stretch of text. -/
def malformed (note : String) (span rest : List Char) : Scan :=
  ⟨.error, String.ofList span, some note, span, rest⟩

/-- The token at a place. -/
def token (s : Scan) (pos : Pos) : Token := ⟨s.kind, s.lexeme, pos, s.note⟩

end Scan

namespace Lexer

/-- The text up to the `*)` that closes `depth + 1` open comments, and the text behind it. -/
def commentBody : Nat → List Char → Option (List Char × List Char)
  | depth, '(' :: '*' :: cs => (commentBody (depth + 1) cs).map fun r => ('(' :: '*' :: r.1, r.2)
  | 0, '*' :: ')' :: cs => some (['*', ')'], cs)
  | depth + 1, '*' :: ')' :: cs => (commentBody depth cs).map fun r => ('*' :: ')' :: r.1, r.2)
  | depth, c :: cs => (commentBody depth cs).map fun r => (c :: r.1, r.2)
  | _, [] => none

/-- A comment, from the text behind its opening `(*`. -/
def comment (cs : List Char) : Scan :=
  match commentBody 0 cs with
  | some (body, rest) => .plain .comment ('(' :: '*' :: body) rest
  | none => .malformed "unterminated comment" ('(' :: '*' :: cs) []

/-- The inside of a string literal up to its closing quote: its value (`none` if no quote closes it
before the end of the line), the stretch covered and the text behind it. -/
def stringBody : List Char → Option (List Char) × List Char × List Char
  | [] => (none, [], [])
  | '"' :: cs => (some [], ['"'], cs)
  | '\n' :: cs => (none, [], '\n' :: cs)
  | ['\\'] => (none, ['\\'], [])
  | '\\' :: c :: cs =>
    let (value, span, rest) := stringBody cs
    (value.map (unescape c :: ·), '\\' :: c :: span, rest)
  | c :: cs =>
    let (value, span, rest) := stringBody cs
    (value.map (c :: ·), c :: span, rest)

/-- A string literal, from the text behind its opening quote. -/
def string (cs : List Char) : Scan :=
  match stringBody cs with
  | (some value, span, rest) => ⟨.string, String.ofList value, none, '"' :: span, rest⟩
  | (none, span, rest) => .malformed "unterminated string literal" ('"' :: span) rest

/-- The end of a character literal: `span` is covered so far and `value` is its character. -/
def charEnd (value : Char) (span : List Char) : List Char → Scan
  | '\'' :: rest => ⟨.char, String.singleton value, none, span ++ ['\''], rest⟩
  | rest => .malformed "unterminated character literal" span rest

/-- A character literal, from the text behind its opening quote. -/
def char : List Char → Scan
  | '\'' :: rest => .malformed "empty character literal" ['\'', '\''] rest
  | '\\' :: c :: rest => charEnd (unescape c) ['\'', '\\', c] rest
  | ['\\'] => .malformed "unterminated character literal" ['\'', '\\'] []
  | '\n' :: rest => .malformed "unterminated character literal" ['\''] ('\n' :: rest)
  | c :: rest => charEnd c ['\'', c] rest
  | [] => .malformed "unterminated character literal" ['\''] []

/-- A name between backticks, from the text behind the first. -/
def backtick (cs : List Char) : Scan :=
  let name := cs.takeWhile (· ≠ '\x60')
  match cs.dropWhile (· ≠ '\x60') with
  | [] => .malformed "unterminated backtick identifier" ('\x60' :: name) []
  | _ :: rest =>
    let span := '\x60' :: name ++ ['\x60']
    if name.isEmpty then .malformed "empty backtick identifier" span rest
    else ⟨.backtickIdent, String.ofList name, none, span, rest⟩

/-- The exponent of a number, if there is one: `span` is covered so far. -/
def exponent (kind : TokenKind) (span : List Char) : List Char → Scan
  | [] => .plain kind span []
  | e :: cs =>
    if e = 'e' ∨ e = 'E' then
      let sign := (cs.take 1).takeWhile fun c => c == '+' || c == '-'
      let cs := cs.drop sign.length
      let digits := cs.takeWhile isDigit
      let rest := cs.dropWhile isDigit
      if digits.isEmpty then .malformed "expected a digit in exponent" (span ++ e :: sign) cs
      else .plain .float (span ++ e :: sign ++ digits) rest
    else .plain kind span (e :: cs)

/-- A number, from its first digit on. -/
def number (cs : List Char) : Scan :=
  let whole := cs.takeWhile isDigit
  match cs.dropWhile isDigit with
  | '.' :: rest =>
    let digits := rest.takeWhile isDigit
    if digits.isEmpty then .malformed "expected a digit after '.'" (whole ++ ['.']) rest
    else exponent .float (whole ++ '.' :: digits) (rest.dropWhile isDigit)
  | rest => exponent .int whole rest

/-- A character with which a word may start. -/
def startsWord (c : Char) : Bool := isLetter c || c == '_'

/-- A character with which a word may go on. -/
def continuesWord (c : Char) : Bool := isLetter c || isDigit c || c == '_' || c == '\''

/-- The class of a word. -/
def wordKind (w : String) : TokenKind :=
  if keywords.contains w then .keyword
  else if operatorWords.contains w then .operator
  else .identifier

/-- A word, from its first character on. -/
def word (cs : List Char) : Scan :=
  let span := cs.takeWhile continuesWord
  .plain (wordKind (String.ofList span)) span (cs.dropWhile continuesWord)

/-- The class of a symbol. -/
def symbolKind (s : String) : TokenKind := if delimiters.contains s then .delimiter else .operator

/-- The longest symbol at the start of the text `c :: cs`, or else its first character as malformed. -/
def symbol (c : Char) (cs : List Char) : Scan :=
  match symbols.find? fun s => s.toList.isPrefixOf (c :: cs) with
  | some s => ⟨symbolKind s, s, none, s.toList, (c :: cs).drop s.length⟩
  | none => .malformed ("unexpected character '" ++ String.singleton c ++ "'") [c] cs

/-- The token at the start of the text `c :: cs`, where `c` is not blank. -/
def scan (c : Char) (cs : List Char) : Scan :=
  if c = '(' ∧ cs.head? = some '*' then comment (cs.drop 1)
  else if c = '"' then string cs
  else if c = '\'' then char cs
  else if c = '\x60' then backtick cs
  else if isDigit c then number (c :: cs)
  else if startsWord c then word (c :: cs)
  else symbol c cs

/-- The tokens of a text that starts at `pos`, with the end of input last. Each step consumes a
character at least, so as many steps as the text has characters are enough. -/
def tokensFrom : Nat → Pos → List Char → List Token
  | _, pos, [] => [⟨.endOfInput, "", pos, none⟩]
  | 0, pos, _ :: _ => [⟨.endOfInput, "", pos, none⟩]
  | fuel + 1, pos, c :: cs =>
    if isBlank c then tokensFrom fuel (pos.step c) cs
    else
      let s := scan c cs
      s.token pos :: tokensFrom fuel (pos.after s.span) s.rest

end Lexer

/-- The tokens of a source text, with one `endOfInput` token at the end. -/
def tokenize (source : String) : List Token :=
  Lexer.tokensFrom source.toList.length .first source.toList

end Camlet
