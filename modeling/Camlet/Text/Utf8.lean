/-
  Decoding bytes as UTF-8. Overlong forms, surrogates, code points beyond U+10FFFF and sequences cut
  short are refused, and the refusal says which bytes are at fault and why.
-/

namespace Camlet.Text

/-- Why bytes are no UTF-8 text. -/
inductive Utf8Reason where
  | startByte
  | continuationByte
  | endOfData
  deriving DecidableEq, Repr

/-- The wording of a reason. -/
def Utf8Reason.message : Utf8Reason → String
  | startByte => "invalid start byte"
  | continuationByte => "invalid continuation byte"
  | endOfData => "unexpected end of data"

/-- A fault in encoded text: the bytes from `start` to before `stop`, the first of them, and the reason. -/
structure Utf8Fault where
  start : Nat
  stop : Nat
  byte : Nat
  reason : Utf8Reason
  deriving DecidableEq, Repr

/-- How many bytes follow a start byte, and the bounds of the first of them; `none` if no character
starts with that byte. -/
def followers? (b : Nat) : Option (Nat × Nat × Nat) :=
  if b < 0x80 then some (0, 0x80, 0xbf)
  else if b < 0xc2 then none
  else if b < 0xe0 then some (1, 0x80, 0xbf)
  else if b = 0xe0 then some (2, 0xa0, 0xbf)
  else if b = 0xed then some (2, 0x80, 0x9f)
  else if b < 0xf0 then some (2, 0x80, 0xbf)
  else if b = 0xf0 then some (3, 0x90, 0xbf)
  else if b < 0xf4 then some (3, 0x80, 0xbf)
  else if b = 0xf4 then some (3, 0x80, 0x8f)
  else none

/-- Reads `n` more bytes of a character, the first of them between `low` and `high`: the code point
built on `code` and the bytes behind it, or the count of bytes read well and why the next is not. -/
def readFollowers : (n low high code read : Nat) → List Nat → Except (Nat × Utf8Reason) (Nat × List Nat)
  | 0, _, _, code, _, bs => .ok (code, bs)
  | _ + 1, _, _, _, read, [] => .error (read, .endOfData)
  | n + 1, low, high, code, read, b :: bs =>
    if low ≤ b ∧ b ≤ high then readFollowers n 0x80 0xbf (code * 64 + b % 64) (read + 1) bs
    else .error (read, .continuationByte)

/-- The bits of a start byte that belong to the code point when `n` bytes follow. -/
def startBits (n b : Nat) : Nat :=
  match n with
  | 0 => b
  | 1 => b % 32
  | 2 => b % 16
  | _ => b % 8

/-- Decodes the bytes that start at offset `pos`; each step consumes a byte at least, so `fuel` is
enough if it is the number of bytes. -/
def decodeFrom : (fuel pos : Nat) → List Nat → Except Utf8Fault (List Char)
  | _, _, [] => .ok []
  | 0, _, _ :: _ => .ok []
  | fuel + 1, pos, b :: bs =>
    match followers? b with
    | none => .error ⟨pos, pos + 1, b, .startByte⟩
    | some (n, low, high) =>
      match readFollowers n low high (startBits n b) 1 bs with
      | .error (read, reason) => .error ⟨pos, pos + read, b, reason⟩
      | .ok (code, rest) => (decodeFrom fuel (pos + n + 1) rest).map (Char.ofNat code :: ·)

/-- The text that bytes encode, or the first fault in them. -/
def decodeUtf8 (bytes : List Nat) : Except Utf8Fault (List Char) :=
  decodeFrom bytes.length 0 bytes

/-- The text with every `\r\n` and every other `\r` read as `\n`. -/
def universalNewlines : List Char → List Char
  | [] => []
  | '\r' :: '\n' :: cs => '\n' :: universalNewlines cs
  | '\r' :: cs => '\n' :: universalNewlines cs
  | c :: cs => c :: universalNewlines cs

end Camlet.Text
