import FapLang.Text.Quoted

/-!
Strict decoding of UTF-8. The first sequence that is cut short, broken off or impossible ends the
decoding, and the error says which bytes are to blame.
-/

namespace FapLang.Text

inductive Utf8Problem
  | badStart
  | badContinuation
  | cutShort
  deriving DecidableEq, Repr

def Utf8Problem.reason : Utf8Problem → String
  | badStart => "invalid start byte"
  | badContinuation => "invalid continuation byte"
  | cutShort => "unexpected end of data"

/-- The `length` bytes from `start`, beginning with `first`, that could not be decoded. -/
structure Utf8Error where
  problem : Utf8Problem
  start : Nat
  length : Nat
  first : Nat

def Utf8Error.message (e : Utf8Error) : String :=
  if e.length = 1 then
    "'utf-8' codec can't decode byte 0x" ++ String.ofList (hexDigits 2 e.first) ++
      " in position " ++ toString e.start ++ ": " ++ e.problem.reason
  else
    "'utf-8' codec can't decode bytes in position " ++ toString e.start ++ "-" ++
      toString (e.start + e.length - 1) ++ ": " ++ e.problem.reason

/-- What a first byte tells: how many bytes follow, its payload, and the range of the second. -/
structure Lead where
  following : Nat
  payload : Nat
  low : Nat
  high : Nat

def Lead.of? (b : Nat) : Option Lead :=
  if b < 0xC2 then none
  else if b < 0xE0 then some ⟨1, b - 0xC0, 0x80, 0xBF⟩
  else if b < 0xF0 then
    some ⟨2, b - 0xE0, if b = 0xE0 then 0xA0 else 0x80, if b = 0xED then 0x9F else 0xBF⟩
  else if b < 0xF5 then
    some ⟨3, b - 0xF0, if b = 0xF0 then 0x90 else 0x80, if b = 0xF4 then 0x8F else 0xBF⟩
  else none

/-- The bytes after the first: the code point and the rest, or the number of good ones. -/
inductive Tail
  | complete (code : Nat) (rest : List Nat)
  | broken (good : Nat)
  | ended (good : Nat)

def readTail (low high : Nat) : Nat → Nat → Nat → List Nat → Tail
  | 0, code, _, rest => .complete code rest
  | _ + 1, _, good, [] => .ended good
  | left + 1, code, good, b :: rest =>
    if low ≤ b && b ≤ high then readTail 0x80 0xBF left (code * 64 + b % 64) (good + 1) rest
    else .broken good

/-- Decodes from a position on; the first argument bounds the number of characters. -/
def decodeFrom : Nat → Nat → List Nat → Except Utf8Error (List Char)
  | 0, _, _ => .ok []
  | _ + 1, _, [] => .ok []
  | fuel + 1, position, b :: rest =>
    if b < 0x80 then return Char.ofNat b :: (← decodeFrom fuel (position + 1) rest)
    else
      match Lead.of? b with
      | none => .error ⟨.badStart, position, 1, b⟩
      | some lead =>
        match readTail lead.low lead.high lead.following lead.payload 1 rest with
        | .complete code after =>
          return Char.ofNat code :: (← decodeFrom fuel (position + lead.following + 1) after)
        | .broken good => .error ⟨.badContinuation, position, good, b⟩
        | .ended good => .error ⟨.cutShort, position, good, b⟩

def decodeUtf8 (bytes : List UInt8) : Except Utf8Error (List Char) :=
  decodeFrom bytes.length 0 (bytes.map UInt8.toNat)

end FapLang.Text
