import FapLang.Json.Basic
import FapLang.Text.Quoted

/-!
Writing JSON on one line. A comma and a colon are followed by a space, and only ASCII characters are
written: any other stands as one or two escaped code units of sixteen bits.
-/

namespace FapLang.Json

def unitEscape (unit : Nat) : List Char :=
  '\\' :: 'u' :: Text.hexDigits 4 unit

def writeChar (c : Char) : List Char :=
  match shortEscapes.lookup c with
  | some letter => ['\\', letter]
  | none =>
    if 32 ≤ c.toNat && c.toNat < 127 then [c]
    else if c.toNat < 65536 then unitEscape c.toNat
    else
      let above := c.toNat - 65536
      unitEscape (0xD800 + above / 1024) ++ unitEscape (0xDC00 + above % 1024)

def writeText (s : String) : List Char :=
  '"' :: s.toList.flatMap writeChar ++ ['"']

def writeFloat (x : Float) : List Char :=
  if Number.isNaN x then "NaN".toList
  else if Number.isInfinite x then
    (if Number.isNegative x then "-Infinity" else "Infinity").toList
  else (Number.floatText x).toList

mutual

def write : Json → List Char
  | null => "null".toList
  | bool b => (if b then "true" else "false").toList
  | int n => (Number.intText n.val).toList
  | float x => writeFloat x
  | text s => writeText s
  | list items => '[' :: writeItems items ++ [']']
  | object fields => '{' :: writeFields fields ++ ['}']

def writeItems : List Json → List Char
  | [] => []
  | [item] => write item
  | item :: rest => write item ++ ',' :: ' ' :: writeItems rest

def writeFields : List (String × Json) → List Char
  | [] => []
  | [(name, value)] => writeText name ++ ':' :: ' ' :: write value
  | (name, value) :: rest =>
    writeText name ++ ':' :: ' ' :: write value ++ ',' :: ' ' :: writeFields rest

end

def render (j : Json) : String :=
  String.ofList j.write

end FapLang.Json
