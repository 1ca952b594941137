import FapLang.Measure.Outcome
import FapLang.Measure.Sha256
import FapLang.Number.Fixed

/-!
Fingerprints of outcomes: digests of their layouts. Lists and tuples are laid out alike and in
order, the entries of a mapping in the order of the fingerprints of their keys, and of a set the
fingerprints of its items. What is too deep or too long is not laid out whole.
-/

namespace FapLang.Measure

def utf8 (s : String) : List UInt8 :=
  s.toList.flatMap String.utf8EncodeChar

def hex (bytes : List UInt8) : String :=
  String.ofList (bytes.flatMap fun b ↦ Text.hexDigits 2 b.toNat)

/-- The digest of a layout, in hexadecimal digits. -/
def stamp (layout : List UInt8) : String :=
  hex (Sha256.digest layout)

def sizeMark (letter : String) (size : Nat) : List UInt8 :=
  utf8 (letter ++ Number.intText size)

/-- The layouts of entries, those with the lesser stamp first. -/
def inStampOrder (entries : List (String × List UInt8)) : List UInt8 :=
  (entries.mergeSort fun a b ↦ a.1 ≤ b.1).flatMap (·.2)

/-- A number with the six digits that count. -/
def roughText (x : Float) : String :=
  Number.floatText (Number.roundSignificant 6 x)

/-- Containers may be inside each other so many times. -/
def deepest : Nat := 8

/-- So many items are laid out whole. -/
def longest : Nat := 2000

/-- How a layout is abridged. -/
structure Abridging where
  /-- What stands for something of a type that is too deep. -/
  deep : String → List UInt8
  /-- What stands for the layouts of too many items. -/
  long : List (List UInt8) → List UInt8

namespace Abridging

/-- Nothing stands for what is too deep, and the first items stand for all. -/
def plain : Abridging where
  deep := fun _ ↦ []
  long := fun layouts ↦ (layouts.take longest).flatten

def sequence (a : Abridging) (layouts : List (List UInt8)) : List UInt8 :=
  sizeMark "L" layouts.length ++ if layouts.length ≤ longest then layouts.flatten else a.long layouts

end Abridging

namespace Outcome

mutual

/-- The layout of an outcome inside so many containers. Stamps are taken of what is inside none. -/
def layoutAt (a : Abridging) (depth : Nat) (o : Outcome) : List UInt8 :=
  if deepest < depth then a.deep o.typeName
  else
    match o with
    | none => utf8 "None"
    | bool b => utf8 (if b then "True" else "False")
    | int n => utf8 (Number.intText n)
    | float x => utf8 (roughText x)
    | complex z => utf8 ("c" ++ roughText z.re ++ roughText z.im)
    | text s => utf8 ("s" ++ s)
    | bytes bs => utf8 "s" ++ bs
    | byteArray bs => utf8 "s" ++ bs
    | range _ => utf8 "<builtins.range>"
    | list items => a.sequence (layoutAll a (depth + 1) items)
    | tuple items => a.sequence (layoutAll a (depth + 1) items)
    | set items => sizeMark "S" items.length ++ inStampOrder (stampAll a items)
    | frozenSet items => sizeMark "S" items.length ++ inStampOrder (stampAll a items)
    | mapping entries => sizeMark "D" entries.length ++ inStampOrder (layoutEntries a (depth + 1) entries)

def layoutAll (a : Abridging) (depth : Nat) : List Outcome → List (List UInt8)
  | [] => []
  | item :: rest => layoutAt a depth item :: layoutAll a depth rest

/-- The stamps of items, each as its own layout. -/
def stampAll (a : Abridging) : List Outcome → List (String × List UInt8)
  | [] => []
  | item :: rest =>
    let stamped := stamp (layoutAt a 0 item)
    (stamped, utf8 stamped) :: stampAll a rest

/-- Key and value of each entry, under the stamp of the key. -/
def layoutEntries (a : Abridging) (depth : Nat) :
    List (Outcome × Outcome) → List (String × List UInt8)
  | [] => []
  | (key, value) :: rest =>
    (stamp (layoutAt a 0 key), layoutAt a depth key ++ layoutAt a depth value) ::
      layoutEntries a depth rest

end

def layout (a : Abridging) (o : Outcome) : List UInt8 :=
  o.layoutAt a 0

def fingerprint (a : Abridging) (o : Outcome) : String :=
  stamp (o.layout a)

end Outcome

end FapLang.Measure
