import FapLang.Text.Line
import FapLang.Text.Newline
import FapLang.Text.Utf8

/-!
Reading a program from a folder of files. A path is followed part by part; what goes wrong on the way is
told apart by cause.
-/

namespace FapLang

inductive ReadError
  | notFound (path : String)
  | notFolder (path : String)
  | isFolder (path : String)
  | nameTooLong (path : String)
  | nulInPath
  | undecodable (e : Text.Utf8Error)
  /-- Any other trouble, in the words of whoever met it. -/
  | other (message : String)

namespace ReadError

def message : ReadError → String
  | notFound path => "[Errno 2] No such file or directory: " ++ Text.quoted path
  | notFolder path => "[Errno 20] Not a directory: " ++ Text.quoted path
  | isFolder path => "[Errno 21] Is a directory: " ++ Text.quoted path
  | nameTooLong path => "[Errno 36] File name too long: " ++ Text.quoted path
  | nulInPath => "embedded null byte"
  | undecodable e => e.message
  | other message => message

end ReadError

/-- The files of a folder by name, somewhere in a file system without other files. -/
structure Folder where
  files : List (String × List UInt8)

/-- Where a path has led so far. -/
inductive Place
  | folder
  /-- A folder other than the given one. -/
  | elsewhere
  | file (bytes : List UInt8)

namespace Folder

def follow (f : Folder) (path : String) : Place → String → Except ReadError Place
  | .file _, _ => .error (.notFolder path)
  | place, "" | place, "." => .ok place
  | _, ".." => .ok .elsewhere
  | place, part =>
    if 255 < part.utf8ByteSize then .error (.nameTooLong path)
    else
      match place, f.files.lookup part with
      | .folder, some bytes => .ok (.file bytes)
      | _, _ => .error (.notFound path)

def open? (f : Folder) (path : String) : Except ReadError (List UInt8) := do
  if path.toList.contains (Char.ofNat 0) then throw .nulInPath
  if path.isEmpty then throw (.notFound path)
  let start := if Text.startsWith path.toList "/" then Place.elsewhere else Place.folder
  let parts := (Text.splitAtChar '/' path.toList).map String.ofList
  match ← parts.foldlM (f.follow path) start with
  | .file bytes => return bytes
  | _ => throw (.isFolder path)

end Folder

/-- The text of a file, every line end as one line feed. -/
def decodeFile (bytes : List UInt8) : Except ReadError String :=
  match Text.decodeUtf8 bytes with
  | .ok cs => .ok (String.ofList (Text.unifyLineEnds cs))
  | .error e => .error (.undecodable e)

end FapLang
