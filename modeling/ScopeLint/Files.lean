import ScopeLint.Text.Blank
import ScopeLint.Text.Lines
import ScopeLint.Text.Utf8

/-!
Paths, and the files that they lead to. A file system is seen through what reading a path gives; one
made of a list of entries stands for a directory that holds just these.
-/
namespace ScopeLint

namespace Path

/-- The names on a path; empty ones and single dots lead nowhere. -/
def components (path : List Char) : List (List Char) :=
  (Text.splitAt '/' path).filter fun name => name ≠ [] ∧ name ≠ ['.']

/-- Exactly two leading slashes are a root of their own; any other number is one. -/
def root (path : List Char) : List Char :=
  match path.takeWhile (· = '/') with
  | [] => []
  | ['/', '/'] => ['/', '/']
  | _ => ['/']

/-- The shortest way to write a path. Steps up stay, since they may pass through links. -/
def normalize (path : String) : String :=
  let start := root path.toList
  let steps := components path.toList
  if start.isEmpty && steps.isEmpty then "."
  else String.ofList (start ++ List.intercalate ['/'] steps)

end Path

/-- Why what should be a path is none. -/
inductive BadPath where
  | withdrawn
  | nul
deriving DecidableEq, Repr

def BadPath.message : BadPath → String
  | withdrawn => "expected str, bytes or os.PathLike object, not list"
  | nul => "embedded null byte"

/-- Why a path cannot be read. -/
inductive ReadFault where
  | missing
  | notDirectory
  | isDirectory
  | nameTooLong
  | other (code : Nat) (reason : String)
deriving DecidableEq, Repr

namespace ReadFault

def code : ReadFault → Nat
  | missing => 2
  | notDirectory => 20
  | isDirectory => 21
  | nameTooLong => 36
  | other code _ => code

def reason : ReadFault → String
  | missing => "No such file or directory"
  | notDirectory => "Not a directory"
  | isDirectory => "Is a directory"
  | nameTooLong => "File name too long"
  | other _ reason => reason

/-- How a failure to open `path` is told. -/
def message (f : ReadFault) (path : String) : String :=
  "[Errno " ++ toString f.code ++ "] " ++ f.reason ++ ": " ++ Text.quoted path

end ReadFault

abbrev Bytes := List UInt8

structure FileSystem where
  read : String → Except ReadFault Bytes

namespace FileSystem

/-- A path with its content, or a directory. -/
abbrev Entry := List (List Char) × Option Bytes

inductive Found where
  | file (content : Bytes)
  | directory

/-- What stands at a place below the top directory. A directory is there if something is in it. -/
def find (entries : List Entry) (place : List (List Char)) : Option Found :=
  match entries.find? fun e => e.1 = place ∧ e.2.isSome with
  | some (_, some content) => some (.file content)
  | _ => if place.isEmpty ∨ entries.any (fun e => place.isPrefixOf e.1) then some .directory
    else none

/-- A name has at most 255 bytes. -/
def isTooLong (name : List Char) : Bool := 255 < (String.ofList name).utf8ByteSize

/-- What a path leads to outside the top directory: steps up stay in directories, and these hold
nothing that can be read. -/
def outside (steps : List (List Char)) : ReadFault :=
  match steps.dropWhile (· = ['.', '.']) with
  | [] => .isDirectory
  | step :: _ => if isTooLong step then .nameTooLong else .missing

/-- Follows a path from a directory, given by the names that lead to it from the top. -/
def follow (entries : List Entry) (place : List (List Char)) :
    List (List Char) → Except ReadFault Bytes
  | [] => match find entries place with
    | some (.file content) => .ok content
    | some .directory => .error .isDirectory
    | none => .error .missing
  | step :: steps => match find entries place with
    | none => .error .missing
    | some (.file _) => .error .notDirectory
    | some .directory =>
      if isTooLong step then .error .nameTooLong
      else if step ≠ ['.', '.'] then follow entries (place ++ [step]) steps
      else if place.isEmpty then .error (outside steps)
      else follow entries place.dropLast steps

/-- The file system whose working directory holds the entries; its root holds no files. A path has
at most 4095 bytes. -/
def ofEntries (entries : List (String × Option Bytes)) : FileSystem where
  read path :=
    let entries := entries.map fun (name, content) => (Path.components name.toList, content)
    let steps := Path.components path.toList
    if 4095 < path.utf8ByteSize then .error .nameTooLong
    else if (Path.root path.toList).isEmpty then follow entries [] steps
    else .error (outside steps)

end FileSystem

/-- Why a text cannot be had. -/
inductive TextFault where
  | unreadable (path : String) (fault : ReadFault)
  | undecodable (e : Text.Utf8.DecodeError)
  | badPath (p : BadPath)
deriving DecidableEq, Repr

def TextFault.message : TextFault → String
  | .badPath p => p.message
  | .unreadable path fault => fault.message path
  | .undecodable e => e.message

/-- The text of some bytes, with its line ends read. -/
def textOf (bytes : Bytes) : Except TextFault String :=
  match Text.Utf8.decode bytes with
  | .ok chars => .ok (String.ofList (Text.readLineEnds chars))
  | .error e => .error (.undecodable e)

namespace FileSystem

/-- A path that holds a NUL character is never looked up. -/
def readBytes (fs : FileSystem) (path : String) : Except TextFault Bytes :=
  if '\x00' ∈ path.toList then .error (.badPath .nul)
  else match fs.read (Path.normalize path) with
  | .ok bytes => .ok bytes
  | .error fault => .error (.unreadable (Path.normalize path) fault)

def readText (fs : FileSystem) (path : String) : Except TextFault String := do
  textOf (← fs.readBytes path)

/-- The text of a source file, whose byte order mark is no part of it. -/
def readSource (fs : FileSystem) (path : String) : Except TextFault String := do
  textOf (Text.Utf8.dropMark (← fs.readBytes path))

end FileSystem

/-- The names of a word list, one to a line; a `#` starts a comment. -/
def listedNames (text : String) : List String :=
  (Text.wordLines text.toList).filterMap fun line =>
    match Text.trim (line.takeWhile (· ≠ '#')) with
    | [] => none
    | name => some (String.ofList name)

end ScopeLint
