/-!
# File trees

A command reads files by their paths.  Here are the reasons why that can fail, and trees of files
held in memory, in which a path is followed part by part as a disk would follow it.

Main definitions:

- `ReadError`: why a file cannot be read.
- `FileTree.insert`: a tree with one more file.
- `FileTree.follow`: what a path leads to.
- `WorkingFolder.read`: the text of the file that a path names.
-/

namespace TypeFlow

/-- Why a file cannot be read, in the words of the system. -/
structure ReadError where
  reason : String
  deriving DecidableEq

namespace ReadError

/-- Nothing has the name. -/
def notFound : ReadError := ⟨"No such file or directory (os error 2)"⟩

/-- The file must not be read. -/
def denied : ReadError := ⟨"Permission denied (os error 13)"⟩

/-- A part of the path that should be a directory is none. -/
def notDirectory : ReadError := ⟨"Not a directory (os error 20)"⟩

/-- The name is that of a directory. -/
def isDirectory : ReadError := ⟨"Is a directory (os error 21)"⟩

/-- The path or a part of it has more bytes than names may have. -/
def nameTooLong : ReadError := ⟨"File name too long (os error 36)"⟩

/-- The bytes are no text. -/
def notText : ReadError := ⟨"stream did not contain valid UTF-8"⟩

end ReadError

/-- A file with its text, or a folder with what stands in it by name. -/
inductive FileTree
  | file (text : String)
  | folder (entries : List (String × FileTree))

namespace FileTree

/-- The tree with a file at the end of a path; folders on the way are made where none stand. -/
def insert (text : String) : List String → FileTree → FileTree
  | [], _ => file text
  | part :: rest, folder entries =>
    let inner := (entries.lookup part).getD (folder [])
    folder ((part, insert text rest inner) :: entries)
  | part :: rest, file _ => folder [(part, insert text rest (folder []))]

/-- The bytes that one name may have. -/
def nameBytes : Nat := 255

/-- The bytes that a path may have. -/
def pathBytes : Nat := 4095

/-- What the parts of a path lead to from a folder.  The folders passed on the way are kept,
nearest first, for the parts that lead up again; above the topmost folder is that folder itself. -/
def follow : List FileTree → FileTree → List String → Except ReadError FileTree
  | _, here, [] => .ok here
  | _, file _, _ :: _ => .error .notDirectory
  | above, folder entries, part :: rest =>
    if part = "" || part = "." then follow above (folder entries) rest
    else if part = ".." then
      match above with
      | [] => follow [] (folder entries) rest
      | parent :: higher => follow higher parent rest
    else if nameBytes < part.utf8ByteSize then .error .nameTooLong
    else
      match entries.lookup part with
      | some inner => follow (folder entries :: above) inner rest
      | none => .error .notFound

end FileTree

/-- A folder to start paths from, and the folders above it, nearest first. -/
structure WorkingFolder where
  here : FileTree
  above : List FileTree

namespace WorkingFolder

/-- The topmost folder. -/
def root (p : WorkingFolder) : FileTree := p.above.getLastD p.here

/-- What a path leads to.  A path that begins with a slash starts from the topmost folder. -/
def find (p : WorkingFolder) (path : String) : Except ReadError FileTree :=
  if path.isEmpty then .error .notFound
  else if FileTree.pathBytes < path.utf8ByteSize then .error .nameTooLong
  else if path.startsWith "/" then FileTree.follow [] p.root (path.splitOn "/")
  else FileTree.follow p.above p.here (path.splitOn "/")

/-- The text of the file that a path names. -/
def read (p : WorkingFolder) (path : String) : Except ReadError String :=
  match p.find path with
  | .ok (.file text) => .ok text
  | .ok (.folder _) => .error .isDirectory
  | .error e => .error e

end WorkingFolder

end TypeFlow
