import DialectIR.Text.Lines

/-! Trees of files, and how a path leads through a tree to the contents of a file. -/

namespace DialectIR

/-- Why a file cannot be read. -/
inductive FileFault where
  | missing
  /-- The path leads through something that is no directory. -/
  | notDirectory
  | directory
  | nameTooLong
  /-- A fault that the system describes, with its number. -/
  | other (text : String) (code : Nat)
deriving DecidableEq

/-- The message about the fault: a text and the number of the fault. -/
def FileFault.message : FileFault → String
  | .missing => "No such file or directory (os error 2)"
  | .notDirectory => "Not a directory (os error 20)"
  | .directory => "Is a directory (os error 21)"
  | .nameTooLong => "File name too long (os error 36)"
  | .other text code => text ++ " (os error " ++ toString code ++ ")"

/-- A file, or a directory with its entries. -/
inductive FileTree where
  | file (contents : ByteArray)
  | directory (entries : List (String × FileTree))

namespace FileTree

/-- A node of a tree with the directories that hold it, the nearest first and the root last. -/
structure Place where
  node : FileTree
  above : List FileTree := []

namespace Place

/-- The longest name of an entry, in bytes. -/
def maxNameSize : Nat := 255

/-- The longest path, in bytes. -/
def maxPathSize : Nat := 4095

/-- The root of the tree. -/
def root (place : Place) : Place := ⟨(place.node :: place.above).getLast (by simp), []⟩

/-- The place that one name of a path leads to. No name and a point stay where they are, two points
lead up, and the root is above itself. -/
def enter (place : Place) (name : String) : Except FileFault Place :=
  match place.node with
  | .file _ => .error .notDirectory
  | .directory entries =>
      if name = "" || name = "." then .ok place
      else if name = ".." then
        match place.above with
        | [] => .ok place
        | node :: above => .ok ⟨node, above⟩
      else if maxNameSize < name.utf8ByteSize then .error .nameTooLong
      else match entries.lookup name with
        | some node => .ok ⟨node, place.node :: place.above⟩
        | none => .error .missing

/-- The place that a path leads to: from the root if it starts with a slash, and else from here. -/
def follow (place : Place) (path : String) : Except FileFault Place :=
  if path = "" then .error .missing
  else if maxPathSize < path.utf8ByteSize then .error .nameTooLong
  else
    let start := if path.toList.head? = some '/' then place.root else place
    ((Text.pieces '/' path.toList).map String.ofList).foldlM enter start

/-- The contents of the file that a path leads to. -/
def read (place : Place) (path : String) : Except FileFault ByteArray := do
  match (← place.follow path).node with
  | .file contents => return contents
  | .directory _ => throw .directory

end Place

/-- What there is on any system: the usual directories, the device that is always empty, the
standard input under its names, and programs, which are no texts. -/
def system (input : ByteArray) : FileTree :=
  let empty (names : List String) := names.map fun name => (name, directory [])
  let standardInput := directory [("0", file input)]
  let program := file ⟨#[0x7F, 0x45, 0x4C, 0x46, 0x80]⟩
  let shell := directory [("sh", program)]
  directory <|
    [("bin", shell),
     ("dev", directory <| [("fd", standardInput), ("null", file .empty), ("stdin", file input)] ++
        empty ["pts", "shm"]),
     ("proc", directory [("self", directory [("exe", program), ("fd", standardInput)])]),
     ("usr", directory <| ("bin", shell) ::
        empty ["include", "lib", "local", "sbin", "share", "src"]),
     ("var", directory (empty ["cache", "lib", "log", "spool", "tmp"]))] ++
    empty ["boot", "etc", "home", "lib", "lib64", "media", "mnt", "opt", "root", "run",
      "sbin", "srv", "sys", "tmp"]

/-- An empty directory to work in, on any system. -/
def Place.workplace (input : ByteArray) : Place := ⟨directory [], [system input]⟩

end FileTree

end DialectIR
