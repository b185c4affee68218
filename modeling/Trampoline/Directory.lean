/-!
# Directories

The files that a project can read, below one directory, and how paths lead to them. Nothing is
known of what lies outside the directory, except that there are directories above it.
-/

namespace Trampoline

/-- Files by the parts of their paths, below one directory. -/
structure Directory where
  files : List (List String × String)
  deriving Inhabited

/-- Why a path leads to no file. -/
inductive PathFault where
  | missing
  /-- A file where a directory is needed. -/
  | notADirectory
  | isADirectory
  /-- A path, or a part of one, that is longer than a file system allows. -/
  | nameTooLong
  /-- A path with a character that no name can have. -/
  | nulInName
  deriving DecidableEq, Repr, Inhabited

/-- The reason that the operating system gives. -/
def PathFault.reason : PathFault -> String
  | missing => "No such file or directory (os error 2)"
  | notADirectory => "Not a directory (os error 20)"
  | isADirectory => "Is a directory (os error 21)"
  | nameTooLong => "File name too long (os error 36)"
  | nulInName => "file name contained an unexpected NUL byte"

namespace Directory

/-- The number of bytes that a part of a path may have. -/
def maxNameBytes : Nat := 255

/-- The number of bytes that a path may have. -/
def maxPathBytes : Nat := 4095

/-- The parts of a path between its slashes. -/
def parts (path : String) : List String :=
  (path.toList.splitOn '/').map String.ofList

/-- Whether a part of a path leads nowhere. -/
def isIdle (part : String) : Bool :=
  part = "" || part = "."

/-- A directory with the files given by their paths. -/
def ofFiles (files : List (String × String)) : Directory :=
  ⟨files.map fun (path, content) => ((parts path).filter fun part => !isIdle part, content)⟩

/-- Whether a path below the directory is a directory, because a file is in it. -/
def isBelow (directory : Directory) (path : List String) : Bool :=
  directory.files.any fun file => path.isPrefixOf file.1

/-- Follow the parts of a path outside the directory, where only the way up is known. -/
def followOutside : List String -> Except PathFault String
  | [] => .error .isADirectory
  | part :: rest =>
    if isIdle part || part = ".." then followOutside rest
    else if maxNameBytes < part.utf8ByteSize then .error .nameTooLong
    else .error .missing

/-- Follow the parts of a path, from a directory on that is given by its own path. -/
def follow (directory : Directory) : List String -> (entered : List String) ->
    Except PathFault String
  | [], _ => .error .isADirectory
  | part :: rest, entered =>
    if isIdle part then directory.follow rest entered
    else if part = ".." then
      if entered.isEmpty then followOutside rest else directory.follow rest entered.dropLast
    else if maxNameBytes < part.utf8ByteSize then .error .nameTooLong
    else
      let next := entered ++ [part]
      match directory.files.lookup next with
      | some content => if rest.isEmpty then .ok content else .error .notADirectory
      | none => if directory.isBelow next then directory.follow rest next else .error .missing

/-- The content of the file at a path. -/
def find (directory : Directory) (path : String) : Except PathFault String :=
  if path.toList.contains '\x00' then .error .nulInName
  else if maxPathBytes < path.utf8ByteSize then .error .nameTooLong
  else if path.isEmpty then .error .missing
  else if path.startsWith "/" then followOutside (parts path)
  else directory.follow (parts path) []

end Directory

end Trampoline
