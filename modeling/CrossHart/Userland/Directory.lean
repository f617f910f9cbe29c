import CrossHart.Userland.Load

/-!
# Directories

The files that a program can be read from.  A path is walked name by name: an empty name and `.`
stay in a directory, `..` leads out of it, and nothing leads on from a file.  Of what is outside
the directory nothing is known but that there are directories above it.
-/

namespace CrossHart.Userland

/-- A directory without subdirectories: names and contents of its files. -/
abbrev Directory := List (String × ByteArray)

namespace Directory

/-- The greatest number of bytes of a path. -/
def pathLimit : Nat := 4095

/-- The greatest number of bytes of a name. -/
def nameLimit : Nat := 255

/-- Where a path leads. -/
inductive Spot where
  /-- The directory itself. -/
  | inside
  /-- A directory above it. -/
  | outside
  | file (data : ByteArray)

/-- Where a name leads from a spot. -/
def step (d : Directory) : Spot → String → Except FileError Spot
  | .file _, _ => .error .notDirectory
  | spot, "" | spot, "." => .ok spot
  | _, ".." => .ok .outside
  | spot, name =>
    if nameLimit < name.utf8ByteSize then .error .nameTooLong
    else
      match spot, d.lookup name with
      | .inside, some data => .ok (.file data)
      | _, _ => .error .missing

/-- Where a path starts. -/
def start (path : String) : Spot :=
  if path.startsWith "/" then .outside else .inside

/-- Where a path leads. -/
def walk (d : Directory) (path : String) : Except FileError Spot :=
  if path.isEmpty then .error .missing
  else if pathLimit < path.utf8ByteSize then .error .nameTooLong
  else (path.splitOn "/").foldlM d.step (start path)

/-- The contents of the file at a path. -/
def read (d : Directory) (path : String) : Except FileError ByteArray := do
  match ← d.walk path with
  | .file data => return data
  | _ => throw .isDirectory

end Directory

end CrossHart.Userland
