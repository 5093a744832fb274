import ContextFree.File.Error
import ContextFree.File.Path

/-!
# Directories

A directory that holds files and nothing else, and what reading and writing a path from there
gives. Of what is around it, only the standard directories and the null device are known. What
is written there is not kept.
-/

namespace ContextFree

namespace Path

/-- The number of bytes that a path can have. -/
def sizeLimit : Nat := 4095

/-- The number of bytes that a name on the way of a path can have. -/
def nameSizeLimit : Nat := 255

/-- What is wrong with a path, whatever there is to find. -/
def fault? (path : String) : Option FileError :=
  if path.toList.contains '\x00' then some .nullInPath
  else if path.isEmpty then some .missing
  else if sizeLimit < path.utf8ByteSize then some .nameTooLong
  else none

end Path

/-- The files of a directory, with distinct names. -/
structure Directory where
  files : List (String × ByteArray)

namespace Directory

/-- The directories that a path can come through. -/
inductive Place where
  /-- The directory of the files. -/
  | here
  /-- The root of all directories. -/
  | root
  /-- The directory of the devices. -/
  | devices
  /-- A directory of which nothing is known. -/
  | elsewhere
deriving DecidableEq, Repr

/-- The directory that a place is in. -/
def Place.parent : Place → Place
  | root | devices => .root
  | here | elsewhere => .elsewhere

/-- What a name can stand for. -/
inductive Entry where
  | directory (place : Place)
  | file (content : ByteArray)
  | nullDevice

/-- The directories that the root is known to hold, apart from the one of the devices. -/
def standardNames : List String := ["bin", "etc", "lib", "proc", "sys", "tmp", "usr", "var"]

/-- The content of a file. -/
def content? (directory : Directory) (name : String) : Option ByteArray :=
  directory.files.lookup name

/-- What a name stands for at a place. -/
def entry? (directory : Directory) : Place → String → Option Entry
  | .here, name => (directory.content? name).map .file
  | .root, name =>
    if name = "dev" then some (.directory .devices)
    else if standardNames.contains name then some (.directory .elsewhere)
    else none
  | .devices, name => if name = "null" then some .nullDevice else none
  | .elsewhere, _ => none

/-- Looks a name up at a place. A name that is too long cannot be looked up. -/
def find (directory : Directory) (place : Place) (name : String) :
    Except FileError (Option Entry) :=
  if Path.nameSizeLimit < name.utf8ByteSize then .error .nameTooLong
  else .ok (directory.entry? place name)

/-- The place that the pieces of a path lead to from another, and the name of what is meant
there, unless it is the place itself. All pieces before that name lead through directories. -/
def walk (directory : Directory) (place : Place) :
    List String → Except FileError (Place × Option String)
  | [] => .ok (place, none)
  | piece :: rest =>
    if piece = "." then directory.walk place rest
    else if piece = ".." then directory.walk place.parent rest
    else if rest.isEmpty then .ok (place, some piece)
    else
      match directory.find place piece with
      | .error error => .error error
      | .ok none => .error .missing
      | .ok (some (.directory inner)) => directory.walk inner rest
      | .ok (some _) => .error .belowFile

/-- The place that a path leads to, and the name of what is meant there. -/
def locate (directory : Directory) (path : String) : Except FileError (Place × Option String) :=
  match Path.fault? path with
  | some error => .error error
  | none =>
    directory.walk (if Path.isRooted path then .root else .here) (Path.pieces path)

/-- The text of the file that a path leads to. A slash at its end asks for a directory. -/
def read (directory : Directory) (path : String) : Except FileError String :=
  match directory.locate path with
  | .error error => .error error
  | .ok (_, none) => .error .directory
  | .ok (place, some name) =>
    match directory.find place name with
    | .error error => .error error
    | .ok none => .error .missing
    | .ok (some (.directory _)) => .error .directory
    | .ok (some entry) =>
      if Path.endsInSlash path then .error .belowFile
      else
        match entry with
        | .file content =>
          match String.fromUTF8? content with
          | some text => .ok text
          | none => .error .notText
        | _ => .ok ""

/-- The directory with a file of the given text in place of any of that name. -/
def put (directory : Directory) (name text : String) : Directory :=
  ⟨(name, text.toUTF8) :: directory.files.filter (·.1 != name)⟩

/-- The directory after text has been written to a path. -/
def write (directory : Directory) (path text : String) : Except FileError Directory :=
  match directory.locate path with
  | .error error => .error error
  | .ok (_, none) => .error .directory
  | .ok (place, some name) =>
    if Path.endsInSlash path then .error .directory
    else
      match directory.find place name with
      | .error error => .error error
      | .ok (some (.directory _)) => .error .directory
      | .ok _ => .ok (if place = .here then directory.put name text else directory)

end Directory

end ContextFree
