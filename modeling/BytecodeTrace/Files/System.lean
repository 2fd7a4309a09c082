/-
# File systems

A file system is a tree of directories, regular files and links, and a working directory.  A path is
resolved component by component, as the operating system does it: every component but the last has
to be a directory, `..` leads to the directory above.

The tree alone does not decide everything: a device can be full or absent, and there are places
where nobody may put anything.  A file system lists these as its restrictions, and where it has
none, every refusal is explained by the tree and the path.

The operations are those that the program needs: reading a whole file, creating directories,
writing a whole file.
-/
import BytecodeTrace.Files.Path
import BytecodeTrace.Files.Tree

namespace BytecodeTrace

/-- Why the operating system refuses. -/
inductive SystemError where
  | noSuchFile
  | fileExists
  | notDirectory
  | isDirectory
  | nameTooLong
  | permissionDenied
  | noSuchDevice
  | noSpace
  /-- The path has a zero character. -/
  | zeroInPath
  /-- The bytes are not a text. -/
  | invalidText
  | other (text : String)
deriving DecidableEq, Repr

/-- The text of the refusal, with its number where it has one. -/
def SystemError.message : SystemError → String
  | noSuchFile => "No such file or directory (os error 2)"
  | noSuchDevice => "No such device or address (os error 6)"
  | permissionDenied => "Permission denied (os error 13)"
  | fileExists => "File exists (os error 17)"
  | notDirectory => "Not a directory (os error 20)"
  | isDirectory => "Is a directory (os error 21)"
  | noSpace => "No space left on device (os error 28)"
  | nameTooLong => "File name too long (os error 36)"
  | zeroInPath => "file name contained an unexpected NUL byte"
  | invalidText => "stream did not contain valid UTF-8"
  | other text => text

/-- What the system refuses at a location and at those below it, whatever the tree says. -/
structure Restriction where
  location : Location
  /-- Why no file there can be read. -/
  reading : Option SystemError
  /-- Why nothing can be created or written there. -/
  writing : Option SystemError
deriving DecidableEq, Repr

/-- The entries of the root, the directory that relative paths start from, and the restrictions. -/
structure FileSystem where
  root : Entries
  workingDirectory : Location
  restrictions : List Restriction

/-- What a path leads to: a directory, a file, or a free name in a directory. -/
inductive Resolved where
  | directory
  | file (location : Location) (content : ByteArray)
  | vacant (location : Location)

namespace FileSystem

/-! ## 1. Trees -/

/-- The tree at a location. -/
def at? (fs : FileSystem) (location : Location) : Option Tree :=
  (Tree.directory fs.root).at? location

/-- Puts a tree at a location below the root, in place of the one that is there. -/
def put (fs : FileSystem) (location : Location) (t : Tree) : FileSystem :=
  match location with
  | [] => fs
  | name :: rest =>
    { fs with root := fs.root.set name (t.put rest ((fs.root.lookup name).getD .empty)) }

/-- Below the root, a put into a file system is a put into the tree of the root. -/
theorem at?_put (fs : FileSystem) (name : String) (rest : Location) (t : Tree)
    (location : Location) :
    (fs.put (name :: rest) t).at? location =
      (t.put (name :: rest) (.directory fs.root)).at? location := rfl

/-- Nothing but the working directory and those above it, without restrictions. -/
def empty (workingDirectory : Location) : FileSystem :=
  (FileSystem.mk [] workingDirectory []).put workingDirectory .empty

/-- The restriction that a location is under; of several, the first one. -/
def restriction? (fs : FileSystem) (location : Location) : Option Restriction :=
  fs.restrictions.find? fun r => r.location.isPrefixOf location

/-- Puts a tree at a location, unless a restriction says why not. -/
def place (fs : FileSystem) (location : Location) (t : Tree) : Except SystemError FileSystem :=
  match (fs.restriction? location).bind Restriction.writing with
  | some e => .error e
  | none => .ok (fs.put location t)

/-- Without restrictions, a tree can be put everywhere. -/
theorem place_of_restrictions_eq_nil {fs : FileSystem} (h : fs.restrictions = [])
    (location : Location) (t : Tree) : fs.place location t = .ok (fs.put location t) := by
  simp [place, restriction?, h]

/-- The regular files below a directory, by the path from there. -/
def filesBelow (fs : FileSystem) (directory : Location) : List (String × ByteArray) :=
  match fs.at? directory with
  | none => []
  | some t => t.files.map fun (location, content) => ("/".intercalate location, content)

/-! ## 2. Resolving a path -/

/-- The longest name, in bytes. -/
def longestName : Nat := 255

/-- The longest path, in bytes. -/
def longestPath : Nat := 4095

/-- The directories on the way from the root, the nearest first, each with its entries. -/
abbrev Trail := List (String × Entries)

/-- The entries of the directory that a trail leads to. -/
def Trail.entries (root : Entries) : Trail → Entries
  | [] => root
  | (_, entries) :: _ => entries

/-- The location of a name in the directory that a trail leads to. -/
def Trail.location (trail : Trail) (name : String) : Location :=
  (name :: trail.map Prod.fst).reverse

/-- The trail to a directory, by the names on the way there. -/
def trailTo (root : Entries) (trail : Trail) : Location → Option Trail
  | [] => some trail
  | name :: rest =>
    match (trail.entries root).lookup name with
    | some (.directory entries) => trailTo root ((name, entries) :: trail) rest
    | _ => none

/-- Follows components from the directory that a trail leads to.  A link stands for the directory
or the file at its target; a link to anything else, another link included, leads nowhere. -/
def follow (root : Entries) (trail : Trail) : List String → Except SystemError Resolved
  | [] => .ok .directory
  | name :: rest =>
    if name = "." then follow root trail rest
    else if name = ".." then follow root (trail.drop 1) rest
    else if longestName < name.utf8ByteSize then .error .nameTooLong
    else
      match (trail.entries root).lookup name with
      | some (.directory entries) => follow root ((name, entries) :: trail) rest
      | some (.file content) => atFile (trail.location name) content rest
      | some (.link target) =>
        match trailTo root [] target, (Tree.directory root).at? target with
        | some trail, _ => follow root trail rest
        | none, some (.file content) => atFile target content rest
        | none, _ => .error .noSuchFile
      | none =>
        if rest.isEmpty then .ok (.vacant (trail.location name)) else .error .noSuchFile
where
  /-- A file ends a path. -/
  atFile (location : Location) (content : ByteArray) (rest : List String) :
      Except SystemError Resolved :=
    if rest.isEmpty then .ok (.file location content) else .error .notDirectory

/-- Why a path is refused before it is followed. -/
def refusal? (path : String) : Option SystemError :=
  if path.toList.contains (Char.ofNat 0) then some .zeroInPath
  else if path.isEmpty then some .noSuchFile
  else if longestPath < path.utf8ByteSize then some .nameTooLong
  else none

/-- The components of a path. -/
def names (path : String) : List String := (Path.components path.toList).map String.ofList

/-- The names to follow from the root: those of the path, behind those of the working directory
where the path is relative. -/
def route (fs : FileSystem) (path : String) : Except SystemError (List String) :=
  match refusal? path with
  | some e => .error e
  | none =>
    .ok (if path.toList.head? = some '/' then names path else fs.workingDirectory ++ names path)

/-- What a path leads to. -/
def resolve (fs : FileSystem) (path : String) : Except SystemError Resolved :=
  match fs.route path with
  | .error e => .error e
  | .ok names => follow fs.root [] names

/-- The path ends with a slash, so it can only name a directory. -/
def namesDirectory (path : String) : Bool := path.toList.getLast? = some '/'

/-- What a path leads to when a file is to be put there.  The last name before a slash at the end
is not looked up, since no file can have it: the path stands for the directory around it. -/
def resolveTarget (fs : FileSystem) (path : String) : Except SystemError Resolved :=
  if namesDirectory path then
    match fs.route path with
    | .error e => .error e
    | .ok names => follow fs.root [] (names.dropLast ++ ["."])
  else fs.resolve path

/-! ## 3. Operations -/

/-- The content of a file. -/
def read (fs : FileSystem) (path : String) : Except SystemError ByteArray :=
  match fs.resolve path with
  | .error e => .error e
  | .ok .directory => .error .isDirectory
  | .ok (.vacant _) => .error .noSuchFile
  | .ok (.file location content) =>
    if namesDirectory path then .error .notDirectory
    else
      match (fs.restriction? location).bind Restriction.reading with
      | some e => .error e
      | none => .ok content

/-- The path leads to a directory. -/
def isDirectory (fs : FileSystem) (path : String) : Bool :=
  match fs.resolve path with
  | .ok .directory => true
  | _ => false

/-- Creates one directory.  One that is there already is left as it is. -/
def makeDirectory (fs : FileSystem) (path : String) : Except SystemError FileSystem :=
  match fs.resolve path with
  | .error e => .error e
  | .ok .directory => .ok fs
  | .ok (.vacant location) => fs.place location .empty
  | .ok (.file ..) => .error .fileExists

/-- Creates a directory and the missing ones above it, `fuel` at most. -/
def makeDirectoriesUpTo : Nat → FileSystem → List Char → FileSystem × Except SystemError Unit
  | 0, fs, _ => (fs, .ok ())
  | fuel + 1, fs, path =>
    if path.isEmpty then (fs, .ok ())
    else
      match fs.makeDirectory (String.ofList path), Path.parent? path with
      | .ok fs, _ => (fs, .ok ())
      | .error .noSuchFile, some parent =>
        match makeDirectoriesUpTo fuel fs parent with
        | (fs, .error e) => (fs, .error e)
        | (fs, .ok ()) =>
          match fs.makeDirectory (String.ofList path) with
          | .ok fs => (fs, .ok ())
          | .error e => (fs, .error e)
      | .error e, _ => (fs, .error e)

/-- Creates a directory and the missing ones above it.  Each path above is shorter than the one
below it, so there are no more of them than the path has characters. -/
def makeDirectories (fs : FileSystem) (path : String) : FileSystem × Except SystemError Unit :=
  makeDirectoriesUpTo path.length fs path.toList

/-- Writes a file, in place of an old one. -/
def write (fs : FileSystem) (path : String) (content : ByteArray) : Except SystemError FileSystem :=
  match fs.resolveTarget path with
  | .error e => .error e
  | .ok .directory => .error .isDirectory
  | .ok (.file location _) | .ok (.vacant location) => fs.place location (.file content)

end FileSystem
end BytecodeTrace
