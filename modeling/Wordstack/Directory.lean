import Wordstack.Error
import Wordstack.Text.Split

/-!
# Directories

A working directory as a value: the files that can be reached from it, by place.  Reading a path
walks it segment by segment, and fails in the ways in which reading a file fails.  A file holds a
text: files with bytes that are not the encoding of one are left out.

The root and the directories above the working directory are places too.  They are directories, and
hold nothing but the files that were placed there.
-/

namespace Wordstack

/-- The directory from which a place is named. -/
inductive Anchor where
  /-- The root, which is above itself. -/
  | root
  /-- A number of levels above the working directory. -/
  | above (levels : Nat)
  deriving DecidableEq

/-- The directory that holds this one. -/
def Anchor.parent : Anchor → Anchor
  | .root => .root
  | .above levels => .above (levels + 1)

/-- A place: the names on the way to it from its anchor. -/
structure Place where
  anchor : Anchor
  names : List String
  deriving DecidableEq

namespace Place

/-- The working directory. -/
def working : Place :=
  { anchor := .above 0, names := [] }

/-- The place a segment of a path leads to. -/
def step (place : Place) (segment : String) : Place :=
  if segment = "" || segment = "." then place
  else if segment = ".." then
    if place.names.isEmpty then { place with anchor := place.anchor.parent }
    else { place with names := place.names.dropLast }
  else { place with names := place.names ++ [segment] }

/-- The place where a path starts: the root if it begins with a slash. -/
def start (path : String) : Place :=
  if path.toList.head? = some '/' then { anchor := .root, names := [] } else working

/-- The segments of a path. -/
def segments (path : String) : List String :=
  (Text.fields ['/'] path.toList).map String.ofList

/-- The place a path names. -/
def ofPath (path : String) : Place :=
  (segments path).foldl step (start path)

/-- Whether a place lies inside another one, at any depth. -/
def isInside (place outer : Place) : Bool :=
  place.anchor == outer.anchor && outer.names.isPrefixOf place.names && place.names != outer.names

end Place

/-- The files that can be reached from a working directory, each with its place. -/
structure Directory where
  files : List (Place × String)

namespace Directory

/-- A directory with some files, by their paths. -/
def ofFiles (files : List (String × String)) : Directory :=
  ⟨files.map fun file => (Place.ofPath file.1, file.2)⟩

/-- The text of the file at a place. -/
def file? (directory : Directory) (place : Place) : Option String :=
  directory.files.lookup place

/-- Whether a place is a directory: an anchor itself, or a place with some file inside. -/
def isDirectory (directory : Directory) (place : Place) : Bool :=
  place.names.isEmpty || directory.files.any fun file => file.1.isInside place

/-- The most bytes a name may have. -/
def maxName : Nat := 255

/-- The most bytes a path may have. -/
def maxPath : Nat := 4095

/-- Walks from a place along segments; each but the last must lead to a directory. -/
def walk (directory : Directory) : Place → List String → Except FileFault Place
  | place, [] => .ok place
  | place, segment :: more =>
    if directory.isDirectory place then
      if maxName < segment.utf8ByteSize then .error .nameTooLong
      else walk directory (place.step segment) more
    else .error (if (directory.file? place).isSome then .notDirectory else .notFound)

/-- Reads the file at a path. -/
def read (directory : Directory) (path : String) : Except FileFault String :=
  if path.toList.contains '\x00' then .error .nulInName
  else if path.isEmpty then .error .notFound
  else if maxPath < path.utf8ByteSize then .error .nameTooLong
  else
    match directory.walk (Place.start path) (Place.segments path) with
    | .error fault => .error fault
    | .ok place =>
      match directory.file? place with
      | some text => .ok text
      | none => .error (if directory.isDirectory place then .isDirectory else .notFound)

end Directory

end Wordstack
