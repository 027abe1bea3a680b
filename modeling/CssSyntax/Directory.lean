/-
This file finds a file in a directory by a relative path.

A path is a list of names with slashes between them. An empty name and a single dot stay where they
are, two dots go back up, and every other name but the last must be a directory. A path that ends in
anything but the name of a file finds nothing, and so does a path that leaves the directory.
-/

namespace CssSyntax

/-- The names in a path. -/
def pathNames (path : String) : List (List Char) := path.toList.splitOn '/'

/-- Files below one directory. A directory below it is there when a file in it is. -/
structure Directory where
  /-- The files with the names that lead to them. Of two files in one place the later one counts. -/
  files : List (List (List Char) × ByteArray) := []

namespace Directory

/-- The longest path that is looked up, in bytes. -/
def maxPathSize : Nat := 4095

/-- Puts a file into the directory. -/
def put (directory : Directory) (path : String) (contents : ByteArray) : Directory :=
  { directory with files := directory.files ++ [(pathNames path, contents)] }

/-- The contents of the file that the names lead to. -/
def file? (directory : Directory) (names : List (List Char)) : Option ByteArray :=
  (directory.files.reverse.find? fun entry => entry.1 == names).map Prod.snd

/-- Whether the names lead to a directory. -/
def hasDirectory (directory : Directory) (names : List (List Char)) : Bool :=
  directory.files.any fun entry => names.isPrefixOf entry.1 && names.length < entry.1.length

/-- The contents of the file that the names lead to from the directory at `place`. -/
def walk? (directory : Directory) (place : List (List Char)) :
    List (List Char) → Option ByteArray
  | [] => none
  | name :: names =>
    if name = [] ∨ name = ['.'] then directory.walk? place names
    else if name = ['.', '.'] then
      if place = [] then none else directory.walk? place.dropLast names
    else if names = [] then directory.file? (place ++ [name])
    else if directory.hasDirectory (place ++ [name]) then
      directory.walk? (place ++ [name]) names
    else none

/-- The contents of the file at the path. A path that begins with a slash is not in the directory. -/
def read? (directory : Directory) (path : String) : Option ByteArray :=
  if path.startsWith '/' ∨ maxPathSize < path.utf8ByteSize then none
  else directory.walk? [] (pathNames path)

end Directory

end CssSyntax
