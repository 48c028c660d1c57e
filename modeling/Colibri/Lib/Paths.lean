import Mathlib.Data.List.Basic

/-!
# Paths on a tree of directories

Where a path leads when a file is created at it: the components are walked one at a
time from a directory, `.` and empty components stay, `..` goes to the parent, and
every component but the last must be a directory that exists. There are no links. A
location is the list of names from the root, so two paths name one file exactly when
they lead to one location, and `Inside` is a statement about names.

`walk` goes over the components but the last, `target` is where the file is. Both fail at a
component that is no directory. Directories are given by a predicate on locations, so that the
files of a tree need not be listed.
-/

namespace Colibri.Paths

/-- The names from the root down. -/
abbrev Loc := List (List Char)

/-- The components of a path, empty ones included. -/
def components (path : List Char) : List (List Char) := path.splitOn '/'

/-- `join`: a path that starts with a slash starts over at the root. -/
def start (dir : Loc) (path : List Char) : Loc := if path.head? = some '/' then [] else dir

/-- Walk existing directories. -/
def walk (dirs : Loc → Bool) : Loc → List (List Char) → Option Loc
  | loc, [] => some loc
  | loc, c :: cs =>
    if c = [] ∨ c = ['.'] then walk dirs loc cs
    else if c = ['.', '.'] then walk dirs loc.dropLast cs
    else if dirs (loc ++ [c]) then walk dirs (loc ++ [c]) cs else none

/-- Where a file created at `path`, taken from `dir`, is put. There is none for a path that
ends in a slash or in `.` or `..`, names a directory, or holds a NUL. -/
def target (dirs : Loc → Bool) (dir : Loc) (path : List Char) : Option Loc :=
  let cs := components path
  let last := cs.getLastD []
  if '\x00' ∈ path ∨ last = [] ∨ last = ['.'] ∨ last = ['.', '.'] then none
  else
    match walk dirs (start dir path) cs.dropLast with
    | none => none
    | some parent => if dirs (parent ++ [last]) then none else some (parent ++ [last])

/-- Strictly below a directory. -/
def Inside (dir loc : Loc) : Prop := ∃ names, names ≠ [] ∧ loc = dir ++ names

end Colibri.Paths
