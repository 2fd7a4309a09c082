/-
# Path texts

A path is names between slashes.  Repeated slashes count as one, and a `.` component only counts
at the very start; slashes and `.` components at the end are passed over.

* `Path.fileName?`: the last component, when it is a proper name;
* `Path.stem`: a file name without its last extension;
* `Path.parent?`: the text of the path up to the component before the last one.
-/
import BytecodeTrace.Text.Span

namespace BytecodeTrace
namespace Path

/-- Passes over slashes and `.` components at the front of a reversed path.  The slash of the root
stays, and so does a `.` that starts the path. -/
def dropTail : List Char → List Char
  | '/' :: [] => ['/']
  | '/' :: rest => dropTail rest
  | '.' :: '/' :: rest => dropTail ('/' :: rest)
  | reversed => reversed

/-- The last component of a path and the reversed text before it; nothing for the empty path and
the root. -/
def lastComponent? (path : List Char) : Option (List Char × List Char) :=
  match dropTail path.reverse with
  | [] => none
  | ['/'] => none
  | reversed => some ((reversed.takeWhile (· != '/')).reverse, reversed.dropWhile (· != '/'))

/-- The last component, unless it is `.` or `..`. -/
def fileName? (path : List Char) : Option (List Char) :=
  match lastComponent? path with
  | none => none
  | some (name, _) => if name = ['.'] ∨ name = ['.', '.'] then none else some name

/-- A name without its last extension: the part before the last point.  A name whose only point
is its first character has no extension. -/
def stem (name : List Char) : List Char :=
  match Text.cutLast '.' name with
  | none => name
  | some (before, _) => if before.isEmpty then name else before

/-- The path of the directory that a path is in, which is empty for a single component. -/
def parent? (path : List Char) : Option (List Char) :=
  (lastComponent? path).map fun (_, reversed) => (dropTail reversed).reverse

/-- The components of a path, `.` and `..` included. -/
def components (path : List Char) : List (List Char) :=
  match _h : path.dropWhile (· == '/') with
  | [] => []
  | c :: rest =>
    (c :: rest.takeWhile (· != '/')) :: components (rest.dropWhile (· != '/'))
termination_by path.length
decreasing_by
  have h1 := (List.dropWhile_suffix (l := path) (· == '/')).length_le
  have h2 := (List.dropWhile_suffix (l := rest) (· != '/')).length_le
  simp only [_h, List.length_cons] at h1
  omega

end Path
end BytecodeTrace
