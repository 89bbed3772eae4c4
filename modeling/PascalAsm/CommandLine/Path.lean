/-!
# Names in paths

A path is a text whose parts are separated by slashes. Its last part names a file, unless it is one
of the two that name directories; slashes and further parts `.` at the end do not count. The name
splits at its last dot into a stem and an extension. A dot that opens the name does not split it.

Another extension is given in two steps: the old one is cut off, up to its dot, and then what the
path names gets its stem and the new one. The steps are told apart by a name such as `..a`, which
without its extension is `..` and names no file any more.

The readers go from the end of the path, so they work on its characters in reverse.
-/

namespace PascalAsm.CommandLine.Path

/-- Drops what does not count at the end of a path. -/
def dropTrailing : List Char → List Char
  | '/' :: before => dropTrailing before
  | '.' :: '/' :: before => dropTrailing before
  | before => before

/-- The file that a path names, and what stands before the name; all from the end. -/
def split? (path : List Char) : Option (List Char × List Char) :=
  let counted := dropTrailing path
  let name := counted.takeWhile (· ≠ '/')
  if name = [] ∨ name = ['.'] ∨ name = ['.', '.'] then none
  else some (name, counted.dropWhile (· ≠ '/'))

/-- The extension and the stem of a name, from the end. A name without a dot in the middle is all
stem. -/
def splitName (name : List Char) : List Char × List Char :=
  match name.dropWhile (· ≠ '.') with
  -- a dot with nothing before it opens the name and splits nothing
  | '.' :: c :: before => (name.takeWhile (· ≠ '.'), c :: before)
  | _ => ([], name)

/-- The stem of the file that a path names. -/
def stem? (path : String) : Option String :=
  (split? path.toList.reverse).map fun (name, _) => String.ofList (splitName name).2.reverse

/-- A path, from the end, without as many characters as the extension has of what it names. -/
def dropExtension (path : List Char) : List Char :=
  match split? path with
  | none => path
  | some (name, _) => path.drop (splitName name).1.length

/-- The path with another extension. It stays as it is where no file is named, and it only loses
its extension where no file is named any more without it. -/
def withExtension (path ext : String) : String :=
  let kept := dropExtension path.toList.reverse
  match split? kept with
  -- without its extension the path names no file, and gets no other one
  | none => String.ofList kept.reverse
  | some (name, before) => String.ofList ((splitName name).2 ++ before).reverse ++ "." ++ ext

end PascalAsm.CommandLine.Path
