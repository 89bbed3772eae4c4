/-!
# A directory of files

What a run can read and change: files with names, and paths that lead to them. Where a path leads is
part of the `Directory`, and it stays the same during a run. If nothing else is said, it is `place?`:
there are no directories inside, and paths are seen from inside, so that a path leads to a file only
if it is a name, perhaps after parts that stay in the same directory. Of all paths that lead out,
those to the null device are then the only ones that lead anywhere.

A path to nothing can be written, which makes a file; it can be read only if the file is there.
-/

namespace PascalAsm.CommandLine.Directory

/-! ### Paths -/

/-- The parts of a path between its slashes. -/
def parts : List Char → List (List Char)
  | [] => [[]]
  | '/' :: rest => [] :: parts rest
  | c :: rest =>
    match parts rest with
    | [] => [[c]]
    | part :: others => (c :: part) :: others

/-- The names along a path, without the parts that stay in the same directory. The last part has
to be a name. -/
def namesAlong? : List (List Char) → Option (List String)
  | [name] =>
    if name = [] ∨ name = ['.'] ∨ name = ['.', '.'] then none else some [String.ofList name]
  | part :: rest =>
    -- slashes in a row, or a step to the same directory
    if part = [] ∨ part = ['.'] then namesAlong? rest
    -- a second name, or a step out, makes the path lead somewhere else
    else (namesAlong? rest).map (String.ofList part :: ·)
  | [] => none

/-- Where a path can lead. -/
inductive Place where
  /-- A file of the directory, or a name for one. -/
  | file (name : String)
  /-- The null device, which holds no text and keeps none. -/
  | null
deriving DecidableEq

/-- How many bytes a path may have. -/
def maxPathLength : Nat := 4095

/-- Where a path leads, seen from inside a directory without others in it. A path that begins with a
slash leads out. -/
def place? (path : String) : Option Place :=
  if path.utf8ByteSize ≤ maxPathLength then
    match path.toList with
    | '/' :: rest => if namesAlong? (parts rest) = some ["dev", "null"] then some .null else none
    | chars =>
      match namesAlong? (parts chars) with
      | some [name] => some (.file name)
      | _ => none
  else none

end PascalAsm.CommandLine.Directory

namespace PascalAsm.CommandLine

/-! ### Files -/

/-- Files and their texts, and where paths lead. -/
structure Directory where
  files : List (String × String)
  /-- Where a path leads, if anywhere. Different paths can lead to one file. -/
  resolve : String → Option Directory.Place := Directory.place?

namespace Directory

/-- The text of the file of a name. -/
def find? (d : Directory) (name : String) : Option String := d.files.lookup name

/-- The text to which a path leads. The null device is empty. -/
def read? (d : Directory) (path : String) : Option String :=
  match d.resolve path with
  | some (.file name) => d.find? name
  | some .null => some ""
  | none => none

/-- How many bytes the name of a file may have. -/
def maxNameLength : Nat := 255

/-- Gives a file a text; a file that is not there is made, and comes last. The others keep their
places. -/
def putIn (name text : String) : List (String × String) → List (String × String)
  | [] => [(name, text)]
  | file :: rest =>
    if file.1 = name then (name, text) :: rest else file :: putIn name text rest

/-- The directory with a text given to a file. -/
def put (d : Directory) (name text : String) : Directory :=
  { d with files := putIn name text d.files }

/-- What was given to a file is what it holds; all other files hold what they held. -/
theorem find?_put (d : Directory) (name text other : String) :
    (d.put name text).find? other = if other = name then some text else d.find? other := by
  rcases d with ⟨files, resolve⟩
  simp only [put, find?]
  induction files with
  | nil =>
    by_cases h : other = name
    · rw [if_pos h, h, putIn, List.lookup_cons_self]
    · rw [if_neg h, putIn, List.lookup_cons, beq_eq_false_iff_ne.2 h]
  | cons file rest ih =>
    by_cases hf : file.1 = name
    · rw [putIn, if_pos hf, List.lookup_cons, List.lookup_cons, hf]
      by_cases h : other = name
      · rw [if_pos h, beq_iff_eq.2 h]
      · rw [if_neg h, beq_eq_false_iff_ne.2 h]
    · rw [putIn, if_neg hf, List.lookup_cons, List.lookup_cons, ih]
      by_cases h : other = name
      · simp only [if_pos h, beq_eq_false_iff_ne.2 fun e => hf (e.symm.trans h)]
      · simp only [if_neg h]

/-- The directory once a text was written to where a path leads. It fails where the path leads
nowhere, and where the name is too long. -/
def write? (d : Directory) (path text : String) : Option Directory :=
  match d.resolve path with
  -- the name may be too long for a file although the path is not too long
  | some (.file name) => if name.utf8ByteSize ≤ maxNameLength then some (d.put name text) else none
  | some .null => some d
  | none => none

/-- The files that an earlier state of the directory did not hold in this way. -/
def changesSince (d earlier : Directory) : List (String × String) :=
  d.files.filter fun file => earlier.find? file.1 ≠ some file.2

end Directory

end PascalAsm.CommandLine
