/-!
# Places in a source file

A syntax tree records a line number on every node and nothing finer, so a location is a file name
and a line; a column is carried when the reporter knows one and is shown only then.
-/

namespace PascalAsm

/-- A source line, counted from one; zero stands for an unknown line. -/
abbrev Line := UInt32

/-- A place in a source file. A column of zero is an unknown column. -/
structure Location where
  file : String
  line : Line
  column : UInt32
deriving DecidableEq

namespace Location

/-- The location of a whole line. -/
def atLine (file : String) (line : Line) : Location := ⟨file, line, 0⟩

/-- The location of something that belongs to no file. -/
def unknown : Location := ⟨"<unknown>", 0, 0⟩

/-- The text `file:line`, or `file:line:column` where the column is known. -/
def text (l : Location) : String :=
  let place := l.file ++ ":" ++ toString l.line.toNat
  if l.column = 0 then place else place ++ ":" ++ toString l.column.toNat

end Location

end PascalAsm
