/-!
# Operators

The operators of Pascal expressions, grouped as the grammar groups them by precedence: relations,
sums, products, and the connectives between conditions.
-/

namespace PascalAsm

/-- A relation between two integers. -/
inductive RelOp where
  | eq
  | ne
  | lt
  | le
  | gt
  | ge
deriving DecidableEq

namespace RelOp

/-- The relation as Pascal writes it. -/
def text : RelOp → String
  | eq => "="
  | ne => "<>"
  | lt => "<"
  | le => "<="
  | gt => ">"
  | ge => ">="

end RelOp

/-- An operator of sums. -/
inductive AddOp where
  | plus
  | minus
deriving DecidableEq

/-- The operator as Pascal writes it. -/
def AddOp.text : AddOp → String
  | plus => "+"
  | minus => "-"

/-- An operator of products. -/
inductive MulOp where
  | star
  /-- Division of reals. -/
  | slash
  /-- Division of integers. -/
  | div
  /-- Remainder of integers. -/
  | mod
deriving DecidableEq

/-- The operator as Pascal writes it. -/
def MulOp.text : MulOp → String
  | star => "*"
  | slash => "/"
  | div => "div"
  | mod => "mod"

/-- A connective between conditions. -/
inductive LogicalOp where
  | and
  | or
deriving DecidableEq

/-- The connective as Pascal writes it. -/
def LogicalOp.text : LogicalOp → String
  | and => "and"
  | or => "or"

end PascalAsm
