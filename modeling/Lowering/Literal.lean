/-
  Literal — literals and operators, the same in the source and the target.
-/

import Lowering.Decimal.Layout
import Lowering.Text.Quoted

namespace Lowering

inductive Literal where
  | int (n : Int)
  | float (x : Float)
  | string (s : String)
  | char (c : Char)
  | bool (b : Bool)

namespace Literal

def render : Literal → String
  | .int n => toString n
  | .float x => Decimal.render x
  | .string s => Text.quotedString s
  | .char c => Text.quotedChar c
  | .bool b => if b then "true" else "false"

def isNumeric : Literal → Bool
  | .int _ | .float _ => true
  | _ => false

end Literal

inductive BinaryOp where
  | add | sub | mul | div | mod
  | eq | ne | lt | gt | le | ge
  | and | or
  | bitAnd | bitOr | bitXor | shl | shr
  deriving DecidableEq

namespace BinaryOp

def render : BinaryOp → String
  | .add => "+" | .sub => "-" | .mul => "*" | .div => "/" | .mod => "%"
  | .eq => "==" | .ne => "!=" | .lt => "<" | .gt => ">" | .le => "<=" | .ge => ">="
  | .and => "&&" | .or => "||"
  | .bitAnd => "&" | .bitOr => "|" | .bitXor => "^" | .shl => "<<" | .shr => ">>"

def isComparison : BinaryOp → Bool
  | .eq | .ne | .lt | .gt | .le | .ge => true
  | _ => false

def isLogical : BinaryOp → Bool
  | .and | .or => true
  | _ => false

end BinaryOp

inductive UnaryOp where
  | neg
  | not
  | bitNot
  deriving DecidableEq

def UnaryOp.render : UnaryOp → String
  | .neg => "-"
  | .not => "!"
  | .bitNot => "^"

end Lowering
