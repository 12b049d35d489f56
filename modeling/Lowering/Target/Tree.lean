/-
  Target.Tree — the lowered program.

  Every type reference is explicit, every wrapper is written out and every match has become conditionals.
  Formatting is left to a generator; `Target.Render` gives a readable text.
-/

import Lowering.Literal
import Lowering.Ty.Basic

namespace Lowering.Target

/-- A parameter, a receiver or a struct field. A receiver without a name is anonymous. -/
structure Field where
  name : String
  ty : Ty

structure TypeParam where
  name : String
  constraint : Ty

mutual

inductive Expr where
  | ident (name : String)
  | lit (value : Literal)
  | nil
  /-- A type in the place of an expression, such as the callee of a conversion. -/
  | type (ty : Ty)
  | selector (x : Expr) (sel : String)
  | call (callee : Expr) (typeArgs : List Ty) (args : List Expr)
  | index (x index : Expr)
  | binary (op : BinaryOp) (left right : Expr)
  | unary (op : UnaryOp) (x : Expr)
  | funcLit (params : List Field) (results : List Ty) (body : List Stmt)
  /-- `T{k: v, …}` -/
  | composite (ty : Ty) (elements : List Element)
  /-- `x.(T)` -/
  | typeAssert (x : Expr) (ty : Ty)
  | paren (x : Expr)

/-- An element of a composite literal, keyed in a struct. -/
structure Element where
  key : Option String
  value : Expr

inductive Stmt where
  /-- `a, b := x, y` -/
  | define (names : List String) (values : List Expr)
  /-- `var name T = value` -/
  | var (name : String) (ty : Ty) (value : Option Expr)
  /-- `a = b` or `a op= b` -/
  | assign (targets : List Expr) (op : Option BinaryOp) (values : List Expr)
  | expr (e : Expr)
  | ret (values : List Expr)
  /-- An empty `els` is no else branch. -/
  | ifElse (cond : Expr) (thenBody els : List Stmt)
  /-- Loops forever without a condition. -/
  | loop (cond : Option Expr) (body : List Stmt)
  | block (body : List Stmt)

end

structure FuncDecl where
  name : String
  typeParams : List TypeParam
  receiver : Option Field
  params : List Field
  results : List Ty
  body : List Stmt

inductive Decl where
  | func (decl : FuncDecl)
  | struct (name : String) (typeParams : List TypeParam) (fields : List Field)
  | typeAlias (name : String) (typeParams : List TypeParam) (ty : Ty)
  | var (name : String) (ty : Option Ty) (value : Option Expr)
  | const (name : String) (ty : Option Ty) (value : Expr)

structure Import where
  aliasName : Option String
  path : String

structure File where
  package : String
  imports : List Import
  decls : List Decl

/-! ## Expressions -/

namespace Expr

instance : Inhabited Expr := ⟨.nil⟩

def int (n : Int) : Expr := .lit (.int n)

def string (s : String) : Expr := .lit (.string s)

def bool (b : Bool) : Expr := .lit (.bool b)

def nat (n : Nat) : Expr := int n

/-- `package.name`, or the bare name without a package. -/
def qualified (package name : String) : Expr :=
  if package.isEmpty then .ident name else .selector (.ident package) name

def apply (callee : Expr) (args : List Expr) : Expr := .call callee [] args

/-- `receiver.name(args)` -/
def method (receiver : Expr) (name : String) (args : List Expr) : Expr := apply (.selector receiver name) args

def not (x : Expr) : Expr := .unary .not x

/-- `T{}` -/
def zero (ty : Ty) : Expr := .composite ty []

/-- `func() T { body }()` -/
def invoked (results : List Ty) (body : List Stmt) : Expr := apply (.funcLit [] results body) []

/-- The `x` of `x.Get()`. -/
def getReceiver? : Expr → Option Expr
  | .call (.selector x sel) [] [] => if sel == "Get" then some x else none
  | _ => none

/-- Can be evaluated repeatedly without effect. -/
def isPureRead : Expr → Bool
  | .ident _ | .lit _ | .nil | .type _ => true
  | .selector x _ => x.isPureRead
  | .paren x => x.isPureRead
  | .call (.selector x sel) [] [] => sel == "Get" && x.isPureRead
  | _ => false

end Expr

/-! ## Statements -/

namespace Stmt

def define1 (name : String) (value : Expr) : Stmt := .define [name] [value]

def assign1 (target value : Expr) : Stmt := .assign [target] none [value]

def ret1 (value : Expr) : Stmt := .ret [value]

/-- `_ = value` -/
def discard (value : Expr) : Stmt := assign1 (.ident "_") value

/-- `if cond { body }` -/
def guarded (cond : Expr) (body : List Stmt) : Stmt := .ifElse cond body []

mutual

/-- Control never falls off the end of the statement. -/
def isTerminating : Stmt → Bool
  | .ret _ => true
  | .expr (.call (.ident name) _ _) => name == "panic"
  | .ifElse _ thenBody els => !els.isEmpty && terminates thenBody && terminates els
  | .loop none _ => true
  | .block body => terminates body
  | _ => false

def terminates : List Stmt → Bool
  | [] => false
  | [s] => s.isTerminating
  | _ :: rest => terminates rest

end

end Stmt

end Lowering.Target
