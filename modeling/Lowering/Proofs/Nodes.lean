/-
  Nodes — every place of a lowered tree.

  `nodes` lists all expressions, statements and declarations, at any depth. `Every P` says that a property holds
  of a tree and of everything inside it. `Node.scopes` lists the names that each scope of a function declares.
-/

import Lowering.Target.Tree

namespace Lowering.Target

/-- A place of a lowered tree. -/
inductive Node where
  | expr (e : Expr)
  | stmt (s : Stmt)
  | decl (d : Decl)

mutual

@[simp] def Expr.nodes : Expr → List Node
  | .ident name => [.expr (.ident name)]
  | .lit value => [.expr (.lit value)]
  | .nil => [.expr .nil]
  | .type ty => [.expr (.type ty)]
  | .selector x sel => .expr (.selector x sel) :: x.nodes
  | .call callee typeArgs args => .expr (.call callee typeArgs args) :: (callee.nodes ++ Expr.nodesOf args)
  | .index x index => .expr (.index x index) :: (x.nodes ++ index.nodes)
  | .binary op left right => .expr (.binary op left right) :: (left.nodes ++ right.nodes)
  | .unary op x => .expr (.unary op x) :: x.nodes
  | .funcLit params results body => .expr (.funcLit params results body) :: Stmt.nodesOf body
  | .composite ty elements => .expr (.composite ty elements) :: Element.nodesOf elements
  | .typeAssert x ty => .expr (.typeAssert x ty) :: x.nodes
  | .paren x => .expr (.paren x) :: x.nodes

@[simp] def Expr.nodesOf : List Expr → List Node
  | [] => []
  | e :: es => e.nodes ++ Expr.nodesOf es

@[simp] def Element.nodesOf : List Element → List Node
  | [] => []
  | ⟨_, value⟩ :: elements => value.nodes ++ Element.nodesOf elements

@[simp] def Stmt.nodes : Stmt → List Node
  | .define names values => .stmt (.define names values) :: Expr.nodesOf values
  | .var name ty none => [.stmt (.var name ty none)]
  | .var name ty (some value) => .stmt (.var name ty (some value)) :: value.nodes
  | .assign targets op values =>
    .stmt (.assign targets op values) :: (Expr.nodesOf targets ++ Expr.nodesOf values)
  | .expr e => .stmt (.expr e) :: e.nodes
  | .ret values => .stmt (.ret values) :: Expr.nodesOf values
  | .ifElse cond thenBody els =>
    .stmt (.ifElse cond thenBody els) :: (cond.nodes ++ Stmt.nodesOf thenBody ++ Stmt.nodesOf els)
  | .loop none body => .stmt (.loop none body) :: Stmt.nodesOf body
  | .loop (some cond) body => .stmt (.loop (some cond) body) :: (cond.nodes ++ Stmt.nodesOf body)
  | .block body => .stmt (.block body) :: Stmt.nodesOf body

@[simp] def Stmt.nodesOf : List Stmt → List Node
  | [] => []
  | s :: ss => s.nodes ++ Stmt.nodesOf ss

end

def Decl.nodes (d : Decl) : List Node :=
  .decl d :: match d with
    | .func f => Stmt.nodesOf f.body
    | .var _ _ (some value) => value.nodes
    | .const _ _ value => value.nodes
    | .struct _ _ _ | .typeAlias _ _ _ | .var _ _ none => []

def File.nodes (file : File) : List Node := file.decls.flatMap Decl.nodes

namespace Node

@[simp] def types : Node → List Ty
  | .expr (.type ty) => [ty]
  | .expr (.call _ typeArgs _) => typeArgs
  | .expr (.funcLit params results _) => params.map (·.ty) ++ results
  | .expr (.composite ty _) => [ty]
  | .expr (.typeAssert _ ty) => [ty]
  | .expr _ => []
  | .stmt (.var _ ty _) => [ty]
  | .stmt _ => []
  | .decl (.func f) =>
    f.typeParams.map (·.constraint) ++ f.receiver.toList.map (·.ty) ++ f.params.map (·.ty) ++ f.results
  | .decl (.struct _ typeParams fields) => typeParams.map (·.constraint) ++ fields.map (·.ty)
  | .decl (.typeAlias _ typeParams ty) => typeParams.map (·.constraint) ++ [ty]
  | .decl (.var _ ty _) => ty.toList
  | .decl (.const _ ty _) => ty.toList

def isPlain : Node → Bool
  | .expr (.funcLit _ _ _) | .stmt (.assign _ _ _) | .decl (.func _) => false
  | _ => true

@[simp] def ident? : Node → Option String
  | .expr (.ident name) | .expr (.selector (.ident name) _) => some name
  | _ => none

@[simp] def literal? : Node → Option Ty
  | .expr (.composite ty _) => some ty
  | _ => none

def function? : Node → Option (List Ty × List Stmt)
  | .expr (.funcLit _ results body) => some (results, body)
  | .decl (.func f) => some (f.results, f.body)
  | _ => none

def isLiteral : Node → Bool
  | .expr (.funcLit _ _ _) => true
  | _ => false

theorem function?_of_isPlain {n : Node} (h : n.isPlain = true) : n.function? = none := by
  rcases n with e | s | d
  · cases e <;> first | rfl | cases h
  · rfl
  · cases d <;> first | rfl | cases h

end Node

/-! ## Everywhere inside -/

def Expr.Every (P : Node → Prop) (e : Expr) : Prop := ∀ n ∈ e.nodes, P n

def Stmt.Every (P : Node → Prop) (s : Stmt) : Prop := ∀ n ∈ s.nodes, P n

def Decl.Every (P : Node → Prop) (d : Decl) : Prop := ∀ n ∈ d.nodes, P n

variable {P : Node → Prop}

namespace Expr

theorem forall_mem_nodesOf : (∀ n ∈ nodesOf es, P n) ↔ ∀ e ∈ es, e.Every P := by
  induction es with
  | nil => simp [nodesOf]
  | cons e es ih => simp only [nodesOf, List.forall_mem_append, List.forall_mem_cons, ih, Every]

variable {x : Expr} {ty : Ty} {elements : List Element}

theorem every_selector : (selector x sel).Every P ↔ P (.expr (.selector x sel)) ∧ x.Every P := by
  simp only [Every, nodes, List.forall_mem_cons]

theorem every_call : (call callee typeArgs args).Every P ↔
      P (.expr (.call callee typeArgs args)) ∧ callee.Every P ∧ ∀ a ∈ args, a.Every P := by
  simp only [Every, nodes, List.forall_mem_cons, List.forall_mem_append, forall_mem_nodesOf]

theorem every_index : (index x i).Every P ↔ P (.expr (.index x i)) ∧ x.Every P ∧ i.Every P := by
  simp only [Every, nodes, List.forall_mem_cons, List.forall_mem_append]

theorem every_binary :
    (binary op left right).Every P ↔ P (.expr (.binary op left right)) ∧ left.Every P ∧ right.Every P := by
  simp only [Every, nodes, List.forall_mem_cons, List.forall_mem_append]

theorem every_unary : (unary op x).Every P ↔ P (.expr (.unary op x)) ∧ x.Every P := by
  simp only [Every, nodes, List.forall_mem_cons]

theorem every_typeAssert : (typeAssert x ty).Every P ↔ P (.expr (.typeAssert x ty)) ∧ x.Every P := by
  simp only [Every, nodes, List.forall_mem_cons]

theorem forall_mem_elementNodes : (∀ n ∈ Element.nodesOf elements, P n) ↔ ∀ el ∈ elements, el.value.Every P := by
  induction elements with
  | nil => simp [Element.nodesOf]
  | cons el elements ih =>
    obtain ⟨key, value⟩ := el
    simp only [Element.nodesOf, List.forall_mem_append, List.forall_mem_cons, ih, Every]

theorem every_composite :
    (composite ty elements).Every P ↔ P (.expr (.composite ty elements)) ∧ ∀ el ∈ elements, el.value.Every P := by
  simp only [Every, nodes, List.forall_mem_cons, forall_mem_elementNodes]

end Expr

namespace Stmt

theorem forall_mem_nodesOf : (∀ n ∈ nodesOf ss, P n) ↔ ∀ s ∈ ss, s.Every P := by
  induction ss with
  | nil => simp [nodesOf]
  | cons s ss ih => simp only [nodesOf, List.forall_mem_append, List.forall_mem_cons, ih, Every]

variable {values : List Expr} {cond : Expr} {body : List Stmt}

theorem every_define :
    (define names values).Every P ↔ P (.stmt (.define names values)) ∧ ∀ v ∈ values, v.Every P := by
  simp only [Every, nodes, List.forall_mem_cons, Expr.forall_mem_nodesOf]

theorem every_var :
    (var name ty (some value)).Every P ↔ P (.stmt (.var name ty (some value))) ∧ value.Every P := by
  simp only [Every, nodes, List.forall_mem_cons, Expr.Every]

theorem every_assign :
    (assign targets op values).Every P ↔ P (.stmt (.assign targets op values)) ∧
      (∀ t ∈ targets, t.Every P) ∧ ∀ v ∈ values, v.Every P := by
  simp only [Every, nodes, List.forall_mem_cons, List.forall_mem_append, Expr.forall_mem_nodesOf]

theorem every_expr : (expr e).Every P ↔ P (.stmt (.expr e)) ∧ e.Every P := by
  simp only [Every, nodes, List.forall_mem_cons, Expr.Every]

theorem every_ret : (ret values).Every P ↔ P (.stmt (.ret values)) ∧ ∀ v ∈ values, v.Every P := by
  simp only [Every, nodes, List.forall_mem_cons, Expr.forall_mem_nodesOf]

theorem every_ifElse :
    (ifElse cond thenBody els).Every P ↔ P (.stmt (.ifElse cond thenBody els)) ∧ cond.Every P ∧
      (∀ s ∈ thenBody, s.Every P) ∧ ∀ s ∈ els, s.Every P := by
  simp only [Every, nodes, List.forall_mem_cons, List.forall_mem_append, forall_mem_nodesOf, Expr.Every, and_assoc]

theorem every_loop :
    (loop (some cond) body).Every P ↔ P (.stmt (.loop (some cond) body)) ∧ cond.Every P ∧ ∀ s ∈ body, s.Every P := by
  simp only [Every, nodes, List.forall_mem_cons, List.forall_mem_append, forall_mem_nodesOf, Expr.Every]

theorem every_block : (block body).Every P ↔ P (.stmt (.block body)) ∧ ∀ s ∈ body, s.Every P := by
  simp only [Every, nodes, List.forall_mem_cons, forall_mem_nodesOf]

end Stmt

theorem Expr.every_funcLit :
    (funcLit params results body).Every P ↔
      P (.expr (.funcLit params results body)) ∧ ∀ s ∈ body, s.Every P := by
  simp only [Every, nodes, List.forall_mem_cons, Stmt.forall_mem_nodesOf]

theorem Decl.every_func : (func f).Every P ↔ P (.decl (.func f)) ∧ ∀ s ∈ f.body, s.Every P := by
  simp only [Every, nodes, List.forall_mem_cons, Stmt.forall_mem_nodesOf]

/-! ## Scopes -/

-- The statements of a branch, of a loop or of a block are a scope, and so are those of a function with its receiver
-- and its parameters.

/-- The names that the statement declares in the scope where it stands. -/
def Stmt.declared : Stmt → List String
  | .define names _ => names
  | .var name _ _ => [name]
  | _ => []

def Stmt.declaredOf (stmts : List Stmt) : List String := stmts.flatMap Stmt.declared

mutual

def Stmt.scopes : Stmt → List (List String)
  | .ifElse _ thenBody els =>
    Stmt.declaredOf thenBody :: Stmt.scopesOf thenBody ++ Stmt.declaredOf els :: Stmt.scopesOf els
  | .loop _ body => Stmt.declaredOf body :: Stmt.scopesOf body
  | .block body => Stmt.declaredOf body :: Stmt.scopesOf body
  | .define _ _ => []
  | .var _ _ _ => []
  | .assign _ _ _ => []
  | .expr _ => []
  | .ret _ => []

def Stmt.scopesOf : List Stmt → List (List String)
  | [] => []
  | s :: ss => s.scopes ++ Stmt.scopesOf ss

end

mutual

/-- Every `return` of the function that the statement stands in carries so many values. -/
def Stmt.returns (count : Nat) : Stmt → Bool
  | .ret values => values.length == count
  | .ifElse _ thenBody els => Stmt.allReturn count thenBody && Stmt.allReturn count els
  | .loop _ body => Stmt.allReturn count body
  | .block body => Stmt.allReturn count body
  | .define _ _ => true
  | .var _ _ _ => true
  | .assign _ _ _ => true
  | .expr _ => true

def Stmt.allReturn (count : Nat) : List Stmt → Bool
  | [] => true
  | s :: ss => s.returns count && Stmt.allReturn count ss

end

def Node.parameters : Node → List String
  | .expr (.funcLit params _ _) => params.map (·.name)
  | .decl (.func f) => (f.receiver.toList.map (·.name)).filter (· != "") ++ f.params.map (·.name)
  | _ => []

def Node.scopes (n : Node) : List (List String) :=
  match n.function? with
  | some (_, body) => (n.parameters ++ Stmt.declaredOf body) :: Stmt.scopesOf body
  | none => []

theorem Node.scopes_of_function {n : Node} {results : List Ty} {body : List Stmt}
    (h : n.function? = some (results, body)) :
    n.scopes = (n.parameters ++ Stmt.declaredOf body) :: Stmt.scopesOf body := by
  rw [Node.scopes, h]

theorem Stmt.declaredOf_append :
    Stmt.declaredOf (a ++ b) = Stmt.declaredOf a ++ Stmt.declaredOf b := List.flatMap_append

theorem Stmt.scopesOf_append : Stmt.scopesOf (a ++ b) = Stmt.scopesOf a ++ Stmt.scopesOf b := by
  induction a with
  | nil => rfl
  | cons s a ih => simp only [List.cons_append, Stmt.scopesOf, ih, List.append_assoc]

end Lowering.Target
