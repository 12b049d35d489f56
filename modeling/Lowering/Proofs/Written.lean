/-
  Written — what a program writes down.

  Everything a program says about names and types is an item.
-/

import Lowering.Env.Index
import Lowering.Proofs.Binders

namespace Lowering.Source

/-- Something that a program writes down. -/
inductive Item where
  | ty (t : Ty)
  /-- A binding: of the package, a local, a parameter, a receiver or a pattern variable. -/
  | binder (name : String)
  /-- A name a function may be looked up by, bare or behind a package. -/
  | mention (name : String)
  | place (target : Located Expr)
  /-- Something that is selected from a value or from a package. -/
  | member (target : Located Expr) (name : String)
  | param (name : String)
  /-- A struct, a sealed type or a variant. -/
  | type (name : String)
  | function (name : String)
  | typeAlias (name : String)

def Item.introduces (x : String) : Item → Bool
  | .binder name | .type name | .function name | .typeAlias name => name == x
  | .ty _ | .mention _ | .place _ | .member _ _ | .param _ => false

def memberItems (target : Located Expr) (member : String) : List Item :=
  .member target member :: match target.val with
    | .ident package => [.mention (package ++ "." ++ member)]
    | _ => []

mutual

def Pattern.items : Pattern → List Item
  | .wildcard => []
  | .ident name => [.binder name]
  | .literal _ => []
  | .typed name ty => [.binder name, .ty ty]
  | .extractor _ typeArgs args => typeArgs.map .ty ++ Pattern.itemsOf args
  | .tuple elems => Pattern.itemsOf elems
  | .rest name => name.toList.map .binder

def Pattern.itemsOf : List (Located Pattern) → List Item
  | [] => []
  | ⟨p, _⟩ :: ps => p.items ++ Pattern.itemsOf ps

end

def LambdaParam.items (p : LambdaParam) : List Item := .binder p.name :: p.ty.toList.map .ty

mutual

def Expr.items : Expr → List Item
  | .lit _ => []
  | .nil => []
  | .ident name => [.mention name]
  | .call ⟨callee, _⟩ typeArgs args => typeArgs.map .ty ++ callee.items ++ Arg.itemsOf args
  | .select ⟨target, span⟩ member => memberItems ⟨target, span⟩ member.val ++ target.items
  | .index ⟨target, _⟩ ⟨index, _⟩ => target.items ++ index.items
  | .binary ⟨left, _⟩ _ ⟨right, _⟩ => left.items ++ right.items
  | .unary _ ⟨operand, _⟩ => operand.items
  | .lambda params ⟨body, _⟩ => params.flatMap LambdaParam.items ++ body.items
  | .ifElse ⟨cond, _⟩ ⟨thenBranch, _⟩ none => cond.items ++ thenBranch.items
  | .ifElse ⟨cond, _⟩ ⟨thenBranch, _⟩ (some ⟨elseBranch, _⟩) =>
    cond.items ++ thenBranch.items ++ elseBranch.items
  | .matchOn ⟨subject, _⟩ clauses => subject.items ++ Clause.itemsOf clauses
  | .tuple elems => Expr.itemsOf elems
  | .caseFunction clauses => Clause.itemsOf clauses
  | .block stmts => Stmt.itemsOf stmts

def Expr.itemsOf : List (Located Expr) → List Item
  | [] => []
  | ⟨e, _⟩ :: es => e.items ++ Expr.itemsOf es

def Arg.itemsOf : List Arg → List Item
  | [] => []
  | ⟨_, ⟨value, _⟩⟩ :: args => value.items ++ Arg.itemsOf args

def Clause.items : Clause → List Item
  | ⟨⟨pattern, _⟩, none, ⟨body, _⟩⟩ => pattern.items ++ body.items
  | ⟨⟨pattern, _⟩, some ⟨guard, _⟩, ⟨body, _⟩⟩ => pattern.items ++ guard.items ++ body.items

def Clause.itemsOf : List Clause → List Item
  | [] => []
  | c :: cs => c.items ++ Clause.itemsOf cs

def Stmt.items : Stmt → List Item
  | .val ⟨name, _, ty, ⟨value, _⟩⟩ => .binder name.val :: (ty.toList.map .ty ++ value.items)
  | .assign ⟨target, span⟩ _ ⟨value, _⟩ => .place ⟨target, span⟩ :: (target.items ++ value.items)
  | .expr ⟨e, _⟩ => e.items
  | .ret none => []
  | .ret (some ⟨value, _⟩) => value.items
  | .loop ⟨cond, _⟩ body => cond.items ++ Stmt.itemsOf body

def Stmt.itemsOf : List (Located Stmt) → List Item
  | [] => []
  | ⟨s, _⟩ :: ss => s.items ++ Stmt.itemsOf ss

end

/-! ## Declarations -/

def TypeParam.items (p : TypeParam) : List Item := .param p.name :: p.constraint.toList.map .ty

def Receiver.items (r : Receiver) : List Item := .binder r.name :: .ty r.ty :: (receiverParams r.ty).map .param

def Variant.items (v : Variant) : List Item := .type v.name.val :: v.fields.map (.ty ·.ty)

def Decl.items : Decl → List Item
  | .val d => .binder d.name.val :: (d.ty.toList.map .ty ++ d.value.val.items)
  | .func d => .function d.name.val :: (d.typeParams.flatMap TypeParam.items
      ++ d.receiver.toList.flatMap Receiver.items ++ d.params.flatMap (fun p => [.binder p.name.val, .ty p.ty])
      ++ d.result.toList.map .ty ++ d.body.val.items)
  | .struct d => .type d.name.val :: (d.typeParams.flatMap TypeParam.items ++ d.fields.map (.ty ·.ty))
  | .sealedType d => .type d.name.val :: (d.typeParams.flatMap TypeParam.items ++ d.variants.flatMap Variant.items)
  | .typeAlias d => .typeAlias d.name.val :: (d.typeParams.flatMap TypeParam.items ++ [.ty d.ty])

def Program.items (program : Program) : List Item := program.decls.flatMap (·.val.items)

/-! ## Bound names -/

variable {x : String}

mutual

theorem Pattern.binder_of_binds : ∀ p : Pattern, p.binds x = true → .binder x ∈ p.items
  | .wildcard, h => nomatch h
  | .ident name, h => by
    obtain rfl : name = x := by simpa [Pattern.binds] using h
    exact .head _
  | .literal _, h => nomatch h
  | .typed name ty, h => by
    obtain rfl : name = x := by simpa [Pattern.binds] using h
    exact .head _
  | .extractor head typeArgs args, h => by
    simp only [Pattern.binds] at h
    exact List.mem_append_right _ (Pattern.binder_of_anyBinds args h)
  | .tuple elems, h => by
    simp only [Pattern.binds] at h
    exact Pattern.binder_of_anyBinds elems h
  | .rest name, h => by
    obtain rfl : name = some x := by simpa [Pattern.binds] using h
    simp [Pattern.items]

theorem Pattern.binder_of_anyBinds :
    ∀ ps : List (Located Pattern), Pattern.anyBinds x ps = true → .binder x ∈ Pattern.itemsOf ps
  | [], h => nomatch h
  | ⟨p, _⟩ :: ps, h => by
    simp only [Pattern.anyBinds, Bool.or_eq_true] at h
    exact List.mem_append.mpr (h.imp p.binder_of_binds (Pattern.binder_of_anyBinds ps))

end

mutual

theorem Expr.binder_of_binds : ∀ e : Expr, e.binds x = true → .binder x ∈ e.items
  | .lit _, h | .nil, h | .ident _, h => nomatch h
  | .call ⟨callee, _⟩ typeArgs args, h => by
    simp only [Expr.binds, Bool.or_eq_true] at h
    simp only [Expr.items, List.mem_append]
    exact h.imp (fun h => .inr (callee.binder_of_binds h)) (Arg.binder_of_anyBinds args)
  | .select ⟨target, _⟩ member, h => by
    simp only [Expr.binds] at h
    exact List.mem_append_right _ (target.binder_of_binds h)
  | .index ⟨left, _⟩ ⟨right, _⟩, h | .binary ⟨left, _⟩ _ ⟨right, _⟩, h | .ifElse ⟨left, _⟩ ⟨right, _⟩ none, h => by
    simp only [Expr.binds, Bool.or_eq_true] at h
    exact List.mem_append.mpr (h.imp left.binder_of_binds right.binder_of_binds)
  | .unary op ⟨operand, _⟩, h => by
    simp only [Expr.binds] at h
    exact operand.binder_of_binds h
  | .lambda params ⟨body, _⟩, h => by
    simp only [Expr.binds, Bool.or_eq_true, List.any_eq_true, beq_iff_eq] at h
    refine List.mem_append.mpr (h.imp (fun ⟨p, hp, hx⟩ => ?_) body.binder_of_binds)
    exact List.mem_flatMap.mpr ⟨p, hp, by simp [LambdaParam.items, hx]⟩
  | .ifElse ⟨cond, _⟩ ⟨thenBranch, _⟩ (some ⟨elseBranch, _⟩), h => by
    simp only [Expr.binds, Bool.or_eq_true] at h
    simp only [Expr.items, List.mem_append]
    exact h.imp (Or.imp cond.binder_of_binds thenBranch.binder_of_binds) elseBranch.binder_of_binds
  | .matchOn ⟨subject, _⟩ clauses, h => by
    simp only [Expr.binds, Bool.or_eq_true] at h
    exact List.mem_append.mpr (h.imp subject.binder_of_binds (Clause.binder_of_anyBinds clauses))
  | .tuple elems, h => by
    simp only [Expr.binds] at h
    exact Expr.binder_of_anyBinds elems h
  | .caseFunction clauses, h => by
    simp only [Expr.binds] at h
    exact Clause.binder_of_anyBinds clauses h
  | .block stmts, h => by
    simp only [Expr.binds] at h
    exact Stmt.binder_of_anyBinds stmts h

theorem Expr.binder_of_anyBinds : ∀ es : List (Located Expr), Expr.anyBinds x es = true → .binder x ∈ Expr.itemsOf es
  | [], h => nomatch h
  | ⟨e, _⟩ :: es, h => by
    simp only [Expr.anyBinds, Bool.or_eq_true] at h
    exact List.mem_append.mpr (h.imp e.binder_of_binds (Expr.binder_of_anyBinds es))

theorem Arg.binder_of_anyBinds : ∀ args : List Arg, Arg.anyBinds x args = true → .binder x ∈ Arg.itemsOf args
  | [], h => nomatch h
  | ⟨_, ⟨value, _⟩⟩ :: args, h => by
    simp only [Arg.anyBinds, Bool.or_eq_true] at h
    exact List.mem_append.mpr (h.imp value.binder_of_binds (Arg.binder_of_anyBinds args))

theorem Clause.binder_of_binds : ∀ c : Clause, c.binds x = true → .binder x ∈ c.items
  | ⟨⟨pattern, _⟩, none, ⟨body, _⟩⟩, h => by
    simp only [Clause.binds, Bool.or_eq_true] at h
    exact List.mem_append.mpr (h.imp pattern.binder_of_binds body.binder_of_binds)
  | ⟨⟨pattern, _⟩, some ⟨guard, _⟩, ⟨body, _⟩⟩, h => by
    simp only [Clause.binds, Bool.or_eq_true] at h
    simp only [Clause.items, List.mem_append]
    exact h.imp (Or.imp pattern.binder_of_binds guard.binder_of_binds) body.binder_of_binds

theorem Clause.binder_of_anyBinds : ∀ cs : List Clause, Clause.anyBinds x cs = true → .binder x ∈ Clause.itemsOf cs
  | [], h => nomatch h
  | c :: cs, h => by
    simp only [Clause.anyBinds, Bool.or_eq_true] at h
    exact List.mem_append.mpr (h.imp c.binder_of_binds (Clause.binder_of_anyBinds cs))

theorem Stmt.binder_of_binds : ∀ s : Stmt, s.binds x = true → .binder x ∈ s.items
  | .val ⟨name, mutable, ty, ⟨value, _⟩⟩, h => by
    simp only [Stmt.binds, Bool.or_eq_true, beq_iff_eq] at h
    rcases h with rfl | h
    · exact .head _
    · exact .tail _ (List.mem_append_right _ (value.binder_of_binds h))
  | .assign ⟨target, _⟩ op ⟨value, _⟩, h => by
    simp only [Stmt.binds, Bool.or_eq_true] at h
    exact .tail _ (List.mem_append.mpr (h.imp target.binder_of_binds value.binder_of_binds))
  | .expr ⟨e, _⟩, h => by
    simp only [Stmt.binds] at h
    exact e.binder_of_binds h
  | .ret none, h => nomatch h
  | .ret (some ⟨value, _⟩), h => by
    simp only [Stmt.binds] at h
    exact value.binder_of_binds h
  | .loop ⟨cond, _⟩ body, h => by
    simp only [Stmt.binds, Bool.or_eq_true] at h
    exact List.mem_append.mpr (h.imp cond.binder_of_binds (Stmt.binder_of_anyBinds body))

theorem Stmt.binder_of_anyBinds : ∀ ss : List (Located Stmt), Stmt.anyBinds x ss = true → .binder x ∈ Stmt.itemsOf ss
  | [], h => nomatch h
  | ⟨s, _⟩ :: ss, h => by
    simp only [Stmt.anyBinds, Bool.or_eq_true] at h
    exact List.mem_append.mpr (h.imp s.binder_of_binds (Stmt.binder_of_anyBinds ss))

end

end Lowering.Source
