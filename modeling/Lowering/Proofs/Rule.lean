/-
  Rule — what lowering hands on.

  A rule says which types, names and targets of assignments may occur while a program is lowered and what may be
  emitted. Of the source it speaks through the items written there (`Permits`).
-/

import Lowering.Proofs.Nodes
import Lowering.Proofs.Origins
import Lowering.Proofs.Spared
import Lowering.Proofs.Written

namespace Lowering

open Target (Node)
open Source (Item)

/-- What may occur while a program is lowered, and what may be emitted: where nothing is said, everything. -/
structure Rule where
  /-- Types of expressions, of bindings and of what is declared. -/
  ty : Ty → Prop := fun _ => True
  param : String → Prop := fun _ => True
  name : String → Prop := fun _ => True
  /-- Names that functions are looked up by. -/
  mention : String → Prop := fun _ => True
  stem : String → Prop := fun _ => True
  place : Located Source.Expr → Prop := fun _ => True
  /-- Members that are selected. -/
  selects : Located Source.Expr → String → Prop := fun _ _ => True
  origin : Source.Origin → Prop := fun _ => True
  /-- Names that are written in the target. -/
  ident : String → Prop := fun _ => True
  /-- Types that are written in the target. -/
  emitted : Ty → Prop := fun _ => True
  literal : Ty → Prop := fun _ => True
  node : Node → Prop := fun _ => True

namespace Rule

variable (R : Rule)

/-! ## Items -/

def Allows : Item → Prop
  | .ty t => R.ty t
  | .param x => R.param x
  | .binder x => R.name x
  | .mention x => R.mention x
  | .place target => R.place target
  | .member target name => R.selects target name
  | .type _ | .function _ | .typeAlias _ => True

def Permits (items : List Item) : Prop := ∀ i ∈ items, R.Allows i

variable {R}

theorem permits_append {a b : List Item} : R.Permits (a ++ b) ↔ R.Permits a ∧ R.Permits b := by
  simp only [Permits, List.forall_mem_append]

theorem permits_cons {i : Item} {items : List Item} : R.Permits (i :: items) ↔ R.Allows i ∧ R.Permits items := by
  simp only [Permits, List.forall_mem_cons]

theorem permits_tys {ts : List Ty} : R.Permits (ts.map .ty) ↔ ∀ t ∈ ts, R.ty t := by
  simp only [Permits, List.forall_mem_map, Allows]

theorem permits_ty? {ty : Option Ty} : R.Permits (ty.toList.map .ty) ↔ ∀ t ∈ ty, R.ty t := by
  simp only [permits_tys, Option.mem_toList, Option.mem_def]

theorem permits_flatMap {α : Type} {l : List α} {f : α → List Item} :
    R.Permits (l.flatMap f) ↔ ∀ a ∈ l, R.Permits (f a) := by
  constructor
  · intro h a ha i hi
    exact h i (List.mem_flatMap.mpr ⟨a, ha, hi⟩)
  · intro h i hi
    obtain ⟨a, ha, hi⟩ := List.mem_flatMap.mp hi
    exact h a ha i hi

theorem permits_clause {c : Source.Clause} (h : R.Permits c.items) :
    R.Permits c.pattern.val.items ∧ R.Permits c.body.val.items := by
  obtain ⟨pattern, guard, body⟩ := c
  cases guard with
  | none => exact permits_append.mp h
  | some guard => exact (permits_append.mp h).imp_left fun h => (permits_append.mp h).1

theorem permits_lambdaParams {params : List Source.LambdaParam} : R.Permits (params.flatMap Source.LambdaParam.items) ↔
      ∀ p ∈ params, R.name p.name ∧ ∀ t ∈ p.ty, R.ty t := by
  simp only [permits_flatMap, Source.LambdaParam.items, permits_cons, permits_ty?, Allows]

/-! ## States -/

variable (R)

def Result (t : Ty) : Prop := t = .void ∨ R.ty t

def Known (t : Ty) : Prop := t = .nil ∨ R.Result t

def Headed (t : Ty) : Prop := R.ty t ∧ R.literal t

/-- A binding may hold its type in the wrapper, unless it is a variable. -/
structure Binding (x : String) (b : Lowering.Binding) : Prop where
  name : R.name x
  ty : R.Result b.ty.unwrap
  variable_ty : b.mutability = .var → R.ty b.ty

def Scope (scope : Lowering.Scope) : Prop := ∀ x b, scope.find? x = some b → R.Binding x b

structure State (s : LowerState) : Prop where
  scope : R.Scope s.scope
  functions : ∀ f ∈ s.functions, R.Result f.result
  stem : R.stem s.names.stem

/-! ## Entries -/

/-- The type parameters, parameters and result of something that is called. -/
structure Signature (typeParams : List String) (params : List Ty) (result : Ty) : Prop where
  typeParams : ∀ p ∈ typeParams, R.param p
  params : ∀ t ∈ params, R.ty t
  result : R.Result result

structure Entry (e : TypeEntry) : Prop where
  typeParams : ∀ p ∈ e.typeParams, R.param p
  fieldTypes : ∀ t ∈ e.fieldTypes, R.ty t
  methods : ∀ name m, e.method? name = some m → R.Signature m.typeParams m.params m.result

end Rule

/-- Lowering may write a value or a pattern of this type down: a struct or a companion, or a type
    with an `Unapply` or with the methods of a sequence. -/
def TypeEntry.isBuilt (e : TypeEntry) : Bool :=
  e.kind == .struct || e.kind == .companion || (e.method? "Unapply").isSome || Match.isSequence e

def Rule.Substitutes (R : Rule) (s : Substitution) : Prop := ∀ x t, s.find? x = some t → R.param x ∧ R.ty t

/-- Whatever is made of allowed types is allowed. -/
structure Rule.Formed (R : Rule) (env : Env) : Prop where
  builtin : ∀ name ∈ Ty.builtinNames, R.ty (.basic name)
  any : R.ty .any
  args : ∀ {t : Ty}, R.ty t → ∀ a ∈ t.args, R.ty a
  array : ∀ {elem : Ty}, R.ty (.array elem) → R.ty elem
  pointer : ∀ {elem : Ty}, R.ty (.pointer elem) → R.ty elem
  map : ∀ {key elem : Ty}, R.ty (.map key elem) → R.ty key ∧ R.ty elem
  func : ∀ {params results : List Ty}, R.ty (.func params results) ↔ (∀ t ∈ params, R.ty t) ∧ ∀ t ∈ results, R.ty t
  tuple : ∀ {elems : List Ty}, (∀ t ∈ elems, R.ty t) → R.ty (env.tupleType elems)
  built : ∀ {name : String} {e : TypeEntry} {args : List Ty}, env.type? name = some e → e.isBuilt = true →
    (∀ a ∈ args, R.ty a) → R.ty ((env.typeRef e).apply args)
  subst : ∀ {s : Substitution} {t : Ty}, R.Substitutes s → R.ty t → R.ty (t.subst s)
  entry : ∀ {name : String} {e : TypeEntry}, env.type? name = some e → R.Entry e
  function : ∀ {name : String} {f : FunctionEntry}, R.mention name → env.function? name = some f →
    R.Signature f.typeParams f.params f.result
  expansion : ∀ {name : String} {a : AliasInfo}, env.index.aliases.find? name = some a →
    (∀ p ∈ a.typeParams, R.param p) ∧ R.ty a.target
  headed : ∀ (package name : String) (args : List Ty), R.literal ((Ty.named package name).apply args) := by
    intros
    trivial

/-- So are the types that inference has for what it does not know and for what has no value. -/
structure Rule.Closed (R : Rule) (env : Env) : Prop extends R.Formed env where
  nil : R.ty .nil
  void : R.ty .void

namespace Rule

variable {R : Rule}

theorem entry_of_all (hty : ∀ t, R.ty t) (hparam : ∀ x, R.param x) {e : TypeEntry} : R.Entry e :=
  ⟨fun _ _ => hparam _, fun _ _ => hty _, fun _ _ _ => ⟨fun _ _ => hparam _, fun _ _ => hty _, .inr (hty _)⟩⟩

theorem closed_of_all {env : Env} (hty : ∀ t, R.ty t)
    (hheaded : ∀ package name args, R.literal ((Ty.named package name).apply args)) (hparam : ∀ x, R.param x) :
    R.Closed env where
  builtin _ _ := hty _
  any := hty _
  nil := hty _
  void := hty _
  args _ _ _ := hty _
  array _ := hty _
  pointer _ := hty _
  map _ := ⟨hty _, hty _⟩
  func := ⟨fun _ => ⟨fun _ _ => hty _, fun _ _ => hty _⟩, fun _ => hty _⟩
  tuple _ := hty _
  built _ _ _ := hty _
  subst _ _ := hty _
  entry {_ e} _ := entry_of_all hty hparam
  function _ _ := ⟨fun _ _ => hparam _, fun _ _ => hty _, .inr (hty _)⟩
  expansion _ := ⟨fun _ _ => hparam _, hty _⟩
  headed := hheaded

theorem Formed.headedBuilt {env : Env} (h : R.Formed env) {name : String} {e : TypeEntry} {args : List Ty}
    (he : env.type? name = some e) (hbuilt : e.isBuilt = true) (hargs : ∀ a ∈ args, R.ty a) :
    R.Headed ((env.typeRef e).apply args) :=
  ⟨h.built he hbuilt hargs, h.headed _ _ _⟩

/-! ## Results -/

variable {t : Ty} {env : Env} {scope : Lowering.Scope}

theorem Result.of_ty (h : R.ty t) : R.Result t := .inr h

theorem Result.ty (h : R.Result t) (hvoid : t.isVoid = false) : R.ty t := by
  rcases h with rfl | h
  · cases hvoid
  · exact h

theorem Result.results (h : R.Result t) : ∀ r ∈ t.results, R.ty r := by
  unfold Ty.results
  split
  · simp
  · rename_i hvoid
    simpa using h.ty (by simpa using hvoid)

namespace Known

variable {env : Env} {t : Ty}

theorem of_ty (h : R.ty t) : R.Known t := .inr (.inr h)

theorem ty (h : R.Known t) (hnil : t.isNil = false) (hvoid : t.isVoid = false) : R.ty t := by
  rcases h with rfl | h
  · cases hnil
  · exact h.ty hvoid

theorem of_isFunc (h : R.Known t) (hfunc : t.isFunc = true) : R.ty t := by
  rcases h with rfl | rfl | h
  · cases hfunc
  · cases hfunc
  · exact h

theorem of_entry (h : R.Known t) {e : TypeEntry} (he : env.entry? t = some e) : R.ty t := by
  rcases h with rfl | rfl | h
  · cases he
  · cases he
  · exact h

variable {name : String}

theorem of_method (h : R.Known t) {found : TypeEntry × Method} (hm : env.method? t name = some found) : R.ty t := by
  obtain ⟨e, he, -⟩ := Option.bind_eq_some_iff.mp hm
  exact h.of_entry he

theorem of_field (h : R.Known t) {info : FieldInfo} (hf : env.field? t name = some info) : R.ty t := by
  obtain ⟨e, he, -⟩ := Option.bind_eq_some_iff.mp hf
  exact h.of_entry he

end Known

theorem Closed.ty_of_known (h : R.Closed env) (ht : R.Known t) : R.ty t := by
  rcases ht with rfl | rfl | ht
  · exact h.nil
  · exact h.void
  · exact ht

theorem Closed.ty_of_result (h : R.Closed env) (ht : R.Result t) : R.ty t := by
  rcases ht with rfl | ht
  · exact h.void
  · exact ht

/-! ## Scopes -/

theorem Scope.new : R.Scope .new := by
  intro x b h
  cases h

theorem Scope.enter (h : R.Scope scope) : R.Scope scope.enter := by
  intro x b hb
  exact h x b hb

theorem Scope.bind (h : R.Scope scope) {x : String} {mutability : Mutability} {ty : Ty}
    (hb : R.Binding x ⟨mutability, ty⟩) : R.Scope (scope.bind x mutability ty) := by
  intro y b hy
  rw [Scope.find?_bind] at hy
  split at hy
  · cases hy
    rename_i hyx
    rw [hyx]
    exact hb
  · exact h y b hy

theorem State.framed {s s' : LowerState} (h : R.State s) (hs : Framed s s') : R.State s' where
  scope := by
    rw [hs.scope]
    exact h.scope
  functions := by
    rw [hs.functions]
    exact h.functions
  stem := by
    rw [hs.names.stem]
    exact h.stem

end Rule

/-! ## Plain places -/

def Rule.Writes (R : Rule) (qualifier name : String) : Prop := R.ident (if qualifier.isEmpty then name else qualifier)

def Rule.Stmts (R : Rule) (stmts : List Target.Stmt) : Prop := ∀ s ∈ stmts, s.Every R.node

/-- Only functions and assignments are subject to more than the types and the name written there. -/
structure Rule.Plain (R : Rule) : Prop where
  emitted : ∀ {t : Ty}, R.ty t → R.emitted t
  plain : ∀ n : Node, n.isPlain = true → (∀ t ∈ n.types, R.emitted t) → (∀ x ∈ n.ident?, R.ident x) →
    (∀ t ∈ n.literal?, R.literal t) → R.node n
  identAt : ∀ {x : String}, R.node (.expr (.ident x)) → R.ident x := by
    intros
    trivial

namespace Rule.Plain

open Target (Expr Stmt Element)

variable {R : Rule} (h : R.Plain)
include h

variable {name : String} {ty : Ty} {x callee value cond : Expr} {args : List Expr} {body : List Stmt}

theorem written (hname : R.ident name) : (Expr.ident name).Every R.node := by
  intro n hn
  cases List.mem_singleton.mp hn
  exact h.plain _ rfl (by simp) (by simpa using hname) (by simp)

theorem lit {value : Literal} : (Expr.lit value).Every R.node := by
  intro n hn
  cases List.mem_singleton.mp hn
  exact h.plain _ rfl (by simp) nofun (by simp)

theorem nat (n : Nat) : (Expr.nat n).Every R.node := h.lit

theorem nil : Expr.nil.Every R.node := by
  intro n hn
  cases List.mem_singleton.mp hn
  exact h.plain _ rfl (by simp) nofun (by simp)

theorem type (hty : R.ty ty) : (Expr.type ty).Every R.node := by
  intro n hn
  cases List.mem_singleton.mp hn
  exact h.plain _ rfl (by simpa using h.emitted hty) nofun (by simp)

theorem selector {sel : String} (hx : x.Every R.node) : (Expr.selector x sel).Every R.node := by
  refine Expr.every_selector.mpr ⟨h.plain _ rfl (by simp) ?_ (by simp), hx⟩
  cases x with
  | ident name => simpa using h.identAt (hx _ (.head _))
  | _ => exact nofun

theorem call {typeArgs : List Ty} (hc : callee.Every R.node) (ht : ∀ t ∈ typeArgs, R.ty t)
    (ha : ∀ a ∈ args, a.Every R.node) : (Expr.call callee typeArgs args).Every R.node :=
  Expr.every_call.mpr ⟨h.plain _ rfl (fun t hmem => h.emitted (ht t hmem)) nofun (by simp), hc, ha⟩

theorem apply (hc : callee.Every R.node) (ha : ∀ a ∈ args, a.Every R.node) : (Expr.apply callee args).Every R.node :=
  h.call hc (by simp) ha

theorem method {receiver : Expr} (hr : receiver.Every R.node) (ha : ∀ a ∈ args, a.Every R.node) :
    (Expr.method receiver name args).Every R.node :=
  h.apply (h.selector hr) ha

theorem qualified {package : String} (hwritten : R.Writes package name) :
    (Expr.qualified package name).Every R.node := by
  unfold Expr.qualified
  unfold Rule.Writes at hwritten
  split
  · rename_i hempty
    exact h.written (by rwa [if_pos hempty] at hwritten)
  · rename_i hempty
    exact h.selector (h.written (by rwa [if_neg hempty] at hwritten))

theorem index {i : Expr} (hx : x.Every R.node) (hi : i.Every R.node) : (Expr.index x i).Every R.node :=
  Expr.every_index.mpr ⟨h.plain _ rfl (by simp) nofun (by simp), hx, hi⟩

theorem binary {op : BinaryOp} {left right : Expr} (hl : left.Every R.node) (hr : right.Every R.node) :
    (Expr.binary op left right).Every R.node :=
  Expr.every_binary.mpr ⟨h.plain _ rfl (by simp) nofun (by simp), hl, hr⟩

theorem unary {op : UnaryOp} (hx : x.Every R.node) : (Expr.unary op x).Every R.node :=
  Expr.every_unary.mpr ⟨h.plain _ rfl (by simp) nofun (by simp), hx⟩

theorem composite {elements : List Element} (hty : R.Headed ty) (he : ∀ el ∈ elements, el.value.Every R.node) :
    (Expr.composite ty elements).Every R.node :=
  Expr.every_composite.mpr ⟨h.plain _ rfl (by simpa using h.emitted hty.1) nofun (by simpa using hty.2), he⟩

theorem zero (hty : R.Headed ty) : (Expr.zero ty).Every R.node := h.composite hty (by simp)

theorem typeAssert (hx : x.Every R.node) (hty : R.ty ty) : (Expr.typeAssert x ty).Every R.node :=
  Expr.every_typeAssert.mpr ⟨h.plain _ rfl (by simpa using h.emitted hty) nofun (by simp), hx⟩

theorem define {names : List String} (hv : value.Every R.node) : (Stmt.define names [value]).Every R.node :=
  Stmt.every_define.mpr ⟨h.plain _ rfl (by simp) nofun (by simp), by simpa using hv⟩

theorem var (hty : R.ty ty) (hv : value.Every R.node) : (Stmt.var name ty (some value)).Every R.node :=
  Stmt.every_var.mpr ⟨h.plain _ rfl (by simpa using h.emitted hty) nofun (by simp), hv⟩

theorem expr {e : Expr} (he : e.Every R.node) : (Stmt.expr e).Every R.node :=
  Stmt.every_expr.mpr ⟨h.plain _ rfl (by simp) nofun (by simp), he⟩

theorem ret {values : List Expr} (hv : ∀ v ∈ values, v.Every R.node) : (Stmt.ret values).Every R.node :=
  Stmt.every_ret.mpr ⟨h.plain _ rfl (by simp) nofun (by simp), hv⟩

theorem ifElse {thenBody els : List Stmt} (hc : cond.Every R.node) (ht : R.Stmts thenBody) (he : R.Stmts els) :
    (Stmt.ifElse cond thenBody els).Every R.node :=
  Stmt.every_ifElse.mpr ⟨h.plain _ rfl (by simp) nofun (by simp), hc, ht, he⟩

theorem loop (hc : cond.Every R.node) (hb : R.Stmts body) : (Stmt.loop (some cond) body).Every R.node :=
  Stmt.every_loop.mpr ⟨h.plain _ rfl (by simp) nofun (by simp), hc, hb⟩

theorem block (hb : R.Stmts body) : (Stmt.block body).Every R.node :=
  Stmt.every_block.mpr ⟨h.plain _ rfl (by simp) nofun (by simp), hb⟩

end Rule.Plain

/-! ## Names -/

def runtimeFunctions : List String := ["NewImmutable", "Copy", "UnapplyCheck", "UnapplyFull"]

/-- The names that lowering writes may be written. -/
structure Rule.Naming (R : Rule) (env : Env) : Prop extends R.Plain where
  boundName : ∀ {x : String}, R.name x → R.ident x := by
    intros
    trivial
  madeName : ∀ {stem : String}, R.stem stem → ∀ n : Nat, R.ident (stem ++ toString n) := by
    intros
    trivial
  flagName : ∀ n : Nat, R.ident ("_matched" ++ toString n) := by
    intros
    trivial
  builtinName : ∀ {x : String}, Lower.isBuiltin x = true ∨ x ∈ ["_", "any", "s"] → R.ident x := by
    intros
    trivial
  packageName : ∀ {q : String}, env.isPackage q = true → R.ident q := by
    intros
    trivial
  runtimeName : ∀ {name : String}, name ∈ runtimeFunctions → R.Writes env.runtime name := by
    intros
    trivial
  functionName : ∀ {name : String} {f : FunctionEntry}, env.function? name = some f →
      R.Writes (env.qualifier f.package) f.name := by
    intros
    trivial
  extractedName : ∀ {ty : Ty} {name : String} {owner : TypeEntry} {m : Method}, env.method? ty name = some (owner, m) →
      (owner.method? name).any (MethodForm.mustExtract owner) = true →
      R.Writes (env.qualifier owner.package) (methodFunction owner.name name) := by
    intros
    trivial

end Lowering
