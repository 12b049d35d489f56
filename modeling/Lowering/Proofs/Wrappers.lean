/-
  Wrappers — types in which no wrapper holds a wrapper.

  A type is accepted when none of its parts wraps a wrapper (`checkWrappers_iff`). This alone is not kept when
  type parameters are replaced: `Immutable[T]` is accepted and `T` may become a wrapper.
-/

import Lowering.Proofs.Indexed
import Lowering.Proofs.Leaves
import Lowering.Proofs.Rule

namespace Lowering

namespace Ty

/-! ## Acceptance -/

theorem isDoubleWrap_eq_false_iff {t : Ty} :
    t.isDoubleWrap = false ↔ ∀ inner, t.wrapped? = some inner → inner.isWrapper = false := by
  cases t with
  | generic base params =>
    rcases params with _ | ⟨inner, _ | ⟨_, _⟩⟩
    · simp [isDoubleWrap, wrapped?, isWrapper]
    · by_cases hbase : base.baseName = wrapperName <;> simp [isDoubleWrap, wrapped?, isWrapper, args, hbase]
    · simp [isDoubleWrap, wrapped?, isWrapper]
  | _ => simp [isDoubleWrap, wrapped?, isWrapper]

def Accepted (t : Ty) : Prop := t.Every fun p => p.isDoubleWrap = false

mutual

theorem checkWrappers_iff : ∀ t : Ty, t.checkWrappers = .ok () ↔ t.Accepted
  | .basic _ | .named _ _ | .any | .nil | .void =>
    iff_of_true (by simp only [checkWrappers]; rfl) ((every_leaf rfl).mpr rfl)
  | .array elem => by
    rw [checkWrappers, Accepted, every_array, checkWrappers_iff elem]
    simp [isDoubleWrap, Accepted]
  | .pointer elem => by
    rw [checkWrappers, Accepted, every_pointer, checkWrappers_iff elem]
    simp [isDoubleWrap, Accepted]
  | .map key elem => by
    rw [checkWrappers, Accepted, every_map, except_bind_ok]
    simp [checkWrappers_iff key, checkWrappers_iff elem, isDoubleWrap, Accepted]
  | .func params results => by
    rw [checkWrappers, Accepted, every_func, except_bind_ok]
    simp [checkWrappersList_iff params, checkWrappersList_iff results, isDoubleWrap, Accepted]
  | .generic base params => by
    rw [checkWrappers, Accepted, every_generic]
    cases hwrap : (generic base params).isDoubleWrap with
    | true => simp [except_bind_ok, throw, throwThe, MonadExceptOf.throw]
    | false => simp [except_bind_ok, checkWrappers_iff base, checkWrappersList_iff params, Accepted]

theorem checkWrappersList_iff : ∀ ts : List Ty, checkWrappersList ts = .ok () ↔ ∀ t ∈ ts, t.Accepted
  | [] => by simp [checkWrappersList, pure, Except.pure]
  | t :: ts => by
    rw [checkWrappersList, except_bind_ok]
    simp [checkWrappers_iff t, checkWrappersList_iff ts]

end

/-! ## Apart from type parameters -/

variable {params : List String}

def isApart (params : List String) : Ty → Bool
  | .generic base [inner] => !base.mentions params && !(base.baseName == wrapperName && inner.isParam params)
  | .generic base _ => !base.mentions params
  | _ => true

def Sound (params : List String) (t : Ty) : Prop :=
  t.Every fun p => p.isDoubleWrap = false ∧ p.isApart params = true

variable {t : Ty} {s : Substitution}

theorem sound_iff : t.Sound params ↔ t.Accepted ∧ t.Every (·.isApart params = true) :=
  ⟨fun h => ⟨fun p hp => (h p hp).1, fun p hp => (h p hp).2⟩, fun h p hp => ⟨h.1 p hp, h.2 p hp⟩⟩

theorem sound_leaf (h : t.isLeaf = true) : t.Sound params :=
  (every_leaf h).mpr (by cases t <;> simp [isLeaf] at h <;> exact ⟨rfl, rfl⟩)

def Replaces (params : List String) (s : Substitution) : Prop :=
  ∀ x t, s.find? x = some t → x ∈ params ∧ t.Sound params

theorem find?_of_not_mem (hs : Replaces params s) {x : String} (hx : x ∉ params) : s.find? x = none := by
  cases hfind : s.find? x with
  | none => rfl
  | some t => exact absurd (hs x t hfind).1 hx

theorem not_mentions_base {base : Ty} {args : List Ty} (h : (generic base args).isApart params = true) :
    base.mentions params = false := by
  unfold isApart at h
  split at h
  · rename_i heq
    cases heq
    simp only [Bool.and_eq_true, Bool.not_eq_true'] at h
    exact h.1
  · rename_i heq
    cases heq
    simpa using h
  · rename_i hne
    exact absurd rfl (hne base args)

theorem shape_subst (hs : Replaces params s) (ht : t.isParam params = false) (hsound : t.Sound params) :
    (t.subst s).isWrapper = t.isWrapper ∧ (t.subst s).isParam params = false := by
  cases t with
  | basic name =>
    have hx : name ∉ params := by simpa [isParam, leafName?] using ht
    rw [show (basic name).subst s = .basic name by simp [subst, find?_of_not_mem hs hx]]
    exact ⟨rfl, ht⟩
  | named package name =>
    by_cases hpackage : package.isEmpty = true
    · have hx : name ∉ params := by simpa [isParam, leafName?, hpackage] using ht
      rw [show (named package name).subst s = .named package name by simp [subst, find?_of_not_mem hs hx]]
      exact ⟨rfl, ht⟩
    · rw [show (named package name).subst s = .named package name by simp only [subst, if_neg hpackage]]
      exact ⟨rfl, ht⟩
  | generic base args =>
    have hbase := subst_of_unmentioned (fun _ => find?_of_not_mem hs) (not_mentions_base (every_generic.mp hsound).1.2)
    refine ⟨?_, rfl⟩
    simp only [subst, isWrapper, hbase, substList_eq, List.length_map]
  | _ => exact ⟨rfl, rfl⟩

theorem sound_subst (hs : Replaces params s) (h : t.Sound params) : (t.subst s).Sound params := by
  refine Every.subst (fun x t hx => (hs x t hx).2) (fun t ht h => ?_) t h
  cases t with
  | generic base args =>
    obtain ⟨⟨hwrap, hapart⟩, -, hargs⟩ := every_generic.mp h
    have hmentions := not_mentions_base hapart
    rw [subst, substList_eq, subst_of_unmentioned (fun _ => find?_of_not_mem hs) hmentions]
    rcases args with _ | ⟨inner, _ | ⟨_, _⟩⟩
    · simp [isDoubleWrap, isApart, hmentions]
    · -- only here a wrapper could come about, and the argument is no parameter
      have hinner := hargs inner (.head _)
      by_cases hname : (base.baseName == wrapperName) = true
      · have hparam : inner.isParam params = false := by simpa [isApart, hmentions, hname] using hapart
        obtain ⟨hshape, hparam'⟩ := shape_subst hs hparam hinner
        have hwrap : inner.isWrapper = false := by simpa [isDoubleWrap, hname] using hwrap
        simp [isDoubleWrap, isApart, hmentions, hname, hshape, hwrap, hparam']
      · simp [isDoubleWrap, isApart, hmentions, hname]
    · simp [isDoubleWrap, isApart, hmentions]
  | array | pointer | map => exact ⟨rfl, rfl⟩
  | func =>
    exact ⟨rfl, rfl⟩
  | _ => cases ht

theorem tupleName_ne (arity : Nat) : tupleName arity ≠ wrapperName := by
  unfold tupleName
  split
  · decide
  · intro h
    have hhead := congrArg (fun s => s.toList.head?) h
    simp [wrapperName, String.toList_append] at hhead

end Ty

/-! ## Written types -/

def accepting : Rule where
  ty := Ty.Accepted

variable {ε α : Type} {f : α → Except ε Unit}

theorem then_ok {x y : Except ε Unit} : (x >>= fun _ => y) = .ok () ↔ x = .ok () ∧ y = .ok () := by
  rw [except_bind_ok]
  exact ⟨fun ⟨_, hx, hy⟩ => ⟨hx, hy⟩, fun ⟨hx, hy⟩ => ⟨_, hx, hy⟩⟩

theorem forM_ok {l : List α} : l.forM f = .ok () ↔ ∀ a ∈ l, f a = .ok () := by
  induction l with
  | nil => exact iff_of_true rfl (List.forall_mem_nil _)
  | cons a l ih =>
    rw [show (a :: l).forM f = (f a >>= fun _ => l.forM f) from rfl, then_ok, ih, List.forall_mem_cons]

theorem forM?_ok {o : Option α} : o.forM f = .ok () ↔ ∀ a ∈ o, f a = .ok () := by
  cases o with
  | none => simp [Option.forM, pure, Except.pure]
  | some a => simp [Option.forM]

namespace Source

open Rule (permits_append permits_cons permits_tys permits_ty? permits_flatMap permits_lambdaParams)

variable {span : Span} {t : Ty} {items : List Item}

theorem checkTy_iff : checkTy span t = .ok () ↔ t.Accepted := by
  rw [← Ty.checkWrappers_iff]
  unfold checkTy Checked.ofWrap
  cases t.checkWrappers with
  | ok _ => exact iff_of_true rfl rfl
  | error e => exact iff_of_false nofun nofun

theorem checkTys_iff {ts : List Ty} : ts.forM (checkTy span) = .ok () ↔ accepting.Permits (ts.map .ty) := by
  simp only [forM_ok, checkTy_iff, permits_tys, accepting]

theorem permits_nil : accepting.Permits [] := List.forall_mem_nil _

theorem permits_iff : accepting.Permits items ↔ ∀ t, .ty t ∈ items → t.Accepted := by
  refine ⟨fun h t ht => h _ ht, fun h i hi => ?_⟩
  cases i with
  | ty t => exact h t hi
  | _ => trivial

theorem permits_memberItems {target : Located Expr} {member : String} :
    accepting.Permits (memberItems target member) := by
  refine permits_cons.mpr ⟨trivial, ?_⟩
  split
  · exact permits_cons.mpr ⟨trivial, permits_nil⟩
  · exact permits_nil

theorem permits_ty : accepting.Permits (.ty t :: items) ↔ t.Accepted ∧ accepting.Permits items :=
  permits_cons

theorem permits_binder {name : String} : accepting.Permits (.binder name :: items) ↔ accepting.Permits items :=
  permits_cons.trans (and_iff_right trivial)

/-! The check of a tree visits every type that is written in it. -/

mutual

theorem Pattern.checkTypes_iff : ∀ p : Located Pattern, Pattern.checkTypes p = .ok () ↔ accepting.Permits p.val.items
  | ⟨.ident _, _⟩ => by
    rw [Pattern.checkTypes]
    exact iff_of_true rfl (permits_binder.mpr permits_nil)
  | ⟨.wildcard, _⟩ | ⟨.literal _, _⟩ => by
    rw [Pattern.checkTypes]
    exact iff_of_true rfl permits_nil
  | ⟨.typed _ ty, span⟩ => by
    rw [Pattern.checkTypes, Pattern.items, permits_binder, checkTy_iff, permits_ty]
    exact (and_iff_left permits_nil).symm
  | ⟨.extractor _ typeArgs args, span⟩ => by
    rw [Pattern.checkTypes, Pattern.items, then_ok, checkTys_iff, Pattern.checkTypesList_iff args, permits_append]
  | ⟨.tuple elems, _⟩ => by
    rw [Pattern.checkTypes, Pattern.items, Pattern.checkTypesList_iff elems]
  | ⟨.rest name, _⟩ => by
    rw [Pattern.checkTypes]
    refine iff_of_true rfl (permits_iff.mpr fun t ht => ?_)
    simp [Pattern.items] at ht

theorem Pattern.checkTypesList_iff : ∀ ps : List (Located Pattern),
    Pattern.checkTypesList ps = .ok () ↔ accepting.Permits (Pattern.itemsOf ps)
  | [] => iff_of_true (by rw [Pattern.checkTypesList]; rfl) permits_nil
  | ⟨p, span⟩ :: ps => by
    rw [Pattern.checkTypesList, Pattern.itemsOf, then_ok, Pattern.checkTypes_iff ⟨p, span⟩,
      Pattern.checkTypesList_iff ps, permits_append]

end

mutual

theorem Expr.checkTypes_iff : ∀ e : Located Expr, Expr.checkTypes e = .ok () ↔ accepting.Permits e.val.items
  | ⟨.lit _, _⟩ | ⟨.nil, _⟩ => by
    rw [Expr.checkTypes]
    exact iff_of_true rfl permits_nil
  | ⟨.ident _, _⟩ => by
    rw [Expr.checkTypes]
    exact iff_of_true rfl (permits_cons.mpr ⟨trivial, permits_nil⟩)
  | ⟨.call callee typeArgs args, span⟩ => by
    rw [Expr.checkTypes, then_ok, then_ok, checkTys_iff, Expr.checkTypes_iff callee, Arg.checkTypesList_iff args,
      Expr.items, permits_append, permits_append, and_assoc]
  | ⟨.select target member, _⟩ => by
    rw [Expr.checkTypes, Expr.checkTypes_iff target, Expr.items, permits_append]
    exact (and_iff_right permits_memberItems).symm
  | ⟨.index left right, _⟩ | ⟨.binary left _ right, _⟩ | ⟨.ifElse left right none, _⟩ => by
    rw [Expr.checkTypes, then_ok, Expr.checkTypes_iff left, Expr.checkTypes_iff right, Expr.items, permits_append]
  | ⟨.unary _ operand, _⟩ => by
    rw [Expr.checkTypes, Expr.checkTypes_iff operand, Expr.items]
  | ⟨.lambda params body, span⟩ => by
    rw [Expr.checkTypes, then_ok, forM_ok, Expr.checkTypes_iff body, Expr.items, permits_append, permits_lambdaParams]
    simp only [List.mem_filterMap, checkTy_iff, accepting, true_and, forall_exists_index, and_imp, Option.mem_def]
    exact and_congr_left' ⟨fun h p hp t ht => h t p hp ht, fun h t p hp ht => h p hp t ht⟩
  | ⟨.ifElse cond thenBranch (some elseBranch), _⟩ => by
    rw [Expr.checkTypes, then_ok, then_ok, Expr.checkTypes_iff cond, Expr.checkTypes_iff thenBranch,
      Expr.checkTypes_iff elseBranch, Expr.items, permits_append, permits_append, and_assoc]
  | ⟨.matchOn subject clauses, _⟩ => by
    rw [Expr.checkTypes, then_ok, Expr.checkTypes_iff subject, Clause.checkTypesList_iff clauses, Expr.items,
      permits_append]
  | ⟨.tuple elems, _⟩ => by
    rw [Expr.checkTypes, Expr.checkTypesList_iff elems, Expr.items]
  | ⟨.caseFunction clauses, _⟩ => by
    rw [Expr.checkTypes, Clause.checkTypesList_iff clauses, Expr.items]
  | ⟨.block stmts, _⟩ => by
    rw [Expr.checkTypes, Stmt.checkTypesList_iff stmts, Expr.items]

theorem Expr.checkTypesList_iff : ∀ es : List (Located Expr),
    Expr.checkTypesList es = .ok () ↔ accepting.Permits (Expr.itemsOf es)
  | [] => iff_of_true (by rw [Expr.checkTypesList]; rfl) permits_nil
  | e :: es => by
    rw [Expr.checkTypesList, Expr.itemsOf, then_ok, Expr.checkTypes_iff e, Expr.checkTypesList_iff es, permits_append]

theorem Arg.checkTypesList_iff : ∀ args : List Arg,
    Arg.checkTypesList args = .ok () ↔ accepting.Permits (Arg.itemsOf args)
  | [] => iff_of_true (by rw [Arg.checkTypesList]; rfl) permits_nil
  | ⟨_, value⟩ :: args => by
    rw [Arg.checkTypesList, Arg.itemsOf, then_ok, Expr.checkTypes_iff value, Arg.checkTypesList_iff args,
      permits_append]

theorem Clause.checkTypes_iff : ∀ c : Clause, Clause.checkTypes c = .ok () ↔ accepting.Permits c.items
  | ⟨pattern, none, body⟩ => by
    rw [Clause.checkTypes, then_ok, Pattern.checkTypes_iff pattern, Expr.checkTypes_iff body, Clause.items,
      permits_append]
  | ⟨pattern, some guard, body⟩ => by
    rw [Clause.checkTypes, then_ok, then_ok, Pattern.checkTypes_iff pattern, Expr.checkTypes_iff guard,
      Expr.checkTypes_iff body, Clause.items, permits_append, permits_append, and_assoc]

theorem Clause.checkTypesList_iff : ∀ cs : List Clause,
    Clause.checkTypesList cs = .ok () ↔ accepting.Permits (Clause.itemsOf cs)
  | [] => iff_of_true (by rw [Clause.checkTypesList]; rfl) permits_nil
  | c :: cs => by
    rw [Clause.checkTypesList, Clause.itemsOf, then_ok, Clause.checkTypes_iff c, Clause.checkTypesList_iff cs,
      permits_append]

theorem ValDecl.checkTypes_iff : ∀ d : ValDecl,
    ValDecl.checkTypes d = .ok () ↔ accepting.Permits (d.ty.toList.map .ty ++ d.value.val.items)
  | ⟨_, _, none, value⟩ => by
    rw [ValDecl.checkTypes, Expr.checkTypes_iff value]
    rfl
  | ⟨name, _, some ty, value⟩ => by
    rw [ValDecl.checkTypes, then_ok, checkTy_iff, Expr.checkTypes_iff value]
    exact permits_ty.symm

theorem Stmt.checkTypes_iff : ∀ s : Located Stmt, Stmt.checkTypes s = .ok () ↔ accepting.Permits s.val.items
  | ⟨.val ⟨name, mutable, ty, value⟩, _⟩ => by
    rw [Stmt.checkTypes, ValDecl.checkTypes_iff ⟨name, mutable, ty, value⟩, Stmt.items, permits_binder]
  | ⟨.assign target _ value, _⟩ => by
    rw [Stmt.checkTypes, then_ok, Expr.checkTypes_iff target, Expr.checkTypes_iff value, Stmt.items, permits_cons,
      permits_append]
    exact (and_iff_right trivial).symm
  | ⟨.expr e, _⟩ => by
    rw [Stmt.checkTypes, Expr.checkTypes_iff e, Stmt.items]
  | ⟨.ret none, _⟩ => by
    rw [Stmt.checkTypes]
    exact iff_of_true rfl permits_nil
  | ⟨.ret (some value), _⟩ => by
    rw [Stmt.checkTypes, Expr.checkTypes_iff value, Stmt.items]
  | ⟨.loop cond body, _⟩ => by
    rw [Stmt.checkTypes, then_ok, Expr.checkTypes_iff cond, Stmt.checkTypesList_iff body, Stmt.items, permits_append]

theorem Stmt.checkTypesList_iff : ∀ ss : List (Located Stmt),
    Stmt.checkTypesList ss = .ok () ↔ accepting.Permits (Stmt.itemsOf ss)
  | [] => iff_of_true (by rw [Stmt.checkTypesList]; rfl) permits_nil
  | s :: ss => by
    rw [Stmt.checkTypesList, Stmt.itemsOf, then_ok, Stmt.checkTypes_iff s, Stmt.checkTypesList_iff ss, permits_append]

end

theorem TypeParam.checkTypes_iff {params : List TypeParam} :
    TypeParam.checkTypes span params = .ok () ↔ accepting.Permits (params.flatMap TypeParam.items) := by
  simp only [TypeParam.checkTypes, forM_ok, checkTy_iff, permits_flatMap, TypeParam.items, permits_cons, permits_ty?]
  simp only [List.mem_filterMap, forall_exists_index, and_imp, Option.mem_def, Rule.Allows, accepting, true_and]
  exact ⟨fun h p hp t ht => h t p hp ht, fun h t p hp ht => h p hp t ht⟩

theorem StructField.checkTypes_iff {fields : List StructField} :
    StructField.checkTypes fields = .ok () ↔ accepting.Permits (fields.map (.ty ·.ty)) := by
  simp only [StructField.checkTypes, forM_ok, checkTy_iff, Rule.Permits, List.forall_mem_map, Rule.Allows, accepting]

theorem Receiver.permits {r : Receiver} : accepting.Permits r.items ↔ r.ty.Accepted := by
  have hparams : accepting.Permits ((receiverParams r.ty).map .param) := permits_iff.mpr (by simp)
  rw [Receiver.items, permits_binder, permits_ty, and_iff_left hparams]

theorem Decl.checkTypes_iff : ∀ d : Located Decl, Decl.checkTypes d = .ok () ↔ accepting.Permits d.val.items
  | ⟨.val decl, _⟩ => by
    rw [Decl.checkTypes, ValDecl.checkTypes_iff, Decl.items, permits_binder]
  | ⟨.func decl, _⟩ => by
    simp only [Decl.checkTypes, then_ok, TypeParam.checkTypes_iff, forM?_ok, forM_ok, checkTy_iff,
      Expr.checkTypes_iff decl.body, Decl.items, permits_cons (i := .function _), permits_append, permits_flatMap,
      permits_ty?, Receiver.permits, permits_binder, permits_ty, permits_nil, and_true, Option.mem_toList, and_assoc,
      Rule.Allows, true_and]
    exact Iff.rfl
  | ⟨.struct decl, _⟩ => by
    simp only [Decl.checkTypes, then_ok, TypeParam.checkTypes_iff, StructField.checkTypes_iff, Decl.items, permits_cons,
      permits_append, Rule.Allows, true_and]
  | ⟨.sealedType decl, _⟩ => by
    simp only [Decl.checkTypes, then_ok, TypeParam.checkTypes_iff, forM_ok, StructField.checkTypes_iff, Decl.items,
      permits_cons, permits_append, permits_flatMap, Variant.items, Rule.Allows, true_and]
  | ⟨.typeAlias decl, span⟩ => by
    simp only [Decl.checkTypes, then_ok, TypeParam.checkTypes_iff, checkTy_iff, Decl.items,
      permits_cons (i := .typeAlias _), permits_append, permits_ty, Rule.Allows, true_and, permits_nil, and_true]

theorem Program.checkTypes_iff {program : Program} :
    program.checkTypes = .ok () ↔ ∀ t, .ty t ∈ program.items → t.Accepted := by
  rw [Program.checkTypes, forM_ok, ← permits_iff, Program.items, permits_flatMap]
  exact forall₂_congr fun d _ => Decl.checkTypes_iff d

/-- The check accepts a program just if in no type that is written anywhere in it, at no depth of the type, a
    wrapper holds a wrapper. -/
theorem Program.checkTypes_eq_ok_iff (program : Program) :
    program.checkTypes = .ok () ↔ ∀ t, .ty t ∈ program.items → ∀ part ∈ t.parts, ∀ inner,
      part.wrapped? = some inner → inner.isWrapper = false := by
  rw [Program.checkTypes_iff]
  exact forall₂_congr fun t _ => forall₂_congr fun part _ => Ty.isDoubleWrap_eq_false_iff

end Source

/-! ## Catalog files -/

theorem accepted_of_checkMember {member : String} {t : Ty} (h : checkMember member t = .ok ()) : t.Accepted := by
  rw [← Ty.checkWrappers_iff]
  unfold checkMember at h
  cases hcheck : t.checkWrappers with
  | ok _ => rfl
  | error e =>
    rw [hcheck] at h
    cases h

namespace CatalogFile

variable {f : CatalogFile}

theorem check_ok (h : f.check = .ok ()) :
    (∀ e ∈ f.types, ∀ p ∈ e.members, p.2.Accepted) ∧ ∀ e ∈ f.functions, ∀ t ∈ e.params ++ [e.result], t.Accepted := by
  obtain ⟨_, htypes, hfunctions⟩ := except_bind_ok.mp h
  refine ⟨fun e he p hp => ?_, fun e he t ht => ?_⟩
  · exact accepted_of_checkMember (forM_ok.mp (forM_ok.mp htypes e he) p hp)
  · exact accepted_of_checkMember (forM_ok.mp (forM_ok.mp hfunctions e he) t ht)

end CatalogFile

namespace Catalog

theorem forall_merged {P : String → TypeEntry → Prop} {Q : String → FunctionEntry → Prop} {files : List CatalogFile}
    (htypes : ∀ f ∈ files, ∀ e ∈ f.types, P e.qualifiedName e)
    (hfunctions : ∀ f ∈ files, ∀ e ∈ f.functions, Q e.qualifiedName e) :
    (∀ key e, (files.foldl merge empty).types.find? key = some e → P key e) ∧
      ∀ key e, (files.foldl merge empty).functions.find? key = some e → Q key e := by
  let I : Catalog → Prop := fun c =>
    (∀ key e, c.types.find? key = some e → P key e) ∧ ∀ key e, c.functions.find? key = some e → Q key e
  have hempty : I empty := ⟨by simp [empty], by simp [empty]⟩
  refine List.foldlRecOn (motive := I) _ _ hempty fun c hc f hf => ?_
  have hc : I (f.types.foldl addType c) :=
    List.foldlRecOn _ _ hc fun c hc e he => ⟨Table.forall_find?_insert hc.1 (htypes f hf e he), hc.2⟩
  have hc : I (f.functions.foldl addFunction (f.types.foldl addType c)) :=
    List.foldlRecOn _ _ hc fun c hc e he => ⟨hc.1, Table.forall_find?_insert hc.2 (hfunctions f hf e he)⟩
  have hc : I (f.companions.foldl addCompanion (f.functions.foldl addFunction (f.types.foldl addType c))) :=
    List.foldlRecOn (motive := I) _ addCompanion hc fun _ hc _ _ => hc
  exact List.foldlRecOn (motive := I) _ addImport hc fun _ hc _ _ => hc

end Catalog

end Lowering
