/-
  Reused — value bindings that keep a wrapper.

  Where the value reads a name or a field that is stored in a wrapper, that wrapper is kept. The binding is
  recorded with its written type all the same (`annotated_reuses`).
-/

import Lowering.Proofs.Accepted

namespace Lowering

open Target (Expr)

namespace Lower

variable {env : Env} {s s' : LowerState}

/-- The expression is a name or a field that is stored in a wrapper: where the wrapper is, and what it holds. -/
inductive Wrapped (env : Env) (s : LowerState) : Source.Expr → Expr → Ty → Prop
  | name {x : String} {b : Binding} {inner : Ty} (hb : s.scope.find? x = some b) (hinner : b.ty.wrapped? = some inner) :
      Wrapped env s (.ident x) (.ident x) inner
  | field {target : Located Source.Expr} {member : Located String} {s1 : LowerState} {receiver : Expr} {info : FieldInfo}
      (hpackage : packageOf? env s.scope target.val = none) (hs : s.Below env s1)
      (hreceiver : (piece env target).Gives s1 receiver) (hinfo : env.field? (s.typeOf env target) member.val = some info)
      (hwrapped : info.wrapped = true) : Wrapped env s (.select target member) (.selector receiver member.val) info.ty

/-- What is stored holds the type: it is the wrapper that the expression reads or, if it reads none, a new one. -/
def Holds (env : Env) (s : LowerState) (e : Located Source.Expr) (stored : Expr) (ty : Ty) : Prop :=
  Wrapped env s e.val stored ty ∨ (∀ w inner, ¬ Wrapped env s e.val w inner) ∧
    ∃ v, (piece env e).Gives s v ∧ stored = .call (.qualified env.runtime "NewImmutable") [ty] [v]

theorem typeOf_ident {x : String} {b : Binding} (hb : s.scope.find? x = some b) (hwrapper : b.ty.isWrapper = true)
    (span : Span) : s.typeOf env ⟨.ident x, span⟩ = b.ty.unwrap.unwrap := by
  have hnil : b.ty.isNil = false := by
    cases hty : b.ty <;> simp_all [Ty.isWrapper, Ty.isNil]
  have htype : s.scope.typeOf x = b.ty := by rw [Scope.typeOf, hb]; rfl
  simp only [LowerState.typeOf, LowerState.inferred, Inference.typeOf, identType, htype, hnil]
  rfl

theorem typeOf_select {target : Located Source.Expr} {member : Located String} {info : FieldInfo}
    (hpackage : packageOf? env s.scope target.val = none)
    (hinfo : env.field? (s.typeOf env target) member.val = some info) (span : Span) :
    s.typeOf env ⟨.select target member, span⟩ = info.ty.unwrap := by
  have hinfo' : env.field? (s.inferred env target).unwrap member.val = some info := hinfo
  simp only [LowerState.inferred] at hinfo'
  simp only [LowerState.typeOf, LowerState.inferred, Inference.typeOf, Inference.selectType, hpackage, memberType, hinfo']

theorem isWrapperRead_wrapped {e : Located Source.Expr} {expected : Option Ty} {v : Expr}
    (hv : (piece env e).value expected s = .ok v s') {read : Bool} {s1 s2 : LowerState} (hs : Framed s s1)
    (hread : isWrapperRead env e.val s1 = .ok read s2) :
    (read = true → ∃ w inner, v = Storage.read w ∧ Wrapped env s e.val w inner ∧ s.typeOf env e = inner.unwrap) ∧
      (read = false → ∀ w inner, ¬ Wrapped env s e.val w inner) := by
  obtain ⟨e, span⟩ := e
  cases e with
  | ident x =>
    obtain ⟨_, _, hscope, hread⟩ := bind_ok hread
    cases hscope
    obtain ⟨rfl, -⟩ := pure_ok hread
    rw [hs.scope]
    constructor
    · intro hread
      obtain ⟨b, hb, hwrapper⟩ := (Option.any_eq_true _ _).mp hread
      obtain ⟨inner, hinner⟩ : ∃ inner, b.ty.wrapped? = some inner := by
        rw [Ty.wrapped?, if_pos hwrapper]
        cases hty : b.ty <;> simp only [hty, Ty.isWrapper, Bool.false_eq_true] at hwrapper
        obtain ⟨inner, rfl⟩ := List.length_eq_one_iff.mp (by simpa using (Bool.and_eq_true_iff.mp hwrapper).2)
        exact ⟨inner, rfl⟩
      refine ⟨_, inner, ?_, .name hb hinner, ?_⟩
      · simp only [piece] at hv
        obtain ⟨_, hv⟩ := nested_ok hv
        cases lowerIdent_code hv with
        | bound hfind hplain =>
          cases hfind.symm.trans hb
          cases hplain.symm.trans hwrapper
        | wrapped => rfl
        | function hfree | companion hfree | builtin hfree => cases hfree.symm.trans hb
      · rw [typeOf_ident hb hwrapper, show b.ty.unwrap = inner by rw [Ty.unwrap, hinner]; rfl]
    · intro hread w inner h
      cases h with
      | name hb hinner =>
        rw [hb] at hread
        rw [Ty.wrapped?, show Ty.isWrapper _ = false from hread] at hinner
        cases hinner
  | select target member =>
    obtain ⟨_, _, hscope, hread⟩ := bind_ok hread
    cases hscope
    rw [hs.scope] at hread
    cases hpackage : packageOf? env s.scope target.val with
    | some package =>
      rw [hpackage] at hread
      obtain ⟨rfl, -⟩ := pure_ok hread
      refine ⟨(fun h => by cases h), fun _ w inner h => ?_⟩
      cases h with
      | field hnone => cases hpackage.symm.trans hnone
    | none =>
      rw [hpackage] at hread
      dsimp only at hread
      rw [typeOf_bind_run, show s1.typeOf env target = s.typeOf env target from
        congrArg Ty.unwrap (hs.alike.inferred env target)] at hread
      obtain ⟨rfl, -⟩ := pure_ok hread
      constructor
      · intro hread
        obtain ⟨info, hinfo, hwrapped⟩ := (Option.any_eq_true _ _).mp hread
        obtain ⟨hbelow, s3, hv, -⟩ := nested_below hv
        cases lowerSelect_code hv with
        | package hsome => cases hpackage.symm.trans (piece_source env target ▸ hsome)
        | field _ _ hplain => cases hread.symm.trans (piece_source env target ▸ hplain)
        | wrapped _ hreceiver =>
          exact ⟨_, info.ty, rfl, .field hpackage hbelow hreceiver hinfo hwrapped, typeOf_select hpackage hinfo span⟩
      · intro hread w inner h
        cases h with
        | field _ _ _ hinfo hwrapped =>
          rw [hinfo] at hread
          simp [hwrapped] at hread
  | _ =>
    cases hread
    exact ⟨(fun h => by cases h), fun _ w inner h => by cases h⟩

theorem storeValue_holds {decl : Source.ValDecl} (hread : ∀ w inner, Wrapped env s decl.value.val w inner →
      (∀ t ∈ decl.ty, t = inner) ∧ inner.isWrapper = false) {ty : Ty} {v stored : Expr} {s1 s2 : LowerState}
    (hty : bindingType env decl s = .ok ty s1) (hv : (piece env decl.value).value (some ty) s1 = .ok v s2)
    (hstored : storeValue env decl.value v ty s2 = .ok stored s') : Holds env s decl.value stored ty := by
  obtain ⟨hs, hwritten, -, -⟩ := bindingType_known hty
  subst hs
  have hframed := ((piece_tidy env decl.value).value _).ok hv
  obtain ⟨read, s3, hwrapped, hstored⟩ := bind_ok hstored
  obtain ⟨hreads, hnone⟩ := isWrapperRead_wrapped hv hframed hwrapped
  cases read with
  | false =>
    obtain ⟨_, -, rfl⟩ := checked_map_ok (ofChecked_ok hstored).1
    exact .inr ⟨hnone rfl, v, .intro hv, rfl⟩
  | true =>
    obtain ⟨w, inner, rfl, hwrapped, htype⟩ := hreads rfl
    obtain ⟨_, -, rfl⟩ := checked_map_ok (ofChecked_ok hstored).1
    obtain ⟨hannotated, hplain⟩ := hread stored inner hwrapped
    have hinner : ty = inner := by
      rcases hwritten with hwritten | ⟨-, rfl⟩
      · exact hannotated ty hwritten
      · rw [htype, Ty.unwrap_eq hplain]
    exact .inl (hinner ▸ hwrapped)

/-- A value binding, in a block or of the package, is recorded with a wrapper, in the scope or with its declaration,
    and initialized with one that holds the same type, where the written type, if there is one, is what a wrapper
    holds that the value reads, and that is no wrapper. -/
theorem initialized_recorded {decl : Source.ValDecl} (hval : decl.mutable = false)
    (hread : ∀ w inner, Wrapped env s decl.value.val w inner → (∀ t ∈ decl.ty, t = inner) ∧ inner.isWrapper = false) :
    (∀ stmts s', lowerLocal env decl (piece env decl.value) s = .ok stmts s' → ∃ ty stored,
      stmts = [.define1 decl.name.val stored] ∧
        s'.scope.find? decl.name.val = some ⟨.val, .generic (.named env.runtime Ty.wrapperName) [ty]⟩ ∧
        Holds env s decl.value stored ty) ∧
    ∀ d s', lowerGlobal env decl s = .ok d s' → ∃ ty stored,
      d = .var decl.name.val (some (.generic (.named env.runtime Ty.wrapperName) [ty])) (some stored) ∧
        Holds env s decl.value stored ty := by
  constructor
  · intro stmts s' h
    obtain ⟨ty, s₁, hty, h⟩ := bind_ok h
    obtain ⟨v, s₂, hv, h⟩ := bind_ok h
    simp only [hval, Bool.false_eq_true, if_false] at h
    obtain ⟨stored, s₃, hstored, h⟩ := bind_ok h
    obtain ⟨wrapper, s₄, hwrapper, h⟩ := bind_ok h
    obtain ⟨-, rfl⟩ := Rule.Sound.wrapperType_ok (ofChecked_ok hwrapper).1
    obtain ⟨_, s₅, hbind, h⟩ := bind_ok h
    cases hbind
    cases h
    exact ⟨ty, stored, rfl, by rw [Scope.find?_bind, if_pos rfl], storeValue_holds hread hty hv hstored⟩
  · intro d s' h
    obtain ⟨ty, s₁, hty, h⟩ := bind_ok h
    obtain ⟨v, s₂, hv, h⟩ := bind_ok h
    simp only [hval, Bool.false_eq_true, if_false] at h
    obtain ⟨wrapper, s₃, hwrapper, h⟩ := bind_ok h
    obtain ⟨hok, rfl⟩ := ofChecked_ok hwrapper
    obtain ⟨-, rfl⟩ := Rule.Sound.wrapperType_ok hok
    obtain ⟨stored, s₄, hstored, h⟩ := bind_ok h
    cases h
    exact ⟨ty, stored, rfl, storeValue_holds hread hty hv hstored⟩

/-- `val name: ty = value` -/
def valDecl (name : String) (ty : Option Ty) (value : Source.Expr) : Source.ValDecl := ⟨unlocated name, false, ty, unlocated value⟩

/-- `x` is a value binding of an integer. -/
def xInScope : LowerState := { LowerState.start bareEnv with scope := Scope.new.enter.bind "x" .val (wrapperOf .int) }

/-- `val y: int = x` -/
def yDecl : Source.ValDecl := valDecl "y" (some .int) (.ident "x")

/-- The wrapper of `x` is kept. -/
theorem initialized_recorded_kept :
    ∃ s', lowerLocal bareEnv yDecl (piece bareEnv yDecl.value) xInScope = .ok [.define1 "y" (.ident "x")] s' ∧
      s'.scope.find? "y" = some ⟨.val, wrapperOf .int⟩ ∧ Wrapped bareEnv xInScope (.ident "x") (.ident "x") .int := by
  have hread : ∀ w inner, Wrapped bareEnv xInScope yDecl.value.val w inner →
      (∀ t ∈ yDecl.ty, t = inner) ∧ inner.isWrapper = false := by
    intro w inner h
    cases h with
    | name hb hinner =>
      cases hb
      cases hinner
      exact ⟨fun t ht => (Option.some.inj ht).symm, rfl⟩
  refine ⟨_, rfl, rfl, ?_⟩
  have hlowered : lowerLocal bareEnv yDecl (piece bareEnv yDecl.value) xInScope = .ok [.define1 "y" (.ident "x")] _ := rfl
  obtain ⟨ty, stored, hstored, hbound, hholds⟩ := (initialized_recorded rfl hread).1 _ _ hlowered
  cases hstored
  cases hbound
  rcases hholds with hwrapped | ⟨-, v, -, hnew⟩
  · exact hwrapped
  · cases hnew

end Lower

open Lower (unlocated valDecl)

/-- `val x: int = 1` and `val y: any = x` -/
def wideningProgram : Source.Program where
  package := "main"
  decls := [unlocated (.val (valDecl "x" (some .int) (.lit (.int 1)))), unlocated (.val (valDecl "y" (some .any) (.ident "x")))]

/-- `struct Box[T] { x: T }`, `var b: *Box[Immutable[int]] = nil` and `val y = b.x` -/
def boxedProgram : Source.Program where
  package := "main"
  decls := [unlocated (.struct ⟨unlocated "Box", [⟨"T", none⟩], [⟨unlocated "x", .basic "T", false⟩], .synthetic⟩),
    unlocated (.val ⟨unlocated "b", true, some (.pointer (.generic (.own "Box") [wrapperOf .int])), unlocated .nil⟩),
    unlocated (.val (valDecl "y" none (.select (unlocated (.ident "b")) (unlocated "x"))))]

/-- A wrapper of integers is declared as one of anything, and a wrapper of wrappers as one of integers. -/
theorem annotated_reuses :
    lowerProgram wideningProgram .empty .standard = .ok ⟨"main", [⟨none, "valgo/std"⟩],
      [.var "x" (some (wrapperOf .int)) (some (.call (.qualified "std" "NewImmutable") [.int] [.lit (.int 1)])),
        .var "y" (some (wrapperOf .any)) (some (.ident "x"))]⟩ ∧
    lowerProgram boxedProgram .empty .standard = .ok ⟨"main", [⟨none, "valgo/std"⟩],
      [.struct "Box" [⟨"T", .any⟩] [⟨"x", wrapperOf (.basic "T")⟩],
        .var "b" (some (.pointer (.generic (.own "Box") [wrapperOf .int]))) (some .nil),
        .var "y" (some (wrapperOf .int)) (some (.selector (.ident "b") "x"))]⟩ := by
  exact ⟨rfl, rfl⟩

end Lowering
