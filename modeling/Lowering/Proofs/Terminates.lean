/-
  Terminates — control never falls off the end of an emitted function.

  The target refuses a function with a result whose body may run to its end. The body of every function in a
  lowered file terminates, at any depth, unless something is named `panic`.
-/

import Lowering.Proofs.FirstMatch
import Lowering.Proofs.Indexed
import Lowering.Proofs.Lowered

namespace Lowering

open Lower (unlocated)
open Target (Node Stmt Machine State execAll)

/-! ## The name `panic` -/

/-- Nothing that the program declares or binds and no symbol of the catalog has the name. -/
structure Unclaimed (name : String) (program : Source.Program) (catalog : Catalog) : Prop where
  items : ∀ i ∈ program.items, i.introduces name = false
  types : ∀ package, catalog.type? package name = none
  functions : ∀ package, catalog.function? package name = none

variable {catalog : Catalog} {program : Source.Program}

theorem opaque_of_unclaimed (h : Unclaimed "panic" program catalog) {runtime : String} {index : Index}
    (hindex : Index.build program runtime = .ok index) :
    ∀ e, index.types.find? "panic" = some e → e.kind = .opaqueType := by
  have hname : ∀ (d : Source.Decl) (name : String), Index.Declared program d → .type name ∈ d.items →
      name = "panic" → False := by
    rintro d name hd hmem rfl
    have := h.items _ (Index.mem_items_of_declared hd hmem)
    simp [Source.Item.introduces] at this
  refine fun e he => Index.types_induction (P := fun name e => name = "panic" → e.kind = .opaqueType) hindex
    ?_ ?_ ?_ ?_ _ e he rfl
  · intro d hd heq
    exact (hname _ _ hd (.head _) heq).elim
  · intro d hd v hv heq
    refine (hname _ _ hd (.tail _ (List.mem_append_right _ ?_)) heq).elim
    exact List.mem_flatMap.mpr ⟨v, hv, .head _⟩
  · intro d hd e _ heq
    exact (hname _ _ hd (.head _) heq).elim
  · intro d receiver hd hreceiver e he heq
    have hkind : e.kind = .opaqueType := by
      rcases he with he | rfl
      · exact he heq
      · rfl
    simp [TypeEntry.withMethod, TypeEntry.addMethod, hkind, apply_ite TypeEntry.kind]

theorem leavesPanic_of_unclaimed {settings : Settings} {env : Env}
    (henv : Env.ofProgram program catalog settings = .ok env) (h : Unclaimed "panic" program catalog) :
    env.LeavesPanic := by
  obtain ⟨index, hindex, rfl⟩ := Env.ofProgram_ok henv
  have hfunction : index.functions.find? "panic" = none := by
    by_contra hsome
    obtain ⟨f, hf⟩ := Option.ne_none_iff_exists'.mp hsome
    obtain ⟨d, hd, hname, -⟩ := (Index.build_declared hindex).functions _ f hf
    have := h.items _ (Index.mem_items_of_declared hd (.head _))
    simp [Source.Item.introduces, hname] at this
  have hcatalog : ∀ packages : List String, packages.findSome? (catalog.function? · "panic") = none ∧
      packages.findSome? (catalog.type? · "panic") = none := fun packages =>
    ⟨List.findSome?_eq_none_iff.mpr fun p _ => h.functions p, List.findSome?_eq_none_iff.mpr fun p _ => h.types p⟩
  have hnone : (⟨index, catalog, settings⟩ : Env).function? "panic" = none := by
    show (index.functions.find? "panic" <|> _) = none
    rw [hfunction, (hcatalog _).1]
    rfl
  simp only [Env.LeavesPanic, namedCallee, hnone]
  cases htype : (⟨index, catalog, settings⟩ : Env).type? "panic" with
  | none => rfl
  | some e =>
    have hown : index.types.find? "panic" = some e := by
      have htype : (index.types.find? "panic" <|> _) = some e := htype
      rw [(hcatalog _).2] at htype
      simpa using htype
    simp [opaque_of_unclaimed h hindex e hown]

/-! ## The rule -/

/-- A function with a result never falls off its end and leaves the name `panic` alone. -/
def Target.Node.Terminates (n : Node) : Prop :=
  ∀ results body, n.function? = some (results, body) → ∀ result, results.head? = some result → result.isVoid = false →
    Stmt.terminates body = true ∧ Stmt.anyWrites "panic" body = false

/-- No binding is named `panic` and every function terminates. -/
def terminating : Rule where
  name x := x ≠ "panic"
  node := Node.Terminates

theorem spared_of_state {s : LowerState} (hs : terminating.State s) : Spared "panic" s := by
  refine Lower.spared_panic ?_
  by_contra hsome
  obtain ⟨b, hb⟩ := Option.ne_none_iff_exists'.mp hsome
  exact (hs.scope "panic" b hb).name rfl

theorem binds_of_permits {e : Source.Expr} (h : terminating.Permits e.items) : e.binds "panic" = false := by
  by_contra hbinds
  exact h _ (Source.Expr.binder_of_binds e (by simpa using hbinds)) rfl

theorem isVoid_of_results {ty result : Ty} (h : ty.results.head? = some result) (hr : result.isVoid = false) :
    ty.isVoid = false := by
  unfold Ty.results at h
  split at h
  · cases h
  · cases h
    exact hr

theorem terminating_functional {env : Env} (henv : env.LeavesPanic) : terminating.Functional env where
  plain h _ _ hf := by simp [h] at hf
  stem := trivial
  temporary _ n := (NameSupply.numbered_ne (x := "panic") (by decide)).symm
  made hmade := by
    obtain @⟨_, _, _, ty, _, _, _, _, _, hfrom, hitems, hs, -, hflow, hn, hresults, -, -, -⟩ := hmade
    intro results body hf result hresult hvoid
    rw [hn] at hf
    cases hf
    have hty : ty.isVoid = false := by
      rcases hresults with rfl | ⟨-, rfl⟩
      · exact isVoid_of_results hresult hvoid
      · rw [List.headD_eq_head?_getD, hresult]
        exact hvoid
    have hspared := spared_of_state hs
    have hbinds := hfrom.binds (binds_of_permits hitems)
    have hends := hflow.ends henv (by rw [hty]; rfl) hspared hbinds
    exact ⟨by cases hfrom <;> exact hends, hfrom.silent (hflow.spares (by decide) hspared hbinds)⟩
  straight hstraight _ hn _ := by
    intro results' body hf result _ _
    rw [hn] at hf
    cases hf
    refine ⟨hstraight.ends, ?_⟩
    by_contra hwrite
    obtain ⟨stem, -, k, heq⟩ := hstraight.writes "panic" (by simpa using hwrite)
    exact NameSupply.numbered_ne (x := "panic") (by decide) heq

theorem terminating_permits (h : ∀ i ∈ program.items, i.introduces "panic" = false) {d : Located Source.Decl}
    (hd : d ∈ program.decls) : terminating.Permits d.val.items := by
  intro i hi
  have hintro := h i (List.mem_flatMap.mpr ⟨d, hd, hi⟩)
  cases i with
  | binder name => simpa [Source.Item.introduces, Rule.Allows, terminating] using hintro
  | _ => trivial

/-- The body of every emitted function with a result terminates. Where calling `panic` panics, no
    run of it ends normally. -/
theorem lowerProgram_terminates {program : Source.Program} {catalog : Catalog} {settings : Settings}
    {file : Target.File} (hfile : lowerProgram program catalog settings = .ok file)
    (hpanic : Unclaimed "panic" program catalog) :
    ∀ n ∈ file.nodes, ∀ results body, n.function? = some (results, body) →
      ∀ result, results.head? = some result → result.isVoid = false →
        Stmt.terminates body = true ∧
          ∀ (m : Machine), m.Panics → ∀ (bound : Nat) (st st' : State m), st.locals.lookup "panic" = none →
            execAll bound body st ≠ some (.normal st') := by
  have hnodes : ∀ n ∈ file.nodes, n.Terminates := by
    refine Rule.Lawful.lowerProgram (R := terminating) hfile fun env henv => ⟨?_, fun d hd => ⟨?_, ?_, fun _ _ => True.intro⟩⟩
    · exact (terminating_functional (leavesPanic_of_unclaimed henv hpanic)).lawful fun _ => True.intro
    · exact terminating_permits hpanic.items hd
    · intro _ _ _ _
      exact True.intro
  intro n hn results body hf result hresult hvoid
  obtain ⟨hends, hsilent⟩ := hnodes n hn results body hf result hresult hvoid
  exact ⟨hends, fun m hm bound st st' hst => Target.execAll_terminates hm body st st' hends hsilent hst⟩

/-- `func pick(x bool) int = x match { case true => 1; case _ => 2 }` -/
def pickProgram : Source.Program where
  package := "main"
  decls := [unlocated (.func {
    name := unlocated "pick"
    typeParams := []
    receiver := none
    params := [⟨unlocated "x", .bool⟩]
    result := some .int
    body := unlocated (.matchOn (unlocated (.ident "x"))
      [⟨unlocated (.literal (.bool true)), none, unlocated (.lit (.int 1))⟩,
        ⟨unlocated .wildcard, none, unlocated (.lit (.int 2))⟩])
    span := .synthetic })]

/-- `if x { return 1 }; return 2` -/
def pickBody : List Stmt :=
  [.guarded (.ident "x") [.ret1 (.lit (.int 1))], .ret1 (.lit (.int 2))]

def pickFile : Target.File where
  package := "main"
  imports := []
  decls := [.func ⟨"pick", [], none, [⟨"x", .bool⟩], [.int], pickBody⟩]

theorem lowerProgram_terminates_pick :
    lowerProgram pickProgram .empty .standard = .ok pickFile ∧ Stmt.terminates pickBody = true ∧
      ∀ (m : Machine), m.Panics → ∀ (bound : Nat) (st st' : State m), st.locals.lookup "panic" = none →
        execAll bound pickBody st ≠ some (.normal st') := by
  have hfile : lowerProgram pickProgram .empty .standard = .ok pickFile := by with_unfolding_all rfl
  refine ⟨hfile, lowerProgram_terminates hfile ⟨by decide, fun _ => rfl, fun _ => rfl⟩ _ (.head _) [.int] pickBody rfl
    .int rfl rfl⟩

end Lowering
