/-
  Tidy — lowering puts everything back.

  Lowering an expression, in any position, changes the supply of names and the dot imports that are noted, and
  nothing else: the scope, the functions being lowered, the type parameters and the depth are as before, whether
  it ends with a result or with a diagnostic.
-/

import Lowering.Proofs.Composed

namespace Lowering

abbrev Piece.Tidy (p : Piece) : Prop := p.Has (fun _ => True) fun _ act => Keeps Framed act

abbrev ClausePiece.Tidy (c : ClausePiece) : Prop := c.Has (fun _ => True) fun _ act => Keeps Framed act

def Source.Expr.isValue : Source.Expr → Bool
  | .ifElse _ _ _ | .matchOn _ _ | .block _ => false
  | _ => true

def Source.Stmt.declared? : Source.Stmt → Option String
  | .val decl => some decl.name.val
  | _ => none

/-- The scope is as before, or has the binding that the statement declares. -/
structure Declares (stmt : Source.Stmt) (s s' : LowerState) : Prop extends Steady s s' where
  scope : s'.scope = s.scope ∨
    ∃ name mutability ty, stmt.declared? = some name ∧ s'.scope = s.scope.bind name mutability ty

abbrev StmtPiece.Tidy (p : StmtPiece) : Prop :=
  p.Has (fun _ => True) (fun _ act => Keeps Framed act) fun stmt _ act => Keeps (Declares stmt) act

namespace Lower

theorem mentionsAny {e : Source.Expr} : e.MentionsOnly fun _ => True := fun _ _ => trivial

abbrev TidyArgs (args : List ArgPiece) : Prop := HasAll (fun _ => True) (fun _ act => Keeps Framed act) args

variable {s s' : LowerState} {stmt : Source.Stmt}

theorem declares_of_framed (h : Framed s s') : Declares stmt s s' :=
  ⟨h.toSteady, .inl h.scope⟩

theorem declares_after {α β : Type} {x : Lower α} {f : α → Lower β} (hx : Keeps Framed x)
    (hf : ∀ a, Keeps (Declares stmt) (f a)) : Keeps (Declares stmt) (x >>= f) :=
  hx.comp (fun a _ _ _ => hf a) (fun _ _ => declares_of_framed) fun _ _ _ h h' =>
    ⟨IsTrans.trans _ _ _ h.toSteady h'.toSteady, by rw [← h.scope]; exact h'.scope⟩

theorem framedIn (names : String → Prop) : Composes names (fun _ act => Keeps Framed act) (fun _ act => Keeps Steady act)
    fun stmt _ act => Keeps (Declares stmt) act where
  pure a := .pure
  fail := fail_framed
  bind_of := .bind_of
  look _ h := .bind scope_framed h
  inFunctions _ h := .bind .get h
  inference := inference_framed
  fresh := fresh_framed
  freshFlag := freshFlag_framed
  notePackage := notePackage_framed
  compilePattern := compilePattern_framed
  typeOf env _ _ := typeOf_framed
  askCallee env _ _ := ask_framed fun inf scope => ⟨_, inf.askCalleeOf_answers scope⟩
  askClauses env _ _ _ := ask_framed fun inf scope => ⟨_, inf.askClauses_answers _ scope _⟩
  askTypeArgs env _ _ _ _ _ :=
    ask_framed fun inf scope => ⟨_, typeArgsQuestion_answers⟩
  withFunction result synthetic h := withFunction_framed h
  nested env span h := nested_framed h
  withScope := withScope_framed
  bindAll := bindAll_steady
  binds_of_declares h := h.mono fun _ _ h => h.toSteady
  andThen := .bind
  declares_of _ h := h.mono fun _ _ => declares_of_framed
  declareAfter := declares_after
  declare decl mutability ty := fun s => ⟨bind_steady _ _ _ s, .inr ⟨decl.name.val, mutability, ty, rfl, rfl⟩⟩
  declaresMap f h := h.map

theorem framed : Composes (fun _ => True) (fun _ act => Keeps Framed act) (fun _ act => Keeps Steady act)
    fun stmt _ act => Keeps (Declares stmt) act := framedIn _

theorem framedFamily : Family (fun _ _ act => Keeps Framed act) (fun _ _ act => Keeps Steady act)
    fun _ stmt _ act => Keeps (Declares stmt) act where
  composes := framedIn
  bound arg param h := withScope_framed (.bind (bind_steady arg .val param) fun _ => steady_of_framed h)

/-! ## The source -/

theorem piece_tidy (env : Env) (e : Located Source.Expr) : (piece env e).Tidy :=
  piece_has env framedFamily e mentionsAny

theorem exprPieces_tidy {es : List (Located Source.Expr)} : ∀ p ∈ exprPieces env es, p.Tidy :=
  exprPieces_has env framedFamily es fun _ _ => trivial

theorem argPieces_tidy {args : List Source.Arg} : TidyArgs (argPieces env args) :=
  argPieces_has env framedFamily args fun _ _ => trivial

theorem clausePiece_tidy (env : Env) (c : Source.Clause) : (clausePiece env c).Tidy :=
  clausePiece_has env framedFamily c fun _ _ => trivial

theorem clausePieces_tidy {cs : List Source.Clause} : ∀ c ∈ clausePieces env cs, c.Tidy :=
  clausePieces_has env framedFamily cs fun _ _ => trivial

theorem stmtPiece_tidy {s : Located Source.Stmt} : (stmtPiece env s).Tidy :=
  stmtPiece_has env framedFamily s fun _ _ => trivial

theorem piece_isValue {e : Located Source.Expr} (h : e.val.isValue = true) :
    ∃ value parts, piece env e = .ofValue env e value parts := by
  obtain ⟨e, span⟩ := e
  cases e with
  | ifElse cond thenBranch elseBranch | matchOn subject clauses | block stmts => cases h
  | ident name => exact ⟨_, _, by simp only [piece, identPiece]; rfl⟩
  | _ => exact ⟨_, _, by simp only [piece]; rfl⟩

/-- In every position, with a result or with a diagnostic, lowering puts back the scope, the functions,
    the type parameters and the depth, and a question that it asks puts back the scope. -/
theorem lowering_restores (env : Env) (e : Located Source.Expr) (clauses : List Source.Clause) :
    ((∀ expected, Keeps Framed ((piece env e).value expected)) ∧
      (∀ result, Keeps Framed ((piece env e).tail result)) ∧
      Keeps Framed (piece env e).effect ∧
      ∀ position span, Keeps Framed (lowerMatch env (piece env e) (clausePieces env clauses) position span)) ∧
    ∀ inf : Inference,
      (inf.ask e).Restores ∧
      (∀ typeArgs args expected, (inf.askCallType e typeArgs args expected).Restores) ∧
      (∀ params expected, (inf.askLambdaType params e expected).Restores) ∧
      (∀ stmts, (inf.askBlockType stmts).Restores) ∧
      (∀ declared, (inf.askMatchType e clauses declared).Restores) ∧
      ∀ subject c, (inf.askClause subject c).Restores := by
  have htidy := piece_tidy env e
  refine ⟨⟨htidy.value, htidy.tail, htidy.effect, fun position span => ?_⟩, fun inf => ⟨?_, ?_, ?_, ?_, ?_, ?_⟩⟩
  · exact framed.lowerMatch htidy clausePieces_tidy
  · exact Query.restores_of_answers (inf.ask_answers e)
  · exact fun typeArgs args expected => Query.restores_of_answers inf.askCallType_answers
  · exact fun params expected => Query.restores_of_answers (inf.askLambdaType_answers e)
  · exact fun stmts => Query.restores_of_answers inf.askBlockType_answers
  · exact fun declared => Query.restores_of_answers inf.askMatchType_answers
  · exact fun subject c => Query.restores_of_answers fun scope => inf.askClause_answers c scope subject

end Lower

end Lowering
