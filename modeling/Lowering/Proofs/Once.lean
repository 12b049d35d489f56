/-
  Once — subjects and receivers with a call are evaluated once.

  A match reads its subject in every clause, a copy its receiver in every field that is taken over, so a call
  there is put into a temporary.
-/

import Lowering.Lower.Program
import Lowering.Proofs.FirstMatch
import Lowering.Proofs.Nodes

namespace Lowering

namespace Source

mutual

/-- A call stands somewhere inside. -/
def Expr.hasCall : Expr → Bool
  | .lit _ | .nil | .ident _ => false
  | .call _ _ _ => true
  | .select ⟨target, _⟩ _ => target.hasCall
  | .index ⟨target, _⟩ ⟨index, _⟩ => target.hasCall || index.hasCall
  | .binary ⟨left, _⟩ _ ⟨right, _⟩ => left.hasCall || right.hasCall
  | .unary _ ⟨operand, _⟩ => operand.hasCall
  | .lambda _ ⟨body, _⟩ => body.hasCall
  | .ifElse ⟨cond, _⟩ ⟨thenBranch, _⟩ none => cond.hasCall || thenBranch.hasCall
  | .ifElse ⟨cond, _⟩ ⟨thenBranch, _⟩ (some ⟨elseBranch, _⟩) =>
    cond.hasCall || thenBranch.hasCall || elseBranch.hasCall
  | .matchOn ⟨subject, _⟩ clauses => subject.hasCall || Clause.anyHasCall clauses
  | .tuple elems => Expr.anyHasCall elems
  | .caseFunction clauses => Clause.anyHasCall clauses
  | .block stmts => Stmt.anyHasCall stmts

def Expr.anyHasCall : List (Located Expr) → Bool
  | [] => false
  | ⟨e, _⟩ :: es => e.hasCall || Expr.anyHasCall es

def Clause.anyHasCall : List Clause → Bool
  | [] => false
  | ⟨_, none, ⟨body, _⟩⟩ :: cs => body.hasCall || Clause.anyHasCall cs
  | ⟨_, some ⟨guard, _⟩, ⟨body, _⟩⟩ :: cs => guard.hasCall || body.hasCall || Clause.anyHasCall cs

def Stmt.hasCall : Stmt → Bool
  | .val ⟨_, _, _, ⟨value, _⟩⟩ => value.hasCall
  | .assign ⟨target, _⟩ _ ⟨value, _⟩ => target.hasCall || value.hasCall
  | .expr ⟨e, _⟩ => e.hasCall
  | .ret none => false
  | .ret (some ⟨value, _⟩) => value.hasCall
  | .loop ⟨cond, _⟩ body => cond.hasCall || Stmt.anyHasCall body

def Stmt.anyHasCall : List (Located Stmt) → Bool
  | [] => false
  | ⟨s, _⟩ :: ss => s.hasCall || Stmt.anyHasCall ss

end

/-- What is called is a member `Get`, or a function of that name. -/
def Expr.isGet (env : Env) : Expr → Bool
  | .ident name => (env.function? name).any (·.name == "Get")
  | .select ⟨.ident package, _⟩ member =>
    member.val == "Get" || (env.function? (package ++ "." ++ member.val)).any (·.name == "Get")
  | .select _ member => member.val == "Get"
  | .block [⟨.expr ⟨e, _⟩, _⟩] => e.isGet env
  | _ => false

/-- Written with a call, and taken for a read that may be repeated: `x.Get()`, or a member of it. -/
def Expr.repeats (env : Env) : Expr → Bool
  | .call ⟨callee, _⟩ _ args => args.isEmpty && callee.isGet env
  | .select ⟨target, _⟩ _ => target.repeats env
  | .block [⟨.expr ⟨e, _⟩, _⟩] => e.repeats env
  | _ => false

end Source

namespace Lower

open Target (Expr Stmt)

variable {env : Env} {s s' : LowerState} {owner : TypeEntry} {tail : Bool} {task : Task} {out : List Stmt}
    {names : NameSupply} {α β : Type} {x : Lower α}

/-! ## Reads that may be repeated -/

theorem isPureRead_call {callee : Expr} {types : List Ty} {args : List Expr}
    (h : (Expr.call callee types args).isPureRead = true) : ∃ x, callee = .selector x "Get" ∧ args = [] := by
  cases callee with
  | selector x sel =>
    cases types with
    | cons _ _ => simp [Expr.isPureRead] at h
    | nil =>
      cases args with
      | cons _ _ => simp [Expr.isPureRead] at h
      | nil =>
        simp only [Expr.isPureRead, Bool.and_eq_true, beq_iff_eq] at h
        exact ⟨x, by rw [h.1], rfl⟩
  | _ => simp [Expr.isPureRead] at h

theorem eq_of_qualified {package name member : String} {x : Expr}
    (h : Expr.qualified package name = .selector x member) : name = member := by
  unfold Expr.qualified at h
  split at h
  · cases h
  · exact (Expr.selector.inj h).2

variable {expected : Option Ty} {source callee : Located Source.Expr} {v : Expr} {stmts : List (Located Source.Stmt)}
  {span : Span} {ty : Ty} {args : List Source.Arg} {s1 : LowerState} {p subject : Piece}

/-! ## Calls of `Get` -/

theorem isGet_select {target : Located Source.Expr} {member : Located String} (h : member.val = "Get") :
    (Source.Expr.select target member).isGet env = true := by
  obtain ⟨target, span⟩ := target
  cases target <;> simp [Source.Expr.isGet, h]

theorem isGet_of_function {f : FunctionEntry} (hname : f.name = "Get")
    (h : s.callee env callee = .function f) : callee.val.isGet env = true := by
  obtain ⟨e, span⟩ := callee
  cases calledAs h with
  | name hnamed | qualified hnamed =>
    cases hnamed with
    | function hf => simp [Source.Expr.isGet, hf, hname]
  | member hmember => cases hmember

theorem isGet_of_method {m : Method} (h : s.callee env callee = .method ty owner "Get" m) :
    callee.val.isGet env = true := by
  obtain ⟨e, span⟩ := callee
  generalize hname : "Get" = name at h
  cases calledAs h with
  | name hnamed | qualified hnamed => cases hnamed
  | member hmember =>
    cases hmember with
    | method hm => exact isGet_select hname.symm

theorem isGet_of_flow
    (h : Flow env s tail task out names) : ∀ e x, task = .value e (.selector x "Get") → e.val.isGet env = true := by
  induction h with
  | reached _ _ ih => exact ih
  | @operand _ _ _ e _ _ _ hcode =>
    rintro _ x ⟨⟩
    obtain ⟨e, span⟩ := e
    generalize hv : Expr.selector x "Get" = v at hcode
    cases hcode with
    | name hname =>
      cases hname with
      | function _ hf => simp [Source.Expr.isGet, hf, eq_of_qualified hv.symm]
      | _ => cases hv
    | select hselect =>
      cases hselect with
      | package _ | field _ _ _ => exact isGet_select (Expr.selector.inj hv).2.symm
      | wrapped _ _ _ => cases hv
    | call hcall => cases hcall <;> cases hv
    | index _ _ hindex => rcases hindex with rfl | rfl <;> cases hv
    | _ => cases hv
  | @single _ _ e _ _ _ _ _ _ ih =>
    rintro _ x ⟨⟩
    exact ih e x rfl
  | _ => rintro _ _ ⟨⟩

theorem eq_nil_of_allGive {lowered : List Expr} (h : AllGive (argPieces env args) s lowered) (hlowered : lowered = []) :
    args = [] := by
  subst hlowered
  cases args with
  | nil => rfl
  | cons a args =>
    obtain ⟨name, value⟩ := a
    cases h

theorem repeats_of_call {typeArgs : List Ty} (h : CallCode env s s' (piece env callee) (argPieces env args) v)
    (hpure : v.isPureRead = true) : (Source.Expr.call callee typeArgs args).repeats env = true := by
  have hrepeats : callee.val.isGet env = true → args = [] →
      (Source.Expr.call callee typeArgs args).repeats env = true := by
    rintro hget rfl
    exact hget
  cases h with
  | function hcallee hargs =>
    obtain ⟨x, hx, hlowered⟩ := isPureRead_call hpure
    rw [piece_source] at hcallee
    exact hrepeats (isGet_of_function (eq_of_qualified hx) hcallee) (eq_nil_of_allGive hargs hlowered)
  | method hcallee _ hargs =>
    obtain ⟨x, hx, hlowered⟩ := isPureRead_call hpure
    obtain ⟨-, rfl⟩ := Expr.selector.inj hx
    rw [piece_source] at hcallee
    exact hrepeats (isGet_of_method hcallee) (eq_nil_of_allGive hargs hlowered)
  | value hfunction hargs =>
    obtain ⟨x, rfl, hlowered⟩ := isPureRead_call hpure
    have hflow := (piece_flow env).gives hfunction s.names
    exact hrepeats (isGet_of_flow hflow _ _ rfl) (eq_nil_of_allGive hargs hlowered)
  | companion _ =>
    obtain ⟨x, hx, -⟩ := isPureRead_call hpure
    exact absurd (Expr.selector.inj hx).2 (by decide)
  | struct _ | extracted _ _ _ _ | copy _ _ _ _ _ | copyOnce _ _ _ _ _ _ | conversion _ _ | builtin _ _ _ =>
    simp [Expr.isPureRead, Expr.apply, Expr.invoked] at hpure

theorem repeats_of_flow
    (h : Flow env s tail task out names) : ∀ e v, task = .value e v → v.isPureRead = true → e.val.hasCall = true →
    e.val.repeats env = true := by
  induction h with
  | reached _ _ ih => exact ih
  | @operand _ _ _ e _ _ _ hcode _ ih =>
    rintro _ _ ⟨⟩ hpure hcall
    obtain ⟨e, span⟩ := e
    cases hcode with
    | lit | nil | name => cases hcall
    | call hrun => exact repeats_of_call hrun hpure
    | @select target member _ hselect =>
      cases hselect with
      | package hpackage =>
        rw [piece_source] at hpackage
        obtain ⟨target, span'⟩ := target
        obtain rfl := packageOf?_eq_some hpackage
        cases hcall
      | field _ hreceiver _ | wrapped _ hreceiver _ => exact ih target (.head _) _ hreceiver target _ rfl hpure hcall
    | index _ _ hindex => rcases hindex with rfl | rfl <;> cases hpure
    | binary | unary | tuple => cases hpure
  | @single _ _ e _ _ _ _ _ _ ih =>
    rintro _ _ ⟨⟩ hpure hcall
    exact ih e _ rfl hpure (by simpa [Source.Expr.hasCall, Source.Stmt.anyHasCall, Source.Stmt.hasCall] using hcall)
  | lambda | caseFunction | inPlace =>
    rintro _ _ ⟨⟩ hpure
    cases hpure
  | _ => rintro _ _ ⟨⟩

theorem repeats_of_isPureRead {e : Located Source.Expr} (h : (piece env e).value expected s = .ok v s')
    (hpure : v.isPureRead = true) (hcall : e.val.hasCall = true) : e.val.repeats env = true :=
  repeats_of_flow ((piece_flow env).value _ _ _ _ s.names h) e v rfl hpure hcall

/-! ## Evaluated once -/

def withCode (p : Piece) (code : Expr) (after : LowerState) : Piece := { p with value := fun _ _ => .ok code after }

/-- What is made around the piece `p`, in the statements that `wrap` holds: the code of `p` is evaluated
    first, into a new temporary, and what follows is the same whatever that code is. -/
def EvaluatesOnce {α : Type} (p : Piece) (run : Piece → Lower α) (wrap : List Stmt → α) (s : LowerState) (made : α)
    (s' : LowerState) : Prop :=
  ∃ tmp code rest before after, s.Alike before ∧ p.value none before = .ok code after ∧
    s.names.Taken s'.names tmp ∧ made = wrap (.define1 tmp code :: rest) ∧
    (∀ other, other.isPureRead = false → run (withCode p other after) s = .ok (wrap (.define1 tmp other :: rest)) s') ∧
    ∀ (m : Target.Machine) (bound : Nat) (st : Target.State m), Target.execAll bound (.define1 tmp code :: rest) st =
        .ofEval (m.eval code st.locals st.store) fun v store =>
          Target.execAll bound rest ⟨st.locals.define tmp (.value v), store⟩

theorem execAll_define1 {m : Target.Machine} {bound : Nat} (name : String) (value : Expr) (rest : List Stmt)
    {st : Target.State m} : Target.execAll bound (.define1 name value :: rest) st =
      .ofEval (m.eval value st.locals st.store) fun v store =>
        Target.execAll bound rest ⟨st.locals.define name (.value v), store⟩ := by
  rw [Target.execAll_cons]
  simp only [Stmt.define1, Target.exec, Target.execDefine, Target.evalDefine, Target.Machine.evalAll]
  cases m.eval value st.locals st.store <;> rfl

theorem bind_run {a : α} (h : x s = .ok a s1) (f : α → Lower β) : (x >>= f) s = f a s1 := by
  show EStateM.bind x f s = _
  rw [EStateM.bind, h]

theorem exists_ok {act : Lower α} (h : (match act s with
    | .ok _ _ => true
    | .error _ _ => false) = true) : ∃ a s', act s = .ok a s' := by
  cases hact : act s with
  | ok a s' => exact ⟨a, s', rfl⟩
  | error _ _ =>
    rw [hact] at h
    cases h

theorem nested_run {y : Lower β} {a : α} {b : β} (h : nested env span x s = .ok a s')
    (hx : x { s with depth := s.depth + 1 } = .ok a s1) (hy : y { s with depth := s.depth + 1 } = .ok b s1) :
    nested env span y s = .ok b s' := by
  unfold nested bracket at h ⊢
  split at h
  · cases h
  · rename_i hdepth
    rw [if_neg hdepth, hy]
    rw [hx] at h
    cases h
    rfl

theorem EvaluatesOnce.nested {run : Piece → Lower α} {wrap : List Stmt → α} {made : α}
    (h : nested env span (run p) s = .ok made s') (hrun : run p { s with depth := s.depth + 1 } = .ok made s1)
    (honce : EvaluatesOnce p run wrap { s with depth := s.depth + 1 } made s1) :
    EvaluatesOnce p (fun q => Lower.nested env span (run q)) wrap s made s' := by
  obtain ⟨tmp, code, rest, before, after, halike, hcode, htmp, hmade, hother, hexec⟩ := honce
  obtain ⟨s2, hrun', rfl⟩ := nested_bracket h
  obtain ⟨-, rfl⟩ := EStateM.Result.ok.inj (hrun.symm.trans hrun')
  exact ⟨tmp, code, rest, before, after, ⟨halike.scope, halike.typeParams⟩, hcode, htmp, hmade,
    fun other hpure => nested_run h hrun (hother other hpure), hexec⟩

theorem EvaluatesOnce.invoked {tail : Piece → Ty → Lower (List Stmt)}
    (h : invokeInPlace env source expected (tail p) s = .ok v s')
    (honce : ∀ {result s1 stmts s2}, tail p result s1 = .ok stmts s2 →
      EvaluatesOnce p (fun q => tail q result) id s1 stmts s2) :
    ∃ results, EvaluatesOnce p (fun q => invokeInPlace env source expected (tail q)) (.invoked results) s v s' := by
  obtain ⟨ty, s1, hty, h1⟩ := bind_ok h
  have hframed := (framed.inPlaceType mentionsAny).ok hty
  obtain ⟨hvoid, h2⟩ := check_ok h1
  obtain ⟨body, hfunction, rfl⟩ := map_ok h2
  obtain ⟨s3, hbody, rfl⟩ := bracket_ok hfunction
  obtain ⟨tmp, code, rest, before, after, halike, hcode, htmp, hmade, hother, hexec⟩ := honce hbody
  refine ⟨_, tmp, code, rest, before, after, ⟨?_, ?_⟩, hcode, ?_, congrArg _ hmade, fun other hpure => ?_, hexec⟩
  · exact halike.scope.trans hframed.scope
  · exact halike.typeParams.trans hframed.typeParams
  · exact htmp.widen hframed.names (Std.Refl.refl _)
  · dsimp only
    unfold invokeInPlace
    rw [bind_run hty]
    rw [if_neg hvoid]
    show EStateM.bind (withFunction _ _ _) _ _ = _
    unfold EStateM.bind withFunction bracket
    have hrun := hother other hpure
    dsimp only at hrun ⊢
    rw [hrun]
    rfl

theorem matchSubject_once {start : List Stmt} {value : Expr}
    (hcalls : ∀ {code s1 s2}, subject.value none s1 = .ok code s2 → code.isPureRead = false)
    (h : matchSubject subject s = .ok (start, value) s') :
    ∃ code after, subject.value none s = .ok code after ∧
      start = [.define1 after.names.fresh.1 code] ∧ value = .ident after.names.fresh.1 ∧
      s' = { after with names := after.names.fresh.2 } ∧
      ∀ other, other.isPureRead = false → matchSubject (withCode subject other after) s =
        .ok ([.define1 after.names.fresh.1 other], .ident after.names.fresh.1)
          { after with names := after.names.fresh.2 } := by
  obtain ⟨code, after, hcode, hrun⟩ := bind_ok h
  rw [if_neg (by simp [hcalls hcode])] at hrun
  obtain ⟨tmp, s1, hfresh, hpure⟩ := bind_ok hrun
  cases hfresh
  obtain ⟨hstart, rfl⟩ := pure_ok hpure
  obtain ⟨rfl, rfl⟩ := Prod.mk.inj hstart
  refine ⟨code, after, hcode, rfl, rfl, rfl, fun other hother => ?_⟩
  have hcode' : (withCode subject other after).value none s = .ok other after := rfl
  unfold matchSubject
  rw [bind_run hcode', if_neg (by simp [hother])]
  rfl

theorem lowerMatch_once (ht : subject.Tidy) {clauses : List ClausePiece} (hc : ∀ c ∈ clauses, c.Tidy)
    {position : Position} {stmts : List Stmt}
    (hcalls : ∀ {code s1 s2}, subject.value none s1 = .ok code s2 → code.isPureRead = false)
    (h : lowerMatch env subject clauses position span s = .ok stmts s') :
    EvaluatesOnce subject (fun p => lowerMatch env p clauses position span) id s stmts s' := by
  rw [lowerMatch_eq] at h
  obtain ⟨code, hmatch, rfl⟩ := map_ok h
  obtain ⟨⟨ty, coverage⟩, s2, hcheck, h1⟩ := bind_ok hmatch
  obtain ⟨-, rfl⟩ := checkMatch_ok hcheck
  obtain ⟨⟨start, value⟩, s3, hsubject, h2⟩ := bind_ok h1
  obtain ⟨flag, s4, hflag, h3⟩ := bind_ok h2
  obtain ⟨codes, hcodes, rfl⟩ := map_ok h3
  obtain ⟨lowered, after, hlowered, rfl, rfl, rfl, hother⟩ := matchSubject_once hcalls hsubject
  have hgrows := ((ht.value none).ok hlowered).names
  have hrest := ((framed.matchFlag.ok hflag).trans ((framed.clauseCodes hc).ok hcodes)).names
  refine ⟨after.names.fresh.1, lowered, MatchCode.stmts ⟨[], .ident after.names.fresh.1, flag, codes, ty,
      !codes.any ClauseCode.always && coverage.needsPanic⟩, s2, after, .refl, hlowered,
    ⟨after.names.next, hgrows.next, Nat.lt_of_lt_of_le (Nat.lt_succ_self _) hrest.next, by rw [← hgrows.stem]; rfl⟩,
    ?_, fun other hpure => ?_, fun m bound st => execAll_define1 _ _ _⟩
  · rfl
  · have hcheck' : checkMatch env (withCode subject other after) clauses position span s2 =
        .ok (ty, coverage) s2 := hcheck
    dsimp only
    rw [lowerMatch_eq]
    unfold matchCode
    simp only [bind_assoc]
    rw [bind_run hcheck']
    rw [bind_run (hother other hpure)]
    rw [bind_run hflag, bind_run hcodes]
    rfl

theorem callCopy_once {receiver : Piece} (ht : receiver.Tidy) {args : List ArgPiece}
    (hargs : TidyArgs args) (hcalls : ∀ {code s1 s2}, receiver.value none s1 = .ok code s2 → code.isPureRead = false)
    (h : callCopy env receiver ty owner args span s = .ok v s') :
    EvaluatesOnce receiver (fun p => callCopy env p ty owner args span) (.invoked [ty]) s v s' := by
  obtain ⟨overrides, s1, hoverrides, h1⟩ := bind_ok h
  obtain ⟨code, after, hcode, h2⟩ := bind_ok h1
  rw [if_neg (by simp [hcalls hcode])] at h2
  obtain ⟨tmp, s2, hfresh, h3⟩ := bind_ok h2
  cases hfresh
  obtain ⟨copy, hcopy, rfl⟩ := map_ok h3
  have hframed := (framed.copyOverrides hargs).ok hoverrides
  have hgrows := (hframed.trans ((ht.value none).ok hcode)).names
  have hend := (ofChecked_framed.ok hcopy).names
  refine ⟨after.names.fresh.1, code, [.ret1 copy], s1, after, hframed.alike, hcode,
    ⟨after.names.next, hgrows.next, Nat.lt_of_lt_of_le (Nat.lt_succ_self _) hend.next, by rw [← hgrows.stem]; rfl⟩,
    rfl, fun other hpure => ?_, fun m bound st => execAll_define1 _ _ _⟩
  have hcode' : (withCode receiver other after).value none s1 = .ok other after := rfl
  dsimp only
  unfold callCopy
  rw [bind_run hoverrides, bind_run hcode', if_neg (by simp [hpure])]
  show (ofChecked _ >>= _) { after with names := after.names.fresh.2 } = _
  rw [bind_run hcopy]
  rfl

/-- Subjects of matches and receivers of copies that contain a call, other than one of `Get` that is taken
    for a read of the wrapper, are evaluated once, in every position of the match. -/
theorem subject_evaluated_once (env : Env) (subject : Located Source.Expr) (hcall : subject.val.hasCall = true)
    (hget : subject.val.repeats env = false) :
    (∀ clauses span result s stmts s',
      (piece env ⟨.matchOn subject clauses, span⟩).tail result s = .ok stmts s' →
      EvaluatesOnce (piece env subject)
        (fun p => (matchPiece env ⟨.matchOn subject clauses, span⟩ p (clausePieces env clauses)).tail result) id
        s stmts s') ∧
    (∀ clauses span s stmts s',
      (piece env ⟨.matchOn subject clauses, span⟩).effect s = .ok stmts s' →
      EvaluatesOnce (piece env subject)
        (fun p => (matchPiece env ⟨.matchOn subject clauses, span⟩ p (clausePieces env clauses)).effect) id
        s stmts s') ∧
    (∀ clauses span expected s v s',
      (piece env ⟨.matchOn subject clauses, span⟩).value expected s = .ok v s' →
      ∃ results, EvaluatesOnce (piece env subject)
        (fun p => (matchPiece env ⟨.matchOn subject clauses, span⟩ p (clausePieces env clauses)).value expected)
        (.invoked results) s v s') ∧
    ∀ member span' typeArgs args span ty owner expected s v s',
      (⟨env, s.typeParams⟩ : Inference).callee s.scope ⟨.select subject member, span'⟩ = .copy ty owner →
      (piece env ⟨.call ⟨.select subject member, span'⟩ typeArgs args, span⟩).value expected s = .ok v s' →
      EvaluatesOnce (piece env subject)
        (fun p => nested env span (callCopy env p ty owner (argPieces env args) span)) (.invoked [ty]) s v s' := by
  have hcalls : ∀ {code s₁ s₂}, (piece env subject).value none s₁ = .ok code s₂ → code.isPureRead = false := by
    intro code s₁ s₂ hcode
    cases hpure : code.isPureRead with
    | false => rfl
    | true => rw [repeats_of_isPureRead hcode hpure hcall] at hget; cases hget
  have hmatch : ∀ {clauses position span s stmts s'},
      lowerMatch env (piece env subject) (clausePieces env clauses) position span s = .ok stmts s' →
      EvaluatesOnce (piece env subject) (fun p => lowerMatch env p (clausePieces env clauses) position span) id
        s stmts s' := fun {clauses} => lowerMatch_once (piece_tidy env subject) clausePieces_tidy hcalls
  have heffect : ∀ clauses span s stmts s', (piece env ⟨.matchOn subject clauses, span⟩).effect s = .ok stmts s' →
      EvaluatesOnce (piece env subject)
        (fun p => (matchPiece env ⟨.matchOn subject clauses, span⟩ p (clausePieces env clauses)).effect) id
        s stmts s' := by
    intro clauses span s stmts s' h
    obtain ⟨s₁, hrun⟩ := nested_ok h
    exact EvaluatesOnce.nested h hrun (hmatch hrun)
  have htail : ∀ clauses span result s stmts s',
      (piece env ⟨.matchOn subject clauses, span⟩).tail result s = .ok stmts s' →
      EvaluatesOnce (piece env subject)
        (fun p => (matchPiece env ⟨.matchOn subject clauses, span⟩ p (clausePieces env clauses)).tail result) id
        s stmts s' := by
    intro clauses span result s stmts s' h
    simp only [piece, matchPiece, Piece.ofStmts] at h ⊢
    by_cases hvoid : result.isVoid = true
    · simp only [if_pos hvoid] at h ⊢
      obtain ⟨s₁, hrun⟩ := nested_ok h
      exact EvaluatesOnce.nested h hrun (hmatch hrun)
    · simp only [if_neg hvoid] at h ⊢
      obtain ⟨s₁, hrun⟩ := nested_ok h
      exact EvaluatesOnce.nested h hrun (hmatch hrun)
  refine ⟨htail, heffect, fun clauses span expected s v s' h => ?_, ?_⟩
  · have hinvoked := h
    obtain ⟨s₁, hrun⟩ := nested_ok hinvoked
    have honce : ∃ results, EvaluatesOnce (piece env subject) (fun p => invokeInPlace env ⟨.matchOn subject clauses, span⟩
        expected (matchPiece env ⟨.matchOn subject clauses, span⟩ p (clausePieces env clauses)).tail)
        (.invoked results) { s with depth := s.depth + 1 } v s₁ := by
      refine EvaluatesOnce.invoked hrun fun {result s₂ stmts s₃} hbody => htail clauses span result s₂ stmts s₃ ?_
      exact hbody
    obtain ⟨results, honce⟩ := honce
    exact ⟨results, EvaluatesOnce.nested hinvoked hrun honce⟩
  · intro member span' typeArgs args span ty owner expected s v s' hcopy h
    have hcall : nested env span (lowerCall env (piece env ⟨.select subject member, span'⟩) typeArgs
        (argPieces env args) expected span) s = .ok v s' := by
      exact h
    have hrun : nested env span (callCopy env (piece env subject) ty owner (argPieces env args) span) s = .ok v s' := by
      obtain ⟨s₁, hlower⟩ := nested_ok hcall
      refine nested_run hcall hlower ?_
      unfold lowerCall at hlower
      rw [bind_run askCalleeOf_run, piece_source, hcopy] at hlower
      exact hlower
    obtain ⟨s₁, hcopied⟩ := nested_ok hrun
    exact EvaluatesOnce.nested hrun hcopied
      (callCopy_once (piece_tidy env subject) argPieces_tidy hcalls hcopied)

/-! ## Calls of `Get` are repeated -/

/-- `c.method()` -/
def countCall (method : String) : Located Source.Expr :=
  unlocated (.call (unlocated (.select (unlocated (.ident "c")) (unlocated method))) [] [])

/-- `case 1 => 10; case 2 => 20; case _ => 0` -/
def countClauses : List Source.Clause :=
  [⟨unlocated (.literal (.int 1)), none, unlocated (.lit (.int 10))⟩,
    ⟨unlocated (.literal (.int 2)), none, unlocated (.lit (.int 20))⟩,
    ⟨unlocated .wildcard, none, unlocated (.lit (.int 0))⟩]

/-- `c.method() match { case 1 => 10; case 2 => 20; case _ => 0 }` -/
def countMatch (method : String) : Located Source.Expr := unlocated (.matchOn (countCall method) countClauses)

/-- A counter with a method to read it, and `f`, which matches on what it reads. -/
def countProgram (method : String) : Source.Program where
  package := "main"
  decls := [ unlocated (.struct ⟨unlocated "Counter", [], [⟨unlocated "n", .int, true⟩], .synthetic⟩),
    unlocated (.func ⟨unlocated method, [], some ⟨"c", .pointer (.own "Counter")⟩, [], some .int,
      unlocated (.select (unlocated (.ident "c")) (unlocated "n")), .synthetic⟩),
    unlocated (.func ⟨unlocated "f", [], none, [⟨unlocated "c", .pointer (.own "Counter")⟩], some .int,
      countMatch method, .synthetic⟩)]

def countEnv (method : String) : Env := ⟨(Index.build (countProgram method) "std").toOption.getD .empty, .empty, .standard⟩

/-- The state with `c` bound to a counter. -/
def countState (method : String) : LowerState :=
  { LowerState.start (countEnv method) with scope := Scope.new.enter.bind "c" .val (.pointer (.own "Counter")) }

/-- `c.Next()` is called once, before the tests. -/
theorem count_evaluated_once : (countCall "Next").val.hasCall = true ∧
    (countCall "Next").val.repeats (countEnv "Next") = false ∧
    ∃ stmts s', (piece (countEnv "Next") (countMatch "Next")).tail .int (countState "Next") = .ok stmts s' ∧
      EvaluatesOnce (piece (countEnv "Next") (countCall "Next"))
        (fun p => (matchPiece (countEnv "Next") (countMatch "Next") p (clausePieces (countEnv "Next") countClauses)).tail
          .int) id (countState "Next") stmts s' := by
  have hget : (countCall "Next").val.repeats (countEnv "Next") = false := by decide +kernel
  obtain ⟨stmts, s', hrun⟩ : ∃ stmts s', (piece (countEnv "Next") (countMatch "Next")).tail .int (countState "Next") =
      .ok stmts s' := exists_ok (by decide +kernel)
  exact ⟨rfl, hget, stmts, s', hrun, (subject_evaluated_once _ _ rfl hget).1 _ _ _ _ _ _ hrun⟩

def callsMethod (method : String) : Target.Node → Bool
  | .expr (.call (.selector _ sel) _ _) => sel == method
  | _ => false

def definesLocal : Target.Node → Bool
  | .stmt (.define _ _) => true
  | _ => false

/-- A method `Get` that makes a pair of two numbers, and `f`, which copies what it makes: `h.Get().Copy()`. -/
def pairProgram : Source.Program where
  package := "main"
  decls := [
    unlocated (.struct ⟨unlocated "Pair", [], [⟨unlocated "a", .int, true⟩, ⟨unlocated "b", .int, true⟩], .synthetic⟩),
    unlocated (.struct ⟨unlocated "Holder", [], [], .synthetic⟩),
    unlocated (.func ⟨unlocated "Get", [], some ⟨"h", .own "Holder"⟩, [], some (.own "Pair"),
      unlocated (.call (unlocated (.ident "Pair")) [] [⟨none, unlocated (.lit (.int 1))⟩, ⟨none, unlocated (.lit (.int 2))⟩]),
      .synthetic⟩),
    unlocated (.func ⟨unlocated "f", [], none, [⟨unlocated "h", .own "Holder"⟩], some (.own "Pair"),
      unlocated (.call (unlocated (.select (unlocated (.call (unlocated (.select (unlocated (.ident "h"))
        (unlocated "Get"))) [] [])) (unlocated "Copy"))) [] []), .synthetic⟩)]

/-- A call of `Get` stands in both tests of the match and in both fields of the copy, and in no definition. -/
theorem get_called_twice : (countCall "Get").val.hasCall = true ∧
    ∀ program ∈ [countProgram "Get", pairProgram], ∃ file, lowerProgram program .empty .standard = .ok file ∧
      file.nodes.countP (callsMethod "Get") = 2 ∧ file.nodes.any definesLocal = false := by
  have hcalls : ∀ {program}, ((lowerProgram program .empty .standard).toOption.any fun file =>
      file.nodes.countP (callsMethod "Get") == 2 && !file.nodes.any definesLocal) = true →
      ∃ file, lowerProgram program .empty .standard = .ok file ∧
        file.nodes.countP (callsMethod "Get") = 2 ∧ file.nodes.any definesLocal = false := by
    intro program h
    obtain ⟨file, hfile, hnodes⟩ := exists_of_any h
    simp only [Bool.and_eq_true, beq_iff_eq, Bool.not_eq_true'] at hnodes
    exact ⟨file, hfile, hnodes⟩
  refine ⟨rfl, List.forall_mem_cons.mpr ⟨hcalls ?_, List.forall_mem_singleton.mpr (hcalls ?_)⟩⟩ <;> decide +kernel

end Lower

end Lowering
