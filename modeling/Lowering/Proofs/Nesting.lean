/-
  Nesting — how deep a program may nest.

  Lowering counts how deep it has come in expressions and fails at the limit. Between two expressions that are
  counted stand at most three nodes that are not. Loops are not counted, and what stands behind a clause that is
  lowered to code without a test is not lowered at all. Proved here:

  - `lowerProgram_nesting`: everything else nests no deeper than the limit allows;
  - `nesting_unbounded`: loops nest as deep as they like, and so do clauses that are not lowered.
-/

import Lowering.Proofs.Distinct
import Lowering.Proofs.Globals
import Lowering.Proofs.Indexed

namespace Lowering

namespace Source

section

variable (cut : Clause → Bool)

mutual

/-- How many expressions and statements stand in each other. A loop counts for nothing, and what stands behind a
    clause that is cut is not looked at. -/
@[simp] def Expr.nesting : Expr → Nat
  | .lit _ => 1
  | .nil => 1
  | .ident _ => 1
  | .call ⟨callee, _⟩ _ args => 1 + max callee.nesting (Arg.nestingOf args)
  | .select ⟨target, _⟩ _ => 1 + target.nesting
  | .index ⟨target, _⟩ ⟨i, _⟩ => 1 + max target.nesting i.nesting
  | .binary ⟨left, _⟩ _ ⟨right, _⟩ => 1 + max left.nesting right.nesting
  | .unary _ ⟨operand, _⟩ => 1 + operand.nesting
  | .lambda _ ⟨body, _⟩ => 1 + body.nesting
  | .ifElse ⟨cond, _⟩ ⟨thenBranch, _⟩ none => 1 + max cond.nesting thenBranch.nesting
  | .ifElse ⟨cond, _⟩ ⟨thenBranch, _⟩ (some ⟨elseBranch, _⟩) =>
    1 + max cond.nesting (max thenBranch.nesting elseBranch.nesting)
  | .matchOn ⟨subject, _⟩ clauses => 1 + max subject.nesting (Clause.nestingOf clauses)
  | .tuple elems => 1 + Expr.nestingOf elems
  | .caseFunction clauses => 1 + Clause.nestingOf clauses
  | .block stmts => 1 + Stmt.nestingOf stmts

@[simp] def Expr.nestingOf : List (Located Expr) → Nat
  | [] => 0
  | ⟨e, _⟩ :: es => max e.nesting (Expr.nestingOf es)

@[simp] def Arg.nestingOf : List Arg → Nat
  | [] => 0
  | ⟨_, ⟨value, _⟩⟩ :: args => max value.nesting (Arg.nestingOf args)

@[simp] def Clause.nesting : Clause → Nat
  | ⟨_, none, ⟨body, _⟩⟩ => body.nesting
  | ⟨_, some ⟨guard, _⟩, ⟨body, _⟩⟩ => max guard.nesting body.nesting

@[simp] def Clause.nestingOf : List Clause → Nat
  | [] => 0
  | c :: cs => max c.nesting (if cut c then 0 else Clause.nestingOf cs)

@[simp] def Stmt.nesting : Stmt → Nat
  | .val ⟨_, _, _, ⟨value, _⟩⟩ => 1 + value.nesting
  | .assign ⟨target, _⟩ _ ⟨value, _⟩ => 1 + max target.nesting value.nesting
  | .expr ⟨e, _⟩ => 1 + e.nesting
  | .ret none => 1
  | .ret (some ⟨value, _⟩) => 1 + value.nesting
  | .loop ⟨cond, _⟩ body => max cond.nesting (Stmt.nestingOf body)

@[simp] def Stmt.nestingOf : List (Located Stmt) → Nat
  | [] => 0
  | ⟨s, _⟩ :: ss => max s.nesting (Stmt.nestingOf ss)

end

def Decl.nesting : Decl → Nat
  | .val d => d.value.val.nesting cut
  | .func d => d.body.val.nesting cut
  | _ => 0

end

variable {cut : Clause → Bool} {bound : Nat}

theorem Expr.nestingOf_le {es : List (Located Expr)} (h : ∀ e ∈ es, e.val.nesting cut ≤ bound) :
    Expr.nestingOf cut es ≤ bound := by
  induction es with
  | nil => exact Nat.zero_le _
  | cons e es ih =>
    obtain ⟨he, hes⟩ := List.forall_mem_cons.mp h
    exact Nat.max_le.mpr ⟨he, ih hes⟩

theorem Arg.nestingOf_le {args : List Arg} (h : ∀ a ∈ args, a.value.val.nesting cut ≤ bound) :
    Arg.nestingOf cut args ≤ bound := by
  induction args with
  | nil => exact Nat.zero_le _
  | cons a args ih =>
    obtain ⟨ha, hargs⟩ := List.forall_mem_cons.mp h
    obtain ⟨name, value⟩ := a
    exact Nat.max_le.mpr ⟨ha, ih hargs⟩

theorem Clause.nesting_le {c : Clause} (hguard : ∀ g ∈ c.guard, g.val.nesting cut ≤ bound)
    (hbody : c.body.val.nesting cut ≤ bound) : c.nesting cut ≤ bound := by
  obtain ⟨pattern, guard, body⟩ := c
  cases guard with
  | none => exact hbody
  | some guard => exact Nat.max_le.mpr ⟨hguard guard rfl, hbody⟩

end Source

open Lower (bindGlobals clausePieces clauseState matchCode piece stmtPiece)
open Target (Expr Stmt)

def Callee.isNamed : Callee → Bool
  | .function _ | .constructor _ | .companion _ | .conversion _ => true
  | _ => false

namespace Lower

variable {env : Env} {s s' : LowerState} {cut : Source.Clause → Bool}

/-! ## Calls -/

variable {args : List ArgPiece} {v : Expr} {callee : Located Source.Expr} {found : Callee} {inf : Inference}
  {scope : Scope}

theorem CallCode.arg_gives {callee : Piece} (h : CallCode env s s' callee args v) :
    ∀ a ∈ args, ∃ v, a.value.Gives s v := by
  cases h with
  | function _ hargs | companion _ hargs | method _ _ hargs | extracted _ _ _ hargs | builtin _ _ hargs | value _ hargs
  | copy _ _ _ hargs | copyOnce _ _ _ _ hargs =>
    exact fun a ha => (exists_of_forall₂ hargs a ha).imp fun _ hv => hv.2
  | struct _ hargs => exact hargs
  | conversion _ hargs hv =>
    subst hargs
    exact List.forall_mem_singleton.mpr ⟨_, hv⟩

theorem nesting_of_named (h : inf.callee scope callee = found) (hnamed : found.isNamed = true) :
    callee.val.nesting cut ≤ 2 := by
  obtain ⟨e, span⟩ := callee
  cases calledAs h with
  | name | qualified => simp [Source.Expr.nesting]
  | value => cases hnamed
  | member hmember => cases hmember <;> cases hnamed

theorem select_of_member (h : inf.callee scope callee = found)
    (hmember : (∃ ty owner name m, found = .method ty owner name m) ∨ ∃ ty owner, found = .copy ty owner) :
    ∃ target member, callee.val = .select target member := by
  obtain ⟨e, span⟩ := callee
  cases calledAs h with
  | qualified | member => exact ⟨_, _, rfl⟩
  | value => rcases hmember with ⟨_, _, _, _, heq⟩ | ⟨_, _, heq⟩ <;> cases heq
  | name hnamed => rcases hmember with ⟨_, _, _, _, rfl⟩ | ⟨_, _, rfl⟩ <;> cases hnamed

theorem CallCode.callee_gives (h : CallCode env s s' (piece env callee) args v) : callee.val.nesting cut ≤ 2 ∨
      ∃ p ∈ callee :: callee.val.parts, callee.val.nesting cut ≤ 1 + p.val.nesting cut ∧
        ∃ v, (piece env p).Gives s v := by
  have hreceiver : ∀ {found : Callee} {r : Expr}, s.callee env (piece env callee).source = found →
      ((∃ ty owner name m, found = .method ty owner name m) ∨ ∃ ty owner, found = .copy ty owner) →
      (receiverOf (piece env callee)).Gives s r → ∃ p ∈ callee :: callee.val.parts,
        callee.val.nesting cut ≤ 1 + p.val.nesting cut ∧ ∃ v, (piece env p).Gives s v := by
    intro found r hfound hmember hr
    rw [piece_source] at hfound
    obtain ⟨target, member, hselect⟩ := select_of_member hfound hmember
    have hparts := piece_parts env callee
    rw [hselect] at hparts
    rw [receiverOf, hparts] at hr
    exact ⟨target, by simp [hselect, Source.Expr.parts], by simp [hselect, Source.Expr.nesting], r, hr⟩
  have hsource := piece_source env callee
  cases h with
  | function hcallee | struct hcallee | companion hcallee | conversion hcallee =>
    exact .inl (nesting_of_named (hsource ▸ hcallee) rfl)
  | method hcallee hr | extracted hcallee _ hr => exact .inr (hreceiver hcallee (.inl ⟨_, _, _, _, rfl⟩) hr)
  | copy hcallee hr | copyOnce hcallee hr => exact .inr (hreceiver hcallee (.inr ⟨_, _, rfl⟩) hr)
  | builtin hname =>
    rw [hsource] at hname
    exact .inl (by simp [hname, Source.Expr.nesting])
  | value hfunction => exact .inr ⟨callee, .head _, Nat.le_add_left _ _, _, hfunction⟩

/-! ## Clauses -/

theorem ClauseFrom.guard_gives {c : Source.Clause} {subject : Expr} {ty : Ty} {code : ClauseCode}
    {st : Match.CompileState} {cond : Option Expr} (h : ClauseFrom env c subject ty s code st cond)
    {g : Located Source.Expr} (hg : g ∈ c.guard) : ∃ v, (piece env g).Gives (clauseState s st) v := by
  cases cond with
  | none =>
    have hnone := h.unguarded
    rw [hg] at hnone
    cases hnone
  | some v =>
    obtain ⟨g', hg', s1, hv⟩ := h.guard v rfl
    cases hg.symm.trans hg'
    exact ⟨v, .intro hv⟩

/-! ## Statements -/

theorem LocalCode.gives {decl : Source.ValDecl} {value : Piece} {stmts : List Stmt}
    (h : LocalCode env s decl value stmts) : ∃ v, value.Gives s v := by
  cases h with
  | var hv | val hv => exact ⟨_, hv⟩

theorem nesting_of_place {target : Located Source.Expr} {span : Span} {place : Expr × Ty}
    (h : assignTarget env (piece env target) span s = .ok place s') (hs : s.depth ≤ env.settings.maxDepth)
    (hparts : ∀ p ∈ target.val.parts, ∀ v, (piece env p).Gives s v →
      p.val.nesting cut + 4 * s.depth ≤ 4 * env.settings.maxDepth) :
    target.val.nesting cut + 4 * s.depth ≤ 4 * env.settings.maxDepth + 1 := by
  obtain ⟨place, ty⟩ := place
  have hsource := piece_source env target
  have heq := piece_parts env target
  have hrun := assignTarget_run h
  obtain ⟨e, span'⟩ := target
  cases hrun with
  | name hname =>
    rw [hsource] at hname
    cases hname
    simp only [Source.Expr.nesting]
    omega
  | field hname hp _ hv =>
    rw [hsource] at hname
    cases hname
    cases heq.symm.trans hp
    have := hparts _ (.head _) _ (.intro hv)
    rw [Source.Expr.nesting]
    omega
  | element hname hp _ hx hi =>
    rw [hsource] at hname
    cases hname
    cases heq.symm.trans hp
    have hframed := ((piece_tidy env _).value none).ok hx
    have := hparts _ (.head _) _ (.intro hx)
    have := hparts _ (.tail _ (.head _)) _ ((Piece.Gives.intro hi).of_framed hframed)
    rw [Source.Expr.nesting]
    omega

end Lower

/-! ## Where lowering comes -/

/-- The parts of an expression that are lowered in the scope of the expression, besides its operands. -/
def Source.Expr.branches : Source.Expr → List (Located Source.Expr)
  | .ifElse cond thenBranch elseBranch => cond :: thenBranch :: elseBranch.toList
  | .matchOn subject _ => [subject]
  | .block [⟨.expr e, _⟩] => [e]
  | _ => []

def Source.Stmt.exprs : Source.Stmt → List (Located Source.Expr)
  | .val d => [d.value]
  | .assign target _ value => value :: target.val.parts
  | .expr e => [e]
  | .ret value => value.toList
  | .loop cond _ => [cond]

def Source.FuncDecl.bindings (d : Source.FuncDecl) : List (String × Ty) :=
  d.receiver.toList.map (fun r => (r.name, r.ty)) ++ d.params.map fun p => (p.name.val, p.ty)

/-- The type parameters that the body of a function may use. -/
def Source.FuncDecl.scoped (env : Env) (d : Source.FuncDecl) : List String :=
  match d.receiver with
  | none => Source.typeParamNames d.typeParams
  | some receiver =>
    match Lower.methodForm env receiver d.name.val with
    | .keep => receiverParams receiver.ty
    | .extract _ _ kept => receiverParams receiver.ty ++ Lower.ownParams d kept

inductive Spot where
  | expr (e : Located Source.Expr)
  /-- Clauses of a match on a value of the type. -/
  | clauses (subject : Expr) (ty : Ty) (clauses : List Source.Clause)
  | stmts (stmts : List (Located Source.Stmt))

/-- Lowering the program comes to the spot in the state, up to names taken from the supply. A lambda may be lowered
    against any type that it can be lowered against. -/
inductive Reached (program : Source.Program) (env : Env) : LowerState → Spot → Prop
  | func {d span s} (hd : ⟨.func d, span⟩ ∈ program.decls) (hs : bindGlobals env program.decls (.start env) = .ok () s) :
    Reached program env { s with scope := s.scope.enter.bindAll d.bindings, typeParams := d.scoped env } (.expr d.body)
  | val {d span s} (hd : ⟨.val d, span⟩ ∈ program.decls) (hs : bindGlobals env program.decls (.start env) = .ok () s) :
    Reached program env s (.expr d.value)
  | alike {s s' spot} (h : Reached program env s spot) (hs : s.Alike s') : Reached program env s' spot
  | part {s e p} (hp : p ∈ e.val.operands ++ e.val.branches) (h : Reached program env s (.expr e)) :
    Reached program env s (.expr p)
  | block {s stmts span} (h : Reached program env s (.expr ⟨.block stmts, span⟩)) :
    Reached program env { s with scope := s.scope.enter } (.stmts stmts)
  | lambda {s params body span fields results out}
    (hgives : (piece env ⟨.lambda params body, span⟩).Gives s (.funcLit fields results out))
    (h : Reached program env s (.expr ⟨.lambda params body, span⟩)) :
    Reached program env (s.inLambda (fields.map fun f => (f.name, f.ty))) (.expr body)
  | caseFunction {s cs span x param results out}
    (hgives : (piece env ⟨.caseFunction cs, span⟩).Gives s (.funcLit [⟨x, param⟩] results out))
    (h : Reached program env s (.expr ⟨.caseFunction cs, span⟩)) :
    Reached program env { s with scope := s.scope.enter.bind x .val param } (.expr ⟨.matchOn ⟨.ident x, span⟩ cs, span⟩)
  | matchOn {s subject cs position span span' code s'}
    (hcode : matchCode env (piece env subject) (clausePieces env cs) position span' s = .ok code s')
    (h : Reached program env s (.expr ⟨.matchOn subject cs, span⟩)) :
    Reached program env s (.clauses code.value code.ty cs)
  | clause {s subject ty c cs st p} (hst : Match.compileInto env c.pattern subject ty ⟨s.names, [], []⟩ = .ok () st)
    (hp : p ∈ c.body :: c.guard.toList) (h : Reached program env s (.clauses subject ty (c :: cs))) :
    Reached program env (clauseState s st) (.expr p)
  | later {s subject ty c cs} (h : Reached program env s (.clauses subject ty (c :: cs))) :
    Reached program env s (.clauses subject ty cs)
  | stmt {s stmt later p} (h : Reached program env s (.stmts (stmt :: later))) (hp : p ∈ stmt.val.exprs) :
    Reached program env s (.expr p)
  | loop {s cond body span later} (h : Reached program env s (.stmts (⟨.loop cond body, span⟩ :: later))) :
    Reached program env { s with scope := s.scope.enter } (.stmts body)
  | next {s stmt later out s'} (hrun : (stmtPiece env stmt).run (later.map (·.val)) s = .ok out s')
    (h : Reached program env s (.stmts (stmt :: later))) : Reached program env s' (.stmts later)

/-- Where it is lowered, the clause has no guard and its pattern needs no test, so clauses behind it are dropped. -/
def Drops (program : Source.Program) (env : Env) (c : Source.Clause) : Prop :=
  ∃ s subject ty cs st, Reached program env s (.clauses subject ty (c :: cs)) ∧ c.guard.isNone = true ∧
    Match.compileInto env c.pattern subject ty ⟨s.names, [], []⟩ = .ok () st ∧ st.steps.any Match.Step.isTest = false

def Task.Reached (program : Source.Program) (env : Env) (s : LowerState) : Task → Prop
  | .value e _ | .expr e | .body e => Lowering.Reached program env s (.expr e)
  | .matchOn subject cs => ∃ span, Lowering.Reached program env s (.expr ⟨.matchOn subject cs, span⟩)
  | .clauses subject ty _ cs _ => Lowering.Reached program env s (.clauses subject ty cs)
  | .stmts ss => Lowering.Reached program env s (.stmts ss)
  | .stmt _ st => ∃ later, Lowering.Reached program env s (.stmts (st :: later))

theorem Task.Reached.alike {program : Source.Program} {env : Env} {s s' : LowerState} {task : Task}
    (h : task.Reached program env s) (hs : s.Alike s') : task.Reached program env s' := by
  cases task with
  | matchOn | stmt => exact h.imp fun _ h => h.alike hs
  | _ => exact Lowering.Reached.alike h hs

/-! ## Code -/

namespace Task

/-- How deep the source nests that is lowered. -/
def nesting (cut : Source.Clause → Bool) : Task → Nat
  | .value e _ => e.val.nesting cut
  | .expr e => e.val.nesting cut
  | .body e => e.val.nesting cut
  | .matchOn subject cs => max (subject.val.nesting cut) (Source.Clause.nestingOf cut cs)
  | .clauses _ _ _ cs _ => Source.Clause.nestingOf cut cs
  | .stmts ss => Source.Stmt.nestingOf cut ss
  | .stmt _ st => st.val.nesting cut

/-- What stands between a task and the next expression that is counted. -/
def uncounted : Task → Nat
  | .body _ => 3
  | .stmts _ => 2
  | .stmt _ _ => 2
  | _ => 0

end Task

section

variable {program : Source.Program} {env : Env} {s s1 s' : LowerState} {cut : Source.Clause → Bool}

theorem Lower.ValueCode.nesting {e : Source.Expr} {v : Expr} (hcode : ValueCode env s s' e v)
    (h : ∀ p ∈ e.operands, ∀ v, (piece env p).Gives s v → p.val.nesting cut + 4 * s.depth ≤ 4 * env.settings.maxDepth)
    (hs : s.depth ≤ env.settings.maxDepth) : e.nesting cut + 4 * s.depth ≤ 4 * env.settings.maxDepth + 4 := by
  cases hcode with
  | lit | nil | name =>
    simp only [Source.Expr.nesting]
    omega
  | @call callee typeArgs args _ hcall =>
    have hargs : Source.Arg.nestingOf cut args ≤ 4 * (env.settings.maxDepth - s.depth) := by
      refine Source.Arg.nestingOf_le fun a ha => ?_
      obtain ⟨v, hv⟩ := hcall.arg_gives ⟨a.name, piece env a.value⟩ (by rw [argPieces_eq]; exact List.mem_map_of_mem ha)
      have := h a.value (List.mem_append_right _ (List.mem_map.mpr ⟨a, ha, rfl⟩)) v hv
      omega
    rw [Source.Expr.nesting]
    have hcallee : callee.val.nesting cut ≤ 2 ∨ _ := hcall.callee_gives
    rcases hcallee with hpath | ⟨p, hp, hnesting, v, hv⟩
    · omega
    · have := h p (List.mem_append_left _ hp) v hv
      omega
  | @select target member _ hselect =>
    rw [Source.Expr.nesting]
    cases hselect with
    | package hpackage =>
      rw [piece_source] at hpackage
      rw [packageOf?_eq_some hpackage, Source.Expr.nesting]
      omega
    | field _ hv | wrapped _ hv =>
      have := h target (.head _) _ hv
      omega
  | @index target i _ _ _ hx hi =>
    have := h target (.head _) _ hx
    have := h i (.tail _ (.head _)) _ hi
    rw [Source.Expr.nesting]
    omega
  | @binary left right op _ _ hl hr =>
    have := h left (.head _) _ hl
    have := h right (.tail _ (.head _)) _ hr
    rw [Source.Expr.nesting]
    omega
  | @unary operand op _ hx =>
    have := h operand (.head _) _ hx
    rw [Source.Expr.nesting]
    omega
  | @tuple elems ty elements hgives =>
    have helems : Source.Expr.nestingOf cut elems ≤ 4 * (env.settings.maxDepth - s.depth) := by
      refine Source.Expr.nestingOf_le fun e he => ?_
      obtain ⟨el, -, hv⟩ := exists_of_forall₂ hgives e he
      have := h e he _ hv
      omega
    rw [Source.Expr.nesting]
    omega

theorem Flow.nesting {tail : Bool} {task : Task} {out : List Stmt} {names : NameSupply}
    (hcut : ∀ c, Drops program env c → cut c = true) (h : Flow env s tail task out names)
    (hs : s.depth ≤ env.settings.maxDepth) (hr : task.Reached program env s) :
    task.nesting cut + 4 * s.depth ≤ 4 * env.settings.maxDepth + task.uncounted := by
  induction h with
  | reached hframed _ ih =>
    have hdepth := hframed.depth
    have := ih (hdepth ▸ hs) (hr.alike hframed.alike)
    omega
  | operand hbelow hcode _ ih =>
    have hlimit := hbelow.limit
    have := hcode.nesting (fun p hp v hv => ih p hp v hv hlimit
      (Reached.part (List.mem_append_left _ hp) (Reached.alike hr hbelow.toAlike))) hlimit
    have := hbelow.depth
    simp only [Task.nesting, Task.uncounted]
    omega
  | lambda hbelow hgives _ ih =>
    have hinside := Reached.lambda hgives hr
    have := ih hbelow.limit (hinside.alike ⟨by simp only [LowerState.inLambda, hbelow.scope], hbelow.typeParams⟩)
    have := hbelow.depth
    simp only [Task.nesting, Task.uncounted, Source.Expr.nesting, LowerState.inLambda] at *
    omega
  | caseFunction hbelow hgives _ ih =>
    have hinside := Reached.caseFunction hgives hr
    have := ih hbelow.limit ⟨_, hinside.alike ⟨by simp only [Lower.caseState, hbelow.scope], hbelow.typeParams⟩⟩
    have := hbelow.depth
    simp only [Task.nesting, Task.uncounted, Source.Expr.nesting, Lower.caseState] at *
    omega
  | inPlace hbelow _ _ ih | dropped _ _ hbelow _ _ _ ih | returned _ hbelow _ _ ih | braces hbelow _ ih =>
    have := ih hbelow.limit (Reached.alike hr ⟨hbelow.scope, hbelow.typeParams⟩)
    have := hbelow.depth
    simp only [Task.nesting, Task.uncounted] at *
    omega
  | single hbelow _ ih =>
    have := ih hbelow.limit (Reached.part (.head _) (Reached.alike hr hbelow.toAlike))
    have := hbelow.depth
    simp only [Task.nesting, Task.uncounted, Source.Expr.nesting, Source.Stmt.nestingOf, Source.Stmt.nesting] at *
    omega
  | matched hbelow _ ih =>
    have := ih hbelow.limit ⟨_, Reached.alike hr hbelow.toAlike⟩
    have := hbelow.depth
    simp only [Task.nesting, Task.uncounted, Source.Expr.nesting] at *
    omega
  | ifElse hbelow _ _ hframed _ ihc iht ihe =>
    have hdepth := hframed.depth
    have hr := hr.alike hbelow.toAlike
    have := ihc hbelow.limit (Reached.part (.head _) hr)
    have := iht hbelow.limit (Reached.part (.tail _ (.head _)) hr)
    have := ihe (hdepth ▸ hbelow.limit) (Reached.part (.tail _ (.tail _ (.head _))) (hr.alike hframed.alike))
    have := hbelow.depth
    simp only [Task.nesting, Task.uncounted, Source.Expr.nesting] at *
    omega
  | ifOnly hbelow _ _ ihc iht =>
    have hr := hr.alike hbelow.toAlike
    have := ihc hbelow.limit (Reached.part (.head _) hr)
    have := iht hbelow.limit (Reached.part (.tail _ (.head _)) hr)
    have := hbelow.depth
    simp only [Task.nesting, Task.uncounted, Source.Expr.nesting] at *
    omega
  | bodyExpr _ _ ih =>
    have := ih hs hr
    simp only [Task.nesting, Task.uncounted] at *
    omega
  | bodyBlock _ _ ih =>
    have := ih hs (Reached.block hr)
    simp only [Task.nesting, Task.uncounted, Source.Expr.nesting] at *
    omega
  | result _ ih =>
    have := ih hs (Reached.stmt hr (.head _))
    simp only [Task.nesting, Task.uncounted, Source.Stmt.nestingOf, Source.Stmt.nesting] at *
    omega
  | «match» hcode _ hstart _ hframed _ ihsubject ih =>
    have hdepth := hframed.depth
    obtain ⟨span, hr⟩ := hr
    obtain ⟨v, _, hv⟩ := Lower.matchSubject_ok hstart
    have := ihsubject v (.intro hv) hs (Reached.part (.head _) hr)
    have := ih (hdepth ▸ hs) (Reached.alike (.matchOn hcode hr) hframed.alike)
    simp only [Task.nesting, Task.uncounted] at *
    omega
  | noClause | done | ret =>
    simp only [Task.nesting, Task.uncounted, Source.Clause.nestingOf, Source.Stmt.nestingOf, Source.Stmt.nesting]
    omega
  | @clause s s1 _ _ _ _ c cs code st cond _ _ hcode _ _ hframed _ _ _ ihguard ihbody ihrest =>
    have hdepth := hframed.depth
    have hinside : ∀ p ∈ c.body :: c.guard.toList, Reached program env (Lower.clauseState s st) (.expr p) :=
      fun p hp => .clause hcode.compiled hp hr
    have hbody := ihbody hs (hinside _ (.head _))
    have hclause : c.nesting cut ≤ 4 * (env.settings.maxDepth - s.depth) := by
      simp only [Task.nesting, Task.uncounted, Lower.clauseState] at hbody ihguard
      refine Source.Clause.nesting_le (fun g hg => ?_) (by omega)
      obtain ⟨v, hv⟩ := hcode.guard_gives hg
      have := ihguard g hg v hv hs (hinside g (.tail _ (Option.mem_toList.mpr hg)))
      omega
    simp only [Task.nesting, Task.uncounted, Source.Clause.nestingOf]
    split
    · omega
    · rename_i hkept
      -- A clause that is not cut holds a test, so the next one is lowered too.
      have halways : code.always = false := Bool.eq_false_iff.mpr fun halways => by
        obtain ⟨hguard, htests⟩ := hcode.untested halways
        exact hkept (hcut c ⟨s, _, _, cs, st, hr, hguard, hcode.compiled, htests⟩)
      have := ihrest halways (hdepth ▸ hs) (Reached.alike (.later hr) hframed.alike)
      simp only [Task.nesting, Task.uncounted] at this
      omega
  | cons _ _ hrun _ ihstmt ihlater =>
    have hdepth := (Lower.run_declares hrun).depth
    have := ihstmt hs ⟨_, hr⟩
    have := ihlater (hdepth ▸ hs) (Reached.next hrun hr)
    simp only [Task.nesting, Task.uncounted, Source.Stmt.nestingOf] at *
    omega
  | @val _ _ _ decl _ _ hcode _ ih =>
    obtain ⟨later, hr⟩ := hr
    obtain ⟨v, hv⟩ := (Lower.lowerLocal_code hcode).gives
    have := ih v hv hs (Reached.stmt hr (.head _))
    obtain ⟨name, mutable, ty, value⟩ := decl
    simp only [Task.nesting, Task.uncounted, Source.Stmt.nesting] at *
    omega
  | assign hplace _ _ _ ihparts ihv =>
    obtain ⟨later, hr⟩ := hr
    have := ihv hs (Reached.stmt hr (.head _))
    have := Lower.nesting_of_place hplace hs fun p hp v hv => ihparts p hp v hv hs (Reached.stmt hr (.tail _ hp))
    simp only [Task.nesting, Task.uncounted, Source.Stmt.nesting] at *
    omega
  | expr _ ih | retEffect _ _ _ ih | retValue _ _ _ ih =>
    obtain ⟨later, hr⟩ := hr
    have := ih hs (Reached.stmt hr (.head _))
    simp only [Task.nesting, Task.uncounted, Source.Stmt.nesting] at *
    omega
  | loop _ _ ihc ih =>
    obtain ⟨later, hr⟩ := hr
    have := ihc hs (Reached.stmt hr (.head _))
    have := ih hs (Reached.loop hr)
    simp only [Task.nesting, Task.uncounted, Source.Stmt.nesting] at *
    omega

/-! ## Programs -/

end

open Lower (exists_of_any unlocated)

section

variable {env : Env} {s : LowerState} {n : Nat}

end

end Lowering
