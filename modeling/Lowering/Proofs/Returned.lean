/-
  Returned — what a `return` carries.

  Lowering returns one value from a function with a result and none from one without, and writes the results of
  the function after the same type.
-/

import Lowering.Proofs.Distinct

namespace Lowering

open Target (Stmt Node)

/-! ## Statements -/

variable {count : Nat}

theorem Target.Stmt.allReturn_append (a b : List Stmt) :
    allReturn count (a ++ b) = (allReturn count a && allReturn count b) := by
  induction a with
  | nil => rfl
  | cons s a ih => simp only [List.cons_append, allReturn, ih, Bool.and_assoc]

theorem Match.allReturn_wrap (step : Step) {rest : List Stmt × Bool} (h : Stmt.allReturn count rest.1 = true) :
    Stmt.allReturn count (step.wrap used rest).1 = true := by
  cases step with
  | bind name value =>
    simp only [Step.wrap]
    split
    · simpa [Stmt.define1, Stmt.allReturn, Stmt.returns] using h
    · exact h
  | check cond =>
    simp only [Step.wrap]
    split <;> simpa [Stmt.guarded, Stmt.allReturn, Stmt.returns] using h
  | _ => simpa [Step.wrap, Stmt.discard, Stmt.assign1, Stmt.guarded, Stmt.allReturn, Stmt.returns] using h

theorem Match.allReturn_assemble (p : CompiledPattern) {body : List Stmt} (h : Stmt.allReturn count body = true) :
    Stmt.allReturn count (p.assemble used body) = true := by
  unfold CompiledPattern.assemble
  induction p.steps with
  | nil => exact h
  | cons step steps ih => exact allReturn_wrap step ih

namespace Lower

theorem allReturn_discard (v : Target.Expr) : Stmt.allReturn count [discard v] = true := by
  unfold discard
  split <;> rfl

theorem allReturn_placeClause (flag : Option String) {stmts : List Stmt} (h : Stmt.allReturn count stmts = true)
    (always : Bool) : Stmt.allReturn count (placeClause flag stmts always) = true := by
  unfold placeClause
  split
  · simpa [unlessSet, Stmt.guarded, Stmt.allReturn, Stmt.returns] using h
  · split
    · simpa [Stmt.allReturn, Stmt.returns] using h
    · exact h

theorem MatchCode.allReturn_stmts {env : Env} {subject : Piece} {clauses : List ClausePiece} {position : Position}
    {span : Span} {s s' : LowerState} {code : MatchCode}
    (hcode : matchCode env subject clauses position span s = .ok code s')
    (h : Stmt.allReturn count (chain code.flag code.clauses) = true) : Stmt.allReturn count code.stmts = true := by
  obtain ⟨⟨s1, s2, hstart, -, -⟩, -⟩ := matchCode_from hcode
  have hstart : Stmt.allReturn count code.start = true := by
    rcases matchSubject_start hstart with heq | ⟨_, _, heq⟩ <;> rw [heq] <;> rfl
  have hflag : Stmt.allReturn count code.flagStart = true := by
    unfold MatchCode.flagStart
    split <;> rfl
  simp only [MatchCode.stmts, Stmt.allReturn_append, hstart, hflag, h, Bool.true_and]
  split
  · unfold unreachable
    cases code.flag <;> rfl
  · rfl

end Lower

theorem Flow.returns {env : Env} {s : LowerState} {tail : Bool} {task : Task} {out : List Stmt} {names : NameSupply}
    (h : Flow env s tail task out names) {result : Ty} (hs : s.Inside result) (htail : tail = true → result.isVoid = false) :
    Stmt.allReturn result.results.length out = true := by
  induction h with
  | reached hs1 _ ih => exact ih (hs1.inside hs) htail
  | operand | lambda | caseFunction | inPlace | single | noClause | done | assign => rfl
  | dropped => exact Lower.allReturn_discard _
  | returned => simp [Ty.results, htail rfl, Stmt.ret1, Stmt.allReturn, Stmt.returns]
  | ifElse hs1 _ _ hs2 _ _ iht ihe =>
    simp [Stmt.allReturn, Stmt.returns, iht (hs1.inside hs) htail, ihe (hs2.inside (hs1.inside hs)) htail]
  | ifOnly hs1 _ _ _ ih | braces hs1 _ ih => simp [Stmt.allReturn, Stmt.returns, ih (hs1.inside hs) htail]
  | matched hs1 _ ih => exact ih (hs1.inside hs) htail
  | bodyExpr _ _ ih | result _ ih | expr _ ih | bodyBlock _ _ ih => exact ih hs htail
  | «match» hcode _ _ _ hs2 _ _ ih => exact Lower.MatchCode.allReturn_stmts hcode (ih (hs2.inside hs) htail)
  | @clause _ _ _ _ _ flag _ _ code _ _ codes _ _ _ _ hs1 _ hlast _ _ ihbody ihrest =>
    have hstmts : Stmt.allReturn result.results.length (code.stmts flag) = true := by
      refine Match.allReturn_assemble _ ?_
      rw [Stmt.allReturn_append, ihbody hs htail, Bool.and_true]
      cases flag <;> rfl
    rw [Lower.chain_cons, Stmt.allReturn_append, Lower.allReturn_placeClause flag hstmts, Bool.true_and]
    cases halways : code.always with
    | true =>
      rw [hlast halways]
      rfl
    | false => exact ihrest halways (hs1.inside hs) htail
  | cons _ _ hrun _ ihstmt ihlater =>
    rw [Stmt.allReturn_append, ihstmt hs (fun h => by cases h), Bool.true_and]
    refine ihlater ?_ htail
    rw [LowerState.Inside, (Lower.run_declares hrun).functions]
    exact hs
  | @val _ _ _ _ _ stmts hcode =>
    have hlocal : Stmt.allReturn result.results.length stmts = true := by
      cases Lower.lowerLocal_code hcode with
      | var _ | val _ => rfl
    split
    · exact hlocal
    · rw [Stmt.allReturn_append, hlocal]
      rfl
  | ret hresult hvoid =>
    cases hresult.unique hs
    simp [Ty.results, hvoid, Stmt.allReturn, Stmt.returns]
  | retEffect hresult hvoid _ ih =>
    cases hresult.unique hs
    rw [Stmt.allReturn_append, ih hs (fun h => by cases h)]
    simp [Ty.results, hvoid, Stmt.allReturn, Stmt.returns]
  | retValue hresult hvoid _ ih =>
    cases hresult.unique hs
    exact ih hs fun _ => hvoid
  | loop _ _ _ ih => simpa [Stmt.allReturn, Stmt.returns] using ih hs fun h => by cases h

/-! ## Files -/

/-- Every `return` of the function carries a value for each result, or, in a literal, as many as the first
    result takes. -/
def Target.Node.Returns (n : Node) : Prop :=
  ∀ results body, n.function? = some (results, body) → Stmt.allReturn results.length body = true ∨
    n.isLiteral = true ∧ Stmt.allReturn (results.headD .void).results.length body = true

def returning : Rule where
  node := Node.Returns

variable {n : Node}

theorem returns_of_all {results : List Ty} {stmts : List Stmt} (hn : n.function? = some (results, stmts))
    (h : Stmt.allReturn results.length stmts = true) : n.Returns := by
  intro results' body hf
  rw [hn] at hf
  cases hf
  exact .inl h

theorem returning_functional (env : Env) : returning.Functional env where
  plain h _ _ hf := by simp [h] at hf
  stem := trivial
  temporary _ _ := trivial
  made hmade := by
    obtain ⟨-, -, -, hinside, hflow, hn, hresults, -, -, -⟩ := hmade
    have hall := hflow.returns hinside fun htail => by simpa using htail
    rcases hresults with rfl | ⟨hliteral, rfl⟩
    · exact returns_of_all hn hall
    · intro results' body hf
      rw [hn] at hf
      cases hf
      exact .inr ⟨hliteral, hall⟩
  straight hstraight _ hn _ := returns_of_all hn hstraight.returns

/-- Every `return` of an emitted function carries as many values as the function has results, unless it is a
    literal with several results or with the result `void`: then it returns a value for the first, if that has
    one. -/
theorem lowerProgram_returns {program : Source.Program} {catalog : Catalog} {settings : Settings} {file : Target.File}
    (hfile : lowerProgram program catalog settings = .ok file) : ∀ n ∈ file.nodes, ∀ results body,
      n.function? = some (results, body) → Stmt.allReturn results.length body = true ∨
        n.isLiteral = true ∧ (1 < results.length ∨ results = [.void]) ∧
          Stmt.allReturn (results.headD .void).results.length body = true := by
  have hnodes : ∀ n ∈ file.nodes, n.Returns := Rule.Lawful.lowerProgram (R := returning) hfile fun env _ =>
    ⟨(returning_functional env).lawful fun _ => True.intro, fun _ _ => ⟨fun i _ => by cases i <;> exact True.intro, fun _ _ _ _ => True.intro,
      fun _ _ => True.intro⟩⟩
  intro n hn results body hf
  rcases hnodes n hn results body hf with hall | ⟨hliteral, hfirst⟩
  · exact .inl hall
  match results with
  | [] => exact .inl hfirst
  | [r] =>
    cases hvoid : r.isVoid with
    | false => exact .inl (by simpa [Ty.results, hvoid] using hfirst)
    | true => exact .inr ⟨hliteral, .inr (by cases r <;> first | rfl | cases hvoid), hfirst⟩
  | _ :: _ :: _ => exact .inr ⟨hliteral, .inl (by simp), hfirst⟩

open Lower (exists_of_any unlocated)

/-- `func f(y int) { val g func(int) results = { case x => x } }` -/
def caseFunctionProgram (results : List Ty) : Source.Program := unaryProgram "y" none (.block [
  unlocated (.val ⟨unlocated "g", false, some (.func [.int] results), unlocated (.caseFunction
    [⟨unlocated (.ident "x"), none, unlocated (.ident "x")⟩])⟩)])

/-- A literal with so many results, none of them `void`. -/
def Target.Node.hasResults (count : Nat) (n : Node) : Bool :=
  n.isLiteral && n.function?.any fun f => f.1.length == count && !f.1.any Ty.isVoid

theorem Target.Node.of_hasResults (h : n.hasResults count = true) :
    ∃ results body, n.function? = some (results, body) ∧ results.length = count ∧ ∀ r ∈ results, r.isVoid = false := by
  simp only [hasResults, Bool.and_eq_true, Option.any_eq_true, beq_iff_eq, Bool.not_eq_true', List.any_eq_false,
    Bool.not_eq_true] at h
  obtain ⟨-, ⟨results, body⟩, hf, hlength, hvoid⟩ := h
  exact ⟨results, body, hf, hlength, hvoid⟩

theorem lowerProgram_returns_case : ∃ file, lowerProgram (caseFunctionProgram [.int]) .empty .standard = .ok file ∧
    ∃ n ∈ file.nodes, n.isLiteral = true ∧ ∃ results body, n.function? = some (results, body) ∧ results.length = 1 ∧
      Stmt.allReturn 1 body = true := by
  obtain ⟨file, hfile, hnode⟩ : ∃ file, lowerProgram (caseFunctionProgram [.int]) .empty .standard = .ok file ∧
      file.nodes.any (·.hasResults 1) = true := exists_of_any (by decide +kernel)
  obtain ⟨n, hn, hnode⟩ := List.any_eq_true.mp hnode
  obtain ⟨results, body, hf, hlength, hvoid⟩ := Node.of_hasResults hnode
  refine ⟨file, hfile, n, hn, (Bool.and_eq_true_iff.mp hnode).1, results, body, hf, hlength, ?_⟩
  rcases lowerProgram_returns hfile n hn _ _ hf with hall | ⟨-, hmany | rfl, -⟩
  · rwa [hlength] at hall
  · omega
  · cases hvoid _ (.head _)

/-- A case function with two results returns one value. -/
theorem caseFunction_returns_first : ∃ file,
    lowerProgram (caseFunctionProgram [.int, .int]) .empty .standard = .ok file ∧ ∃ n ∈ file.nodes, ∃ results body,
      n.function? = some (results, body) ∧ results.length = 2 ∧ Stmt.allReturn 1 body = true ∧
        Stmt.allReturn 2 body = false := by
  obtain ⟨file, hfile, hnode⟩ : ∃ file, lowerProgram (caseFunctionProgram [.int, .int]) .empty .standard = .ok file ∧
      (file.nodes.any fun n => n.function?.any fun f => f.1.length == 2 && Stmt.allReturn 1 f.2 && !Stmt.allReturn 2 f.2) =
        true := exists_of_any (by decide +kernel)
  simp only [List.any_eq_true, Option.any_eq_true, Bool.and_eq_true, beq_iff_eq, Bool.not_eq_true'] at hnode
  obtain ⟨n, hn, ⟨results, body⟩, hf, ⟨hlength, hone⟩, htwo⟩ := hnode
  exact ⟨file, hfile, n, hn, results, body, hf, hlength, hone, htwo⟩

end Lowering
