/-
  Imports — which imports a file gets.

  The qualifiers that imports are collected from are those of the types at the nodes of a file, and the names of
  packages that are selected from there (`mem_declQualifiers`).
-/

import Lowering.Lower.Program
import Lowering.Proofs.Nodes

namespace Lowering

open Target (Expr Stmt Element Decl Import Node)

/-! ## Qualifiers -/

def Target.Node.selected : Node → List String
  | .expr (.selector (.ident name) _) => [name]
  | _ => []

theorem Target.Node.ident?_of_selected {n : Node} {q : String} (h : q ∈ n.selected) : q ∈ n.ident? := by
  unfold selected at h
  split at h
  · cases List.mem_singleton.mp h
    rfl
  · cases h

def Target.Node.qualifiers (env : Env) (n : Node) : List String :=
  n.types.flatMap Lower.tyQualifiers ++ n.selected.filter env.isPackage

namespace Lower

variable {q : String}

theorem mem_tyListQualifiers {ts : List Ty} : q ∈ tyListQualifiers ts ↔ q ∈ ts.flatMap tyQualifiers := by
  induction ts with
  | nil => simp [tyListQualifiers]
  | cons t ts ih => simp only [tyListQualifiers, List.flatMap_cons, List.mem_append, ih]

variable (env : Env)

mutual

theorem mem_exprQualifiers : ∀ e : Expr, q ∈ exprQualifiers env e ↔ q ∈ e.nodes.flatMap (Node.qualifiers env)
  | .ident _ | .lit _ | .nil | .type _ => by simp [exprQualifiers, Node.qualifiers, Node.selected]
  | .selector x sel => by
    have hx := mem_exprQualifiers x
    cases x with
    | ident name => simp [exprQualifiers, Node.qualifiers, Node.selected, List.filter_cons]
    | _ => exact hx
  | .call callee typeArgs args => by
    simp [exprQualifiers, mem_exprQualifiers callee, mem_exprListQualifiers args, mem_tyListQualifiers,
      Node.qualifiers, Node.selected, or_left_comm]
  | .index x y | .binary _ x y => by
    simp [exprQualifiers, mem_exprQualifiers x, mem_exprQualifiers y, Node.qualifiers, Node.selected]
  | .unary _ x | .paren x => by simp [exprQualifiers, mem_exprQualifiers x, Node.qualifiers, Node.selected]
  | .funcLit params results body => by
    simp [exprQualifiers, fieldQualifiers, mem_stmtListQualifiers body, mem_tyListQualifiers, Node.qualifiers,
      Node.selected]
  | .composite ty elements => by
    simp [exprQualifiers, mem_elementQualifiers elements, Node.qualifiers, Node.selected]
  | .typeAssert x ty => by
    simp [exprQualifiers, mem_exprQualifiers x, Node.qualifiers, Node.selected, or_comm]

theorem mem_exprListQualifiers : ∀ es : List Expr,
    q ∈ exprListQualifiers env es ↔ q ∈ (Expr.nodesOf es).flatMap (Node.qualifiers env)
  | [] => by simp [exprListQualifiers]
  | e :: es => by
    simp only [exprListQualifiers, List.mem_append, mem_exprQualifiers e, mem_exprListQualifiers es,
      Expr.nodesOf, List.flatMap_append]

theorem mem_elementQualifiers : ∀ elements : List Element,
    q ∈ elementQualifiers env elements ↔ q ∈ (Element.nodesOf elements).flatMap (Node.qualifiers env)
  | [] => by simp [elementQualifiers]
  | ⟨_, value⟩ :: elements => by
    simp only [elementQualifiers, List.mem_append, mem_exprQualifiers value, mem_elementQualifiers elements,
      Element.nodesOf, List.flatMap_append]

theorem mem_stmtQualifiers : ∀ s : Stmt, q ∈ stmtQualifiers env s ↔ q ∈ s.nodes.flatMap (Node.qualifiers env)
  | .define _ values | .ret values => by
    simp [stmtQualifiers, mem_exprListQualifiers values, Node.qualifiers, Node.selected]
  | .var _ ty none => by simp [stmtQualifiers, Node.qualifiers, Node.selected]
  | .var _ ty (some value) => by
    simp [stmtQualifiers, mem_exprQualifiers value, Node.qualifiers, Node.selected]
  | .assign targets _ values => by
    simp [stmtQualifiers, mem_exprListQualifiers targets, mem_exprListQualifiers values, Node.qualifiers, Node.selected]
  | .expr e => by simp [stmtQualifiers, mem_exprQualifiers e, Node.qualifiers, Node.selected]
  | .ifElse cond thenBody els => by
    simp [stmtQualifiers, mem_exprQualifiers cond, mem_stmtListQualifiers thenBody,
      mem_stmtListQualifiers els, Node.qualifiers, Node.selected]
  | .loop none body | .block body => by
    simp [stmtQualifiers, mem_stmtListQualifiers body, Node.qualifiers, Node.selected]
  | .loop (some cond) body => by
    simp [stmtQualifiers, mem_exprQualifiers cond, mem_stmtListQualifiers body, Node.qualifiers, Node.selected]

theorem mem_stmtListQualifiers : ∀ ss : List Stmt,
    q ∈ stmtListQualifiers env ss ↔ q ∈ (Stmt.nodesOf ss).flatMap (Node.qualifiers env)
  | [] => by simp [stmtListQualifiers]
  | s :: ss => by
    simp only [stmtListQualifiers, List.mem_append, mem_stmtQualifiers s, mem_stmtListQualifiers ss,
      Stmt.nodesOf, List.flatMap_append]

end

theorem mem_declQualifiers (d : Decl) :
    q ∈ declQualifiers env d ↔ q ∈ d.nodes.flatMap (Node.qualifiers env) := by
  cases d with
  | func f =>
    simp only [declQualifiers, paramQualifiers, fieldQualifiers, List.mem_append, mem_tyListQualifiers,
      mem_stmtListQualifiers, Decl.nodes, List.flatMap_cons, Node.qualifiers, Node.types, Node.selected,
      List.filter_nil, List.map_append, List.flatMap_append, List.append_nil, or_assoc]
  | struct name params fields =>
    simp [declQualifiers, paramQualifiers, fieldQualifiers, mem_tyListQualifiers, Decl.nodes, Node.qualifiers,
      Node.selected]
  | typeAlias name params ty =>
    simp [declQualifiers, paramQualifiers, mem_tyListQualifiers, Decl.nodes, Node.qualifiers, Node.selected]
  | var name ty value =>
    cases value with
    | none =>
      simp [declQualifiers, mem_tyListQualifiers, exprListQualifiers, Decl.nodes, Node.qualifiers, Node.selected]
    | some value =>
      simp [declQualifiers, mem_tyListQualifiers, exprListQualifiers, Decl.nodes, Node.qualifiers, Node.selected,
        mem_exprQualifiers]
  | const name ty value =>
    simp [declQualifiers, mem_tyListQualifiers, Decl.nodes, Node.qualifiers, Node.selected, mem_exprQualifiers]

/-! ## Imports in order -/

theorem importBefore_total {a b : Import} (hab : importBefore a b = false) (hba : importBefore b a = false) : a = b := by
  have hpath : ∀ {s t : String}, Text.before s t = false → Text.before t s = false → s = t := by
    refine fun hst hts => Decidable.byContradiction fun hne => ?_
    rw [Text.before_total hst hne] at hts
    cases hts
  obtain ⟨x, p⟩ := a
  obtain ⟨y, r⟩ := b
  cases x with
  | none =>
    cases y with
    | none =>
      obtain rfl : p = r := hpath hab hba
      rfl
    | some y => cases hab
  | some x =>
    cases y with
    | none => cases hba
    | some y =>
      simp only [importBefore, Bool.or_eq_false_iff, Bool.and_eq_false_iff] at hab hba
      obtain rfl := hpath hab.1 hba.1
      simp only [beq_self_eq_true, Bool.true_eq_false, false_or] at hab hba
      rw [hpath hab.2 hba.2]

theorem mem_placeImport {i j : Import} {imports : List Import} : i ∈ placeImport j imports ↔ i = j ∨ i ∈ imports := by
  induction imports with
  | nil => simp [placeImport]
  | cons k imports ih =>
    simp only [placeImport]
    split
    · exact List.mem_cons
    · split
      · simp only [List.mem_cons, ih, or_left_comm]
      · rename_i hjk hkj
        obtain rfl := importBefore_total (by simpa using hjk) (by simpa using hkj)
        simp

theorem mem_collectImports {env : Env} {decls : List Decl} {dotUsed : List String} {i : Import} :
    i ∈ collectImports env decls dotUsed ↔
      (∃ n ∈ decls.flatMap Decl.nodes, ∃ q ∈ n.qualifiers env, importOf? env q = some i) ∨
        ∃ p ∈ dotUsed, dotImport? env p = some i := by
  have hfold : ∀ l : List Import, i ∈ l.foldr placeImport [] ↔ i ∈ l := by
    intro l
    induction l with
    | nil => simp
    | cons j l ih => rw [List.foldr_cons, mem_placeImport, ih, List.mem_cons]
  have hqualified : ∀ q, q ∈ decls.flatMap (declQualifiers env) ↔
      ∃ n ∈ decls.flatMap Decl.nodes, q ∈ n.qualifiers env := by
    intro q
    simp only [List.mem_flatMap, mem_declQualifiers]
    exact ⟨fun ⟨d, hd, n, hn, hq⟩ => ⟨n, ⟨d, hd, hn⟩, hq⟩, fun ⟨n, ⟨d, hd, hn⟩, hq⟩ => ⟨d, hd, n, hn, hq⟩⟩
  unfold collectImports
  rw [hfold, List.mem_append, List.mem_filterMap, List.mem_filterMap]
  refine or_congr ⟨fun ⟨q, hq, hi⟩ => ?_, fun ⟨n, hn, q, hq, hi⟩ => ?_⟩ Iff.rfl
  · obtain ⟨n, hn, hq⟩ := (hqualified q).mp hq
    exact ⟨n, hn, q, hq, hi⟩
  · exact ⟨q, (hqualified q).mpr ⟨n, hn, hq⟩, hi⟩

end Lower

/-! ## The table -/

namespace Env

variable {env : Env} {q package : String}

def goesBy (env : Env) (q : String) : Bool :=
  q == env.runtime || (env.catalog.imports.resolve? q <|> env.catalog.imports.entry? q).any (·.localName == q)

def isListed (env : Env) (package : String) : Bool :=
  package.isEmpty || package == env.runtime || (env.catalog.imports.entry? package).isSome

theorem resolve?_localName {i : PackageImport} (h : env.catalog.imports.resolve? q = some i) :
    i ∈ env.catalog.imports.entries ∧ i.localName = q := by
  refine ⟨List.mem_of_find?_eq_some h, ?_⟩
  have hlocal := List.find?_some h
  simp only [Bool.and_eq_true, beq_iff_eq] at hlocal
  exact hlocal.2

theorem goesBy_of_isPackage (h : env.isPackage q = true) : env.goesBy q = true := by
  simp only [isPackage, Bool.or_eq_true, ImportTable.isPackage] at h
  rw [goesBy, Bool.or_eq_true]
  refine h.imp_right fun h => ?_
  obtain ⟨i, hi⟩ := Option.isSome_iff_exists.mp h
  simp [hi, (resolve?_localName hi).2]

theorem qualifier_cases (h : env.isListed package = true) :
    env.qualifier package = "" ∨ env.isPackage (env.qualifier package) = true := by
  unfold qualifier
  split
  · rename_i hown
    rw [Bool.or_eq_true] at hown
    refine hown.imp String.isEmpty_iff.mp fun hruntime => ?_
    simp [isPackage, hruntime]
  · rename_i hown
    have hentry : (env.catalog.imports.entry? package).isSome = true := by
      simp only [isListed, Bool.or_eq_true] at h
      simp only [Bool.or_eq_true] at hown
      exact h.resolve_left hown
    obtain ⟨i, hi⟩ := Option.isSome_iff_exists.mp hentry
    simp only [ImportTable.qualifierOf?, hi, Option.map_some, Option.getD_some]
    cases hdot : i.dot with
    | true => exact .inl rfl
    | false =>
      have hfind : (env.catalog.imports.resolve? i.localName).isSome = true := by
        rw [ImportTable.resolve?, List.find?_isSome]
        exact ⟨i, List.mem_of_find?_eq_some hi, by simp [hdot]⟩
      simp [isPackage, ImportTable.isPackage, hfind]

end Env

/-- The file imports a package under the name: the runtime, or one of the table. -/
def Target.File.Imports (file : Target.File) (env : Env) (q : String) : Prop :=
  q = env.runtime ∧ ⟨none, env.settings.runtimeImport⟩ ∈ file.imports ∨
    ∃ i ∈ env.catalog.imports.entries, i.localName = q ∧ ⟨i.aliasName, i.path⟩ ∈ file.imports

theorem imports_of_importOf? {env : Env} {q : String} {file : Target.File} (hq : env.goesBy q = true)
    (h : ∀ i, Lower.importOf? env q = some i → i ∈ file.imports) : file.Imports env q := by
  simp only [Env.goesBy, Bool.or_eq_true, beq_iff_eq, Option.any_eq_true] at hq
  by_cases hruntime : q = env.runtime
  · exact .inl ⟨hruntime, h _ (by simp [Lower.importOf?, hruntime])⟩
  · obtain ⟨i, hi, hlocal⟩ := hq.resolve_left hruntime
    refine .inr ⟨i, ?_, hlocal, h _ (by simp [Lower.importOf?, hruntime, hi])⟩
    rw [Option.orElse_eq_orElse, Option.orElse_eq_or, Option.or_eq_some_iff] at hi
    rcases hi with hi | ⟨-, hi⟩
    · exact (Env.resolve?_localName hi).1
    · exact List.mem_of_find?_eq_some hi

end Lowering
