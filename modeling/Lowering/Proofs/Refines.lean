/-
  Refines — compiled patterns match what patterns mean.

  By induction on the pattern, its steps, run apart from what the program binds, pass exactly where the value of
  the subject matches, and put aside what the names of the pattern stand for (`compileInto_gives`).
-/

import Lowering.Proofs.Data
import Lowering.Proofs.Opening

namespace Lowering.Match

open Source (Pattern)
open Target
open Compile

variable {m : Machine} {rt : Runtime m} {env : Env}

/-! ## Bindings, literals and type tests -/

variable {name : String} {s s' : CompileState} {span : Span} {ty : Ty} {subject : Expr} {st : State m} {v : m.Value}
  {bound : List (String × m.Value)} {bs : List (String × Component m.Value)} {l : Locals m.Value m.Cell}
  {names names' : NameSupply} {p : Located Pattern} {compiled : CompiledPattern}

theorem bindValue_ok {value : Expr} (h : bindValue name value ty span s = .ok () s') :
    added s s' = [.bind name value] := by
  simp only [bindValue, Bind.bind, EStateM.bind, bindName_final] at h
  cases hb : s.bindings.any (·.1 == name) with
  | true => rw [hb] at h; cases h
  | false =>
    rw [hb] at h
    cases h
    exact added_eq rfl

theorem typedPattern_ok {wanted : Ty} (h : typedPattern name wanted span subject ty s = .ok () s') :
    added s s' = if wanted == ty then (if name = "_" then [] else [.bind name subject])
      else [.assert (if name = "_" then none else some name) true s.names.fresh.1 subject wanted] := by
  unfold typedPattern at h
  by_cases hname : name = "_"
  · subst hname
    split at h
    · rename_i hsame
      cases h
      rw [if_pos hsame, if_pos rfl]
      exact added_self
    · rename_i hsame
      cases h
      rw [if_neg hsame, if_pos rfl]
      exact added_eq rfl
  · split at h
    · rename_i hsame
      rw [if_pos (by simpa using hname)] at h
      rw [if_pos hsame, if_neg hname]
      exact bindValue_ok h
    · rename_i hsame
      rw [if_neg (by simpa using hname)] at h
      rw [if_neg hsame, if_neg hname]
      simp only [Bind.bind, EStateM.bind, bindName_final] at h
      cases hb : s.bindings.any (·.1 == name) with
      | true => rw [hb] at h; cases h
      | false =>
        rw [hb] at h
        cases h
        exact added_eq rfl

theorem literal_bool (hrt : rt.Evaluates env) (st : State m) (b : Bool) : rt.literal (.bool b) = m.bool b := by
  have hlit := (hrt.literal (.bool b) st.locals st.store).out.symm.trans (m.eval_bool b st.locals st.store)
  injection hlit

theorem literalTest_reads (hrt : rt.Lawful env) (hread : Reads st.locals st.store subject v) (hhas : rt.Has v ty)
    {value : Literal} :
    Reads st.locals st.store (literalTest value subject ty) (m.bool (rt.equal v (rt.literal value))) := by
  unfold literalTest
  split
  · rename_i hbool
    obtain ⟨b, rfl⟩ := hrt.bool hhas (by simp [hbool])
    rw [literal_bool hrt.toEvaluates st, hrt.equal_bool]
    simpa using hread
  · rename_i hbool
    obtain ⟨b, rfl⟩ := hrt.bool hhas (by simp [hbool])
    rw [literal_bool hrt.toEvaluates st, hrt.equal_bool, Reads, m.eval_not, hread.out]
    simp [m.truth_bool]
  · exact hrt.equal hread (hrt.literal _ _ _)

/-! ## Patterns -/

mutual

/-- Where the pattern looks at a value, its type is no wrapper. -/
def unwrapped (env : Env) : Located Pattern → Ty → Bool
  | ⟨.wildcard, _⟩, _ => true
  | ⟨.extractor head typeArgs args, span⟩, ty =>
    !ty.isWrapper && match resolve env ⟨⟨head, typeArgs, args⟩, ty, span⟩ with
      | .ok e => allUnwrapped env args (e.elementTypes args.length)
      | .error _ => true
  | ⟨.tuple elems, _⟩, ty => !ty.isWrapper && allUnwrapped env elems (env.expand ty).args
  | ⟨.rest _, _⟩, _ => true
  | _, ty => !ty.isWrapper

def allUnwrapped (env : Env) : List (Located Pattern) → List Ty → Bool
  | [], _ => true
  | p :: ps, types =>
    match types with
    | [] => true
    | ty :: types => unwrapped env p ty && allUnwrapped env ps types

end

/-- The value is the component; for a rest pattern it is a sequence of the remaining elements. -/
def Component.IsAt (rt : Runtime m) (u : m.Value) : Component m.Value → Prop
  | .value v _ => u = v
  | .suffix vs => rt.elements? u = some vs

def Assigned (rt : Runtime m) (names : List (String × Component m.Value)) (_ : Locals m.Value m.Cell)
    (bound : List (String × m.Value)) : Prop :=
  List.Forall₂ (fun b c => b.1 = c.1 ∧ c.2.IsAt rt b.2) bound names

theorem assigned_names (h : Assigned rt bs l bound) : bound.map Prod.fst = bs.map Prod.fst := by
  rw [← List.forall₂_eq_eq_eq, List.forall₂_map_left_iff, List.forall₂_map_right_iff]
  exact h.imp fun _ _ hb => hb.1

theorem assigned_mem (h : Assigned rt bs l bound) {c : String × Component m.Value} (hc : c ∈ bs) :
    ∃ b ∈ bound, b.1 = c.1 ∧ c.2.IsAt rt b.2 := by
  induction h with
  | nil => cases hc
  | cons hb _ ih =>
    rcases List.mem_cons.mp hc with rfl | hc
    · exact ⟨_, .head _, hb⟩
    · obtain ⟨b, hmem, hrel⟩ := ih hc
      exact ⟨b, .tail _ hmem, hrel⟩

theorem look_bind (h : ty.isWrapper = false) {α : Type} (f : m.Value → Option α) : (rt.look ty v).bind f = f v := by
  simp [Runtime.look, h]

theorem gives_typed (hrt : rt.Lawful env) {wanted : Ty} (h : typedPattern name wanted span subject ty s = .ok () s')
    (hsubject : Holds rt s.names subject ty st v) :
    Gives s.names (added s s') st
      (if rt.isA v wanted then some (if name = "_" then [] else [(name, .value v wanted)]) else none)
        (Assigned rt) := by
  rw [typedPattern_ok h]
  by_cases hsame : (wanted == ty) = true
  · rw [if_pos hsame, if_pos (hrt.isA hsubject.has hsame)]
    by_cases hname : name = "_"
    · rw [if_pos hname, if_pos hname]
      exact .nil .nil
    · rw [if_neg hname, if_neg hname]
      exact gives_bind hsubject.reads (.cons ⟨rfl, rfl⟩ .nil)
  · rw [if_neg hsame]
    have htest := gives_typeTest (s := s.names) hrt.toEvaluates hsubject.clear hsubject.reads wanted
      (if name = "_" then none else some name)
    have hexpected :
        (if rt.isA v wanted then some (if name = "_" then [] else [(name, Component.value v wanted)]) else none) =
          (if rt.isA v wanted then some () else none).map
            fun _ => if name = "_" then [] else [(name, .value v wanted)] := by
      split <;> rfl
    rw [hexpected]
    refine htest.map fun _ l bound hrel => ?_
    rw [hrel]
    by_cases hname : name = "_"
    · rw [if_pos hname, if_pos hname]
      exact .nil
    · rw [if_neg hname, if_neg hname]
      exact .cons ⟨rfl, rfl⟩ .nil

theorem allUnwrapped_take (ps : List (Located Pattern)) (types : List Ty) :
    allUnwrapped env ps (types.take ps.length) = allUnwrapped env ps types := by
  induction ps generalizing types with
  | nil => simp only [allUnwrapped]
  | cons p ps ih =>
    cases types with
    | nil => rfl
    | cons ty types => simp only [List.length_cons, List.take_succ_cons, allUnwrapped, ih]

theorem partsAre_same (hrt : rt.Evaluates env) {l' : Locals m.Value m.Cell} (hl : SameBelow names l l')
    {store : m.Store} {parts : List Part} {cs : List (Component m.Value)}
    (h : List.Forall₂ (PartIs rt l store) parts cs) (holder : ∀ part ∈ parts, OlderExpr names part.read) :
    List.Forall₂ (PartIs rt l' store) parts cs := by
  induction h with
  | nil => exact .nil
  | @cons part c parts cs hpart _ ih =>
    refine .cons ?_ (ih fun part' hpart' => holder part' (.tail _ hpart'))
    have hread := holder part (.head _)
    cases hpart with
    | value h hhas => exact .value (h.same hrt hl hread) hhas
    | suffix h helements => exact .suffix (h.same hrt hl hread) helements

theorem bindSuffix_gives {read : Expr} (h : bindSuffix p read ty s = .ok () s') {u : m.Value}
    (hread : Reads st.locals st.store read u) {vs : List m.Value} (helements : rt.elements? u = some vs) :
    Gives s.names (added s s') st (some (Runtime.restNames p vs)) (Assigned rt) := by
  unfold bindSuffix at h
  unfold Runtime.restNames
  split
  · rename_i name hp
    rw [hp] at h
    rw [bindValue_ok h]
    exact gives_bind hread (.cons ⟨rfl, helements⟩ .nil)
  · rename_i hp
    have hpure : (pure () : Compile Unit) s = .ok () s' := by
      cases hval : p.val with
      | rest name =>
        cases name with
        | none => rw [hval] at h; exact h
        | some name => exact absurd hval (hp name)
      | _ => rw [hval] at h; exact h
    obtain ⟨-, rfl⟩ := pure_ok hpure
    rw [added_self]
    exact .nil .nil

theorem gives_both {s1 : CompileState} (h1 : Leads s s1) (h2 : Leads s1 s')
    {first others : Option (List (String × Component m.Value))}
    (hfirst : Gives s.names (added s s1) st first (Assigned rt))
    (hothers : ∀ l, SameBelow s.names st.locals l → Gives s1.names (added s1 s') ⟨l, st.store⟩ others (Assigned rt)) :
    Gives s.names (added s s') st (first.bind fun bs => others.map (bs ++ ·)) (Assigned rt) :=
  hfirst.andThen h1 h2 fun _ l _ _ hsame hassigned =>
    (hothers l hsame).map fun _ _ _ hassigned' => List.rel_append hassigned hassigned'

mutual

theorem compileInto_gives (hrt : rt.Lawful env) : ∀ (p : Located Pattern) {subject : Expr} {ty : Ty}
    {s s' : CompileState}, compileInto env p subject ty s = .ok () s' → unwrapped env p ty = true →
    ∀ {st : State m} {v : m.Value}, Holds rt s.names subject ty st v →
    Gives s.names (added s s') st (rt.matchValue env p ty v) (Assigned rt)
  | ⟨p, span⟩, subject, ty, s, s', h, hty, st, v, hsubject => by
    cases p with
    | wildcard =>
      simp only [compileInto] at h
      obtain ⟨-, rfl⟩ := pure_ok h
      rw [added_self]
      simp only [Runtime.matchValue]
      exact .nil .nil
    | rest _ =>
      simp only [compileInto] at h
      cases h
    | ident name =>
      simp only [unwrapped, Bool.not_eq_true'] at hty
      simp only [compileInto, Ty.unwrap_eq hty] at h
      simp only [Runtime.matchValue, Option.bind_eq_bind, look_bind hty, Ty.unwrap_eq hty]
      split at h
      · rename_i hcompanion
        obtain ⟨parts, hopen, -⟩ := map_ok h
        rw [if_pos hcompanion]
        refine (openExtractor_gives hrt hopen hsubject).map fun cs l bound hparts => ?_
        rw [hparts.1]
        exact .nil
      · rename_i hcompanion
        rw [if_neg hcompanion, bindValue_ok h]
        exact gives_bind hsubject.reads (.cons ⟨rfl, rfl⟩ .nil)
    | literal value =>
      simp only [unwrapped, Bool.not_eq_true'] at hty
      simp only [compileInto, Ty.unwrap_eq hty] at h
      simp only [Runtime.matchValue, Option.bind_eq_bind, look_bind hty]
      rw [(emit_ok h).2]
      exact gives_test (literalTest_reads hrt hsubject.reads hsubject.has) .nil
    | typed name wanted =>
      simp only [unwrapped, Bool.not_eq_true'] at hty
      simp only [compileInto, Ty.unwrap_eq hty] at h
      simp only [Runtime.matchValue, Option.bind_eq_bind, look_bind hty]
      exact gives_typed hrt h hsubject
    | extractor head typeArgs args =>
      simp only [unwrapped, Bool.and_eq_true, Bool.not_eq_true'] at hty
      obtain ⟨hty, hargs⟩ := hty
      simp only [compileInto, Ty.unwrap_eq hty] at h
      simp only [Runtime.matchValue, Option.bind_eq_bind, look_bind hty, Ty.unwrap_eq hty]
      obtain ⟨parts, s1, hopen, h1⟩ := bind_ok h
      have hleads : Leads s s1 := openExtractor_emits.ok hopen
      refine (openExtractor_gives hrt hopen hsubject).andThen hleads
        ((compileParts_emits args parts fun _ _ => trivial).ok h1) fun cs l bound hcs hsame hrel => ?_
      obtain ⟨rfl, hparts, holders⟩ := hrel
      refine compileParts_gives hrt args h1 ?_ (hsubject.toScene.after hsame hleads.names) hparts holders
      cases hresolve : resolve env ⟨⟨head, typeArgs, args⟩, ty, span⟩ with
      | error d => simp [Runtime.extracted, hresolve] at hcs
      | ok e =>
        rw [hresolve] at hargs
        dsimp only at hargs
        rw [← allUnwrapped_take] at hargs ⊢
        exact openExtractor_types hresolve hopen ▸ hargs
    | tuple elems =>
      simp only [unwrapped, Bool.and_eq_true, Bool.not_eq_true'] at hty
      obtain ⟨hty, helems⟩ := hty
      simp only [compileInto, Ty.unwrap_eq hty] at h
      simp only [Runtime.matchValue, Option.bind_eq_bind, look_bind hty, Ty.unwrap_eq hty]
      obtain ⟨parts, s1, hopen, h1⟩ := bind_ok h
      obtain ⟨rfl, harity, rfl⟩ := openTuple_ok hopen
      obtain ⟨vs, hvs, htypes⟩ := hrt.tuple hsubject.has harity
      have hlen : vs.length = elems.length := htypes.length_eq.trans (Ty.args_length harity)
      rw [hvs, Option.bind_some, if_pos hlen]
      refine compileParts_gives hrt elems h1 ?_ hsubject.toScene (tupleParts_are hrt.toEvaluates hsubject.reads hvs htypes)
        (tupleParts_older hsubject.older)
      rw [tupleParts_types]
      exact helems

theorem compileParts_gives (hrt : rt.Lawful env) : ∀ (ps : List (Located Pattern)) {parts : List Part}
    {cs : List (Component m.Value)} {s s' : CompileState}, compileParts env ps parts s = .ok () s' →
    allUnwrapped env ps (parts.map Part.ty) = true → ∀ {st : State m}, Scene rt s.names st.locals →
    List.Forall₂ (PartIs rt st.locals st.store) parts cs → (∀ part ∈ parts, OlderExpr s.names part.read) →
    Gives s.names (added s s') st (rt.matchComponents env ps cs) (Assigned rt)
  | [], _, _, s, s', h, _, _, _, _, _ | _ :: _, _, _, s, s', h, _, _, _, .nil, _ => by
    simp only [compileParts] at h
    obtain ⟨-, rfl⟩ := pure_ok h
    rw [added_self]
    simp only [Runtime.matchComponents]
    exact .nil .nil
  | p :: ps, part :: parts, c :: cs, s, s', h, htypes, st, hscene, .cons hpart hparts, holder => by
    simp only [List.map_cons, allUnwrapped, Bool.and_eq_true] at htypes
    have hothers : ∀ {s1 : CompileState}, Leads s s1 → compileParts env ps parts s1 = .ok () s' →
        ∀ l, SameBelow s.names st.locals l →
          Gives s1.names (added s1 s') ⟨l, st.store⟩ (rt.matchComponents env ps cs) (Assigned rt) :=
      fun hleads h1 l hsame => compileParts_gives hrt ps h1 htypes.2 (hscene.after hsame hleads.names)
        (partsAre_same hrt.toEvaluates hsame hparts fun part' hpart' => holder part' (.tail _ hpart'))
        fun part' hpart' => (holder part' (.tail _ hpart')).grows hleads.names
    have hlater : ∀ s1, compileParts env ps parts s1 = .ok () s' → Leads s1 s' :=
      fun s1 h1 => (compileParts_emits ps parts fun _ _ => trivial).ok h1
    cases hpart with
    | @value read ty v hread hhas =>
      simp only [compileParts] at h
      obtain ⟨u, s1, hp, h1⟩ := bind_ok h
      have hleads : Leads s s1 := (compileInto_emits env p read ty fun _ _ => trivial).ok hp
      have hfirst := compileInto_gives hrt p hp htypes.1 ⟨hscene, hread, holder _ (.head _), hhas⟩
      have hjoin : ∀ first, ((rt.matchComponents env ps cs).bind fun others => some (first ++ others)) =
          (rt.matchComponents env ps cs).map (first ++ ·) := fun _ => Option.map_eq_bind.symm
      simp only [Runtime.matchComponents, Option.bind_eq_bind, hjoin]
      exact gives_both hleads (hlater s1 h1) hfirst (hothers hleads h1)
    | @suffix read ty u vs hread helements =>
      simp only [compileParts] at h
      obtain ⟨u', s1, hp, h1⟩ := bind_ok h
      have hleads : Leads s s1 := (bindSuffix_emits fun _ _ => trivial).ok hp
      simp only [Runtime.matchComponents]
      exact gives_both hleads (hlater s1 h1) (bindSuffix_gives hp hread helements) (hothers hleads h1)

end

/-! ## Compiled patterns -/

theorem compile_ok (h : compile env p subject ty names = (.ok compiled, names')) :
    ∃ s', compileInto env p subject ty ⟨names, [], []⟩ = .ok () s' ∧ s'.steps = compiled.steps ∧
      s'.bindings = compiled.bindings ∧ s'.names = names' := by
  unfold compile at h
  split at h
  · rename_i s' hs'
    cases h
    exact ⟨s', hs', rfl, rfl, rfl⟩
  · cases h

theorem compile_distinct (h : compile env p subject ty names = (.ok compiled, names'))
    (hbindings : ∀ b ∈ compiled.bindings, names.Older b.1) : Distinct compiled.steps := by
  obtain ⟨s', hs', hsteps, hbound, -⟩ := compile_ok h
  have hemits : Leads ⟨names, [], []⟩ s' := (compileInto_emits env p subject ty fun _ _ => trivial).ok hs'
  obtain ⟨hlist, hnodup⟩ := hemits.listed ⟨rfl, .nil⟩
  obtain ⟨new, hnew, hnames⟩ := hemits.steps
  rw [hsteps, hbound] at hlist
  rw [hbound] at hnodup
  have hnew : compiled.steps = new := hsteps.symm.trans hnew
  refine ⟨hlist ▸ hnodup, fun a ha b hb x hx htemp => ?_⟩
  obtain ⟨binding, hbinding, rfl⟩ := List.mem_map.mp (hlist ▸ List.mem_flatMap.mpr ⟨a, ha, hx⟩)
  obtain ⟨n, hle, -, heq⟩ := (hnames b (hnew ▸ hb)).2 _ htemp
  exact hbindings binding hbinding n hle heq

/-- The steps that are kept pass where the value matches, and then the names that are used hold
    their components. -/
theorem compile_runs (hrt : rt.Lawful env) (h : compile env p subject ty names = (.ok compiled, names'))
    (hty : unwrapped env p ty = true) (hbindings : ∀ b ∈ compiled.bindings, names.Older b.1)
    (hcapture : NoCapture compiled.steps) (hsubject : Holds rt names subject ty st v) (used : String → Bool) :
    match rt.matchValue env p ty v with
    | none => ∃ st', runSteps (compiled.kept used) st = .failed st' ∧ st'.store = st.store
    | some bs => ∃ l, runSteps (compiled.kept used) st = .passed ⟨l, st.store⟩ ∧
      (∀ b ∈ bs, used b.1 = true → b.1 ≠ "_" → ∃ u, l.lookup b.1 = some (.value u) ∧ b.2.IsAt rt u) ∧
      ∀ x, names.Older x → x ∉ bs.map Prod.fst → l.lookup x = st.locals.lookup x := by
  obtain ⟨s', hs', hsteps, -, -⟩ := compile_ok h
  obtain ⟨hquiet, hruns⟩ := compileInto_gives hrt p hs' hty hsubject
  have hadded : added ⟨names, [], []⟩ s' = compiled.steps := hsteps
  rw [hadded] at hquiet hruns
  have hfollows : Follows used [] (runSteps (compiled.kept used) st) (runApart compiled.steps st) :=
    runSteps_beside hrt.isLocal hquiet hcapture (compile_distinct h hbindings)
  cases hmatch : rt.matchValue env p ty v with
  | none =>
    rw [hmatch] at hruns
    obtain ⟨st', hrun, hstore⟩ := hruns
    rw [hrun] at hfollows
    obtain ⟨st'', hrun', hstore'⟩ := hfollows
    exact ⟨st'', hrun', hstore'.trans hstore⟩
  | some bs =>
    rw [hmatch] at hruns
    obtain ⟨l, bound, hrun, hsame, hassigned⟩ := hruns
    rw [hrun] at hfollows
    obtain ⟨⟨l', store⟩, hrun', hbeside⟩ := hfollows
    obtain rfl : store = st.store := hbeside.store
    refine ⟨l', hrun', fun b hb hused hne => ?_, fun x hx hxs => ?_⟩
    · obtain ⟨⟨name, u⟩, hmem, rfl, hu⟩ := assigned_mem hassigned hb
      exact ⟨u, hbeside.bound _ hmem hused hne, hu⟩
    · rw [← assigned_names hassigned] at hxs
      exact (hbeside.others x hxs).trans (hsame x hx)

/-! ## Pairs -/

def pairTy (first second : Ty) : Ty := .tuple "std" [first, second]

def pairPattern (first second : Pattern) : Located Pattern :=
  ⟨.tuple [⟨first, .synthetic⟩, ⟨second, .synthetic⟩], .synthetic⟩

/-- `(Wrap(On), n)` -/
def boxedPattern : Located Pattern :=
  pairPattern (.extractor "Wrap" [] [⟨.ident "On", .synthetic⟩]) (.ident "n")

/-- The code of `(Wrap(On), n)` on `x`. -/
def boxedCode : CompiledPattern where
  steps := [.define ["_tmp0"] (.method (.zero (.own "Wrap")) "Unapply" [.selector (.ident "x") "V1"]),
    .check (.method (.ident "_tmp0") "IsDefined" []),
    .check (.method (.zero (.own "On")) "Unapply" [.method (.ident "_tmp0") "Get" []]),
    .bind "n" (.selector (.ident "x") "V2")]
  bindings := [("n", .int)]

def boxedPair : Datum := .tuple [.built "Wrap" [.built "On" []], .lit (.int 3)]

theorem boxedPair_holds : Holds boxes names (.ident "x") (pairTy (.own "Boxed") .int)
      ⟨[("x", .value boxedPair)], ()⟩ boxedPair where
  clear _ h := by cases h
  supply _ _ := rfl
  reads := reads_local rfl
  older x hx := by
    simp only [Expr.mentions, beq_iff_eq] at hx
    exact fun n _ => NameSupply.numbered_ne (by rw [← hx]; decide)
  has := .pair (.wrap .on) (.int 3)

def nestedPair : Datum := .tuple [.tuple [.lit (.int 1), .lit (.int 2)], .lit (.int 3)]

/-- The code of `(p, q)` on `p`. -/
def capturedCode : CompiledPattern where
  steps := [.bind "p" (.selector (.ident "p") "V1"), .bind "q" (.selector (.ident "p") "V2")]
  bindings := [("p", pairTy .int .int), ("q", .int)]

def wrappedPair : Datum := .tuple [.wrapped (.lit (.int 3)), .lit (.int 4)]

def wrappedInt : Ty := .generic (.named "std" Ty.wrapperName) [.int]

/-- The code of `(3, q)` on `p`. -/
def wrappedCode : CompiledPattern where
  steps := [.check (.binary .eq (.selector (.ident "p") "V1") (.nat 3)), .bind "q" (.selector (.ident "p") "V2")]
  bindings := [("q", .int)]

/-! ## Assembled statements -/

/-- The statements assembled from a pattern around a body, with every binding kept. Where the value
    of the subject does not match, control goes on behind them and nothing has changed; where it
    matches, the body runs, and every name of the pattern holds its component. -/
theorem compile_refines (hrt : rt.Lawful env) {p : Located Pattern} {subject : Expr} {ty : Ty}
    {names names' : NameSupply} {compiled : CompiledPattern}
    (h : compile env p subject ty names = (.ok compiled, names')) (hty : unwrapped env p ty = true)
    (hbindings : ∀ b ∈ compiled.bindings, names.Older b.1) (hcapture : NoCapture compiled.steps)
    {st : State m} {v : m.Value} (hsubject : Holds rt names subject ty st v) :
    (rt.matchValue env p ty v = none → ∀ bound body,
      (execAll bound (compiled.assemble (fun _ => true) body) st).leave st.locals.length =
        some (.normal st)) ∧
    ∀ bs, rt.matchValue env p ty v = some bs → ∃ l : Locals m.Value m.Cell,
      (∀ b ∈ bs, b.1 ≠ "_" → ∃ u, l.lookup b.1 = some (.value u) ∧ b.2.IsAt rt u) ∧
      (∀ x, names.Older x → x ∉ bs.map Prod.fst → l.lookup x = st.locals.lookup x) ∧
      ∀ bound body, (execAll bound (compiled.assemble (fun _ => true) body) st).leave st.locals.length =
        (execAll bound body ⟨l, st.store⟩).leave st.locals.length := by
  have hruns := compile_runs hrt h hty hbindings hcapture hsubject fun _ => true
  refine ⟨fun hnone bound body => ?_, fun bs hsome => ?_⟩
  · rw [hnone] at hruns
    obtain ⟨st', hrun, hstore⟩ := hruns
    rw [compiled.execAll_assemble_leave (Nat.le_refl _), hrun, Tested.finish,
      leave_normal, State.leave, leave_of_suffix (runSteps_suffix (.inr hrun)), hstore]
  · rw [hsome] at hruns
    obtain ⟨l, hrun, hbound, hothers⟩ := hruns
    refine ⟨l, fun b hb hne => hbound b hb rfl hne, hothers, fun bound body => ?_⟩
    rw [compiled.execAll_assemble_leave (Nat.le_refl _), hrun]
    rfl

theorem compile_refines_boxed :
    compile boxEnv boxedPattern (.ident "x") (pairTy (.own "Boxed") .int) (.new "_tmp") =
        (.ok boxedCode, ⟨"_tmp", 1, 0⟩) ∧
      boxes.matchValue boxEnv boxedPattern (pairTy (.own "Boxed") .int) boxedPair =
        some [("n", .value (.lit (.int 3)) .int)] ∧
      ∃ l : Locals Datum Unit, l.lookup "n" = some (.value (.lit (.int 3))) ∧
        ∀ bound body, (execAll bound (boxedCode.assemble (fun _ => true) body)
            (⟨[("x", .value boxedPair)], ()⟩ : State data)).leave 1 =
              (execAll bound body ⟨l, ()⟩).leave 1 := by
  have hcode : compile boxEnv boxedPattern (.ident "x") (pairTy (.own "Boxed") .int) (.new "_tmp") =
      (.ok boxedCode, ⟨"_tmp", 1, 0⟩) := by with_unfolding_all rfl
  have hsome : boxes.matchValue boxEnv boxedPattern (pairTy (.own "Boxed") .int) boxedPair =
      some [("n", .value (.lit (.int 3)) .int)] := by with_unfolding_all rfl
  have hbindings : ∀ b ∈ boxedCode.bindings, (NameSupply.new "_tmp").Older b.1 := by
    intro b hb n _
    cases List.mem_singleton.mp hb
    exact NameSupply.numbered_ne (by decide)
  have hcapture : NoCapture boxedCode.steps := by
    unfold NoCapture
    decide
  have hunwrapped : unwrapped boxEnv boxedPattern (pairTy (.own "Boxed") .int) = true := by
    with_unfolding_all rfl
  obtain ⟨l, hnames, -, hruns⟩ :=
    (compile_refines boxes_lawful hcode hunwrapped hbindings hcapture boxedPair_holds).2 _ hsome
  obtain ⟨u, hu, hat⟩ := hnames _ (.head _) (by decide)
  cases hat
  exact ⟨hcode, hsome, l, hu, hruns⟩

/-- In `(p, q)` on `p`, the second read is of the new `p`, and `q` holds 2 instead of 3. In `(3, q)`
    on a wrapped 3 and a number, the wrapper itself is compared with 3, and the body is not reached. -/
theorem compile_diverges :
    (boxes.Has nestedPair (pairTy (pairTy .int .int) .int) ∧
      compile boxEnv (pairPattern (.ident "p") (.ident "q")) (.ident "p")
        (pairTy (pairTy .int .int) .int) (.new "_tmp") =
        (.ok capturedCode, .new "_tmp") ∧
      boxes.matchValue boxEnv (pairPattern (.ident "p") (.ident "q"))
        (pairTy (pairTy .int .int) .int) nestedPair =
        some [("p", .value (.tuple [.lit (.int 1), .lit (.int 2)]) (pairTy .int .int)),
          ("q", .value (.lit (.int 3)) .int)] ∧
      execAll 0 (capturedCode.assemble (fun _ => true) [.ret1 (.ident "q")])
        (⟨[("p", .value nestedPair)], ()⟩ : State data) = some (.returned [.lit (.int 2)] ())) ∧
    (boxes.Has wrappedPair (pairTy wrappedInt .int) ∧
      compile boxEnv (pairPattern (.literal (.int 3)) (.ident "q")) (.ident "p")
        (pairTy wrappedInt .int) (.new "_tmp") =
        (.ok wrappedCode, .new "_tmp") ∧
      boxes.matchValue boxEnv (pairPattern (.literal (.int 3)) (.ident "q"))
        (pairTy wrappedInt .int) wrappedPair =
        some [("q", .value (.lit (.int 4)) .int)] ∧
      execAll 0 (wrappedCode.assemble (fun _ => true) [.ret1 (.ident "q")])
        (⟨[("p", .value wrappedPair)], ()⟩ : State data) =
          some (.normal ⟨[("p", .value wrappedPair)], ()⟩)) := by
  refine ⟨⟨.pair (.pair (.int 1) (.int 2)) (.int 3), ?_, ?_, ?_⟩,
    .pair (.wrapped (.int 3)) (.int 4), ?_, ?_, ?_⟩ <;>
    with_unfolding_all rfl

end Lowering.Match
