/-
  LookedThrough — wrapped bindings are typed like bare ones.

  A local value is bound bare while the type of its block is found, and wrapped while the block is lowered. Every
  way in which inference reads a binding looks through the wrapper, so both times it finds the same.
-/

import Lowering.Proofs.Globals

namespace Lowering

open Source (Arg)

/-! ## Scopes -/

/-- The second binding has the type of the first, or the wrapper of it. A wrapper is put around a known type that
    is not wrapped. -/
def Binding.Wraps (b b' : Binding) : Prop :=
  b'.ty = b.ty ∨ b'.ty.wrapped? = some b.ty ∧ b.ty.isNil = false ∧ b.ty.isWrapper = false

theorem Binding.Wraps.seen {b b' : Binding} (h : b.Wraps b') :
    (b'.ty.isNil, b'.ty.unwrap) = (b.ty.isNil, b.ty.unwrap) := by
  rcases h with h | ⟨hwrapped, hnil, hbare⟩
  · rw [h]
  · have hwrapper : b'.ty.isNil = false := by
      cases hty : b'.ty with
      | nil =>
        rw [hty] at hwrapped
        cases hwrapped
      | _ => rfl
    rw [hwrapper, hnil, Ty.unwrap, hwrapped, Ty.unwrap_eq hbare, Option.getD_some]

def Frame.Wraps (f f' : Frame) : Prop := ∀ name, Option.Rel Binding.Wraps (f.find? name) (f'.find? name)

namespace Scope

/-- The scopes have the same frames and names, and differ in wrappers only. -/
structure Wraps (s s' : Scope) : Prop where
  inner : List.Forall₂ Frame.Wraps s.inner s'.inner
  package : Frame.Wraps s.package s'.package

variable {s s' : Scope}

theorem Wraps.find? (h : s.Wraps s') (x : String) : Option.Rel Binding.Wraps (s.find? x) (s'.find? x) := by
  have hinner : ∀ {frames frames' : List Frame}, List.Forall₂ Frame.Wraps frames frames' →
      Option.Rel Binding.Wraps (frames.findSome? (·.find? x)) (frames'.findSome? (·.find? x)) := by
    intro frames frames' hframes
    induction hframes with
    | nil => exact .none
    | @cons f f' _ _ hframe _ ih =>
      have hx := hframe x
      simp only [List.findSome?_cons]
      generalize f.find? x = found, f'.find? x = found' at hx ⊢
      cases hx with
      | none => exact ih
      | some hwraps => exact .some hwraps
  have hx := hinner h.inner
  unfold Scope.find?
  generalize s.inner.findSome? (·.find? x) = found, s'.inner.findSome? (·.find? x) = found' at hx ⊢
  cases hx with
  | none => exact h.package x
  | some hwraps => exact .some hwraps

theorem Wraps.seenAlike (h : s.Wraps s') : s.SeenAlike (fun _ => True) s' := by
  intro x _
  have hx := h.find? x
  unfold seen?
  generalize s.find? x = found, s'.find? x = found' at hx ⊢
  cases hx with
  | none => rfl
  | some hwraps => exact congrArg some hwraps.seen

end Scope

/-! ## Questions -/

theorem Query.Answers.alike {α : Type} {q : Query α} {answer : Scope → α} {scope scope' : Scope}
    (hq : ∀ s, q.Answers s (answer s)) (h : answer scope' = answer scope) : (q.run scope').1 = (q.run scope).1 := by
  have hrun : ∀ s, (q.run s).1 = answer s := fun s => congrArg Prod.fst (hq s)
  rw [hrun, hrun, h]

namespace Inference

variable (inf : Inference) {scope scope' : Scope}

theorem argTypings_alike (h : scope.SeenAlike (fun _ => True) scope') (args : List Arg) :
    inf.argTypings scope' args = inf.argTypings scope args := by
  induction args with
  | nil => simp only [argTypings]
  | cons arg args ih =>
    obtain ⟨name, value⟩ := arg
    have hvalue := inf.argTypingOf_alike h (Lower.mentionsAny (e := value.val))
    unfold argTypingOf at hvalue
    simp only [argTypings, hvalue, ih]

/-- Where bindings are wrapped, every question about types is answered as where they are bare: about an expression,
    a callee, a call, a block, a match and a clause. -/
theorem answers_of_wraps (h : scope.Wraps scope') :
    (∀ e, ((inf.ask e).run scope').1 = ((inf.ask e).run scope).1) ∧
    (∀ e, ((inf.askCalleeOf e).run scope').1 = ((inf.askCalleeOf e).run scope).1) ∧
    (∀ callee typeArgs args expected, ((inf.askCallType callee typeArgs args expected).run scope').1 =
      ((inf.askCallType callee typeArgs args expected).run scope).1) ∧
    (∀ stmts, ((inf.askBlockType stmts).run scope').1 = ((inf.askBlockType stmts).run scope).1) ∧
    (∀ subject clauses declared, ((inf.askMatchType subject clauses declared).run scope').1 =
      ((inf.askMatchType subject clauses declared).run scope).1) ∧
    (∀ subject c, ((inf.askClause subject c).run scope').1 = ((inf.askClause subject c).run scope).1) := by
  have halike := h.seenAlike
  refine ⟨fun e => ?_, fun e => ?_, fun callee typeArgs args expected => ?_, fun stmts => ?_,
    fun subject clauses declared => ?_, fun subject c => ?_⟩
  · exact Query.Answers.alike (ask_answers inf e) (inf.typeOf_alike halike Lower.mentionsAny)
  · exact Query.Answers.alike (askCalleeOf_answers inf) (inf.callee_alike halike Lower.mentionsAny)
  · refine Query.Answers.alike (askCallType_answers inf) ?_
    rw [callType, callType, inf.callee_alike halike Lower.mentionsAny, inf.argTypings_alike halike]
  · -- the type of a block is the type of the expression it makes
    have hblock := inf.typeOf_alike halike (e := Lower.unlocated (.block stmts)) Lower.mentionsAny
    exact Query.Answers.alike (askBlockType_answers inf) hblock
  · refine Query.Answers.alike (askMatchType_answers inf) ?_
    rw [matchType, matchType, inf.typeOf_alike halike Lower.mentionsAny,
      inf.clauseTypes_alike halike fun _ _ _ _ => trivial]
  · exact Query.Answers.alike (fun s => askClause_answers inf c s subject)
      (inf.clauseType_alike halike fun _ _ => trivial)

theorem answers_of_wraps_local :
    let bare := Scope.new.enter.bind "x" .val .int
    let wrapped := Scope.new.enter.bind "x" .val (.generic (.named "std" "Immutable") [.int])
    bare.Wraps wrapped ∧ ∀ (inf : Inference) e, ((inf.ask e).run wrapped).1 = ((inf.ask e).run bare).1 := by
  have hwraps : (Scope.new.enter.bind "x" .val .int).Wraps
      (Scope.new.enter.bind "x" .val (.generic (.named "std" "Immutable") [.int])) := by
    refine ⟨.cons (fun name => ?_) .nil, fun name => .none⟩
    rw [Table.find?_insert, Table.find?_insert]
    split
    · exact .some (.inr ⟨rfl, rfl, rfl⟩)
    · exact .none
  exact ⟨hwraps, fun inf => (inf.answers_of_wraps hwraps).1⟩

end Inference

end Lowering
