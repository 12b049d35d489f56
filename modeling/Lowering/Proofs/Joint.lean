/-
  Joint — two rules at once.

  A type, a name or a place is within both rules when it is within each of them.
-/

import Lowering.Proofs.Lowered

namespace Lowering

open Source (Item)

namespace Rule

/-- Within each of two rules. -/
def both (R S : Rule) : Rule where
  ty t := R.ty t ∧ S.ty t
  param x := R.param x ∧ S.param x
  name x := R.name x ∧ S.name x
  mention x := R.mention x ∧ S.mention x
  stem x := R.stem x ∧ S.stem x
  place target := R.place target ∧ S.place target
  selects target name := R.selects target name ∧ S.selects target name
  origin o := R.origin o ∧ S.origin o
  ident x := R.ident x ∧ S.ident x
  emitted t := R.emitted t ∧ S.emitted t
  literal t := R.literal t ∧ S.literal t
  node n := R.node n ∧ S.node n

variable {R S : Rule} {env : Env}

/-! ## Parts -/

theorem permits_both {items : List Item} : (R.both S).Permits items ↔ R.Permits items ∧ S.Permits items := by
  have hallows : ∀ i : Item, (R.both S).Allows i ↔ R.Allows i ∧ S.Allows i := by
    intro i
    cases i <;> simp [Allows, both]
  simp only [Permits, hallows]
  exact ⟨fun h => ⟨fun i hi => (h i hi).1, fun i hi => (h i hi).2⟩, fun h i hi => ⟨h.1 i hi, h.2 i hi⟩⟩

theorem result_both {t : Ty} : (R.both S).Result t ↔ R.Result t ∧ S.Result t := by
  constructor
  · rintro (h | h)
    · exact ⟨.inl h, .inl h⟩
    · exact ⟨.inr h.1, .inr h.2⟩
  · rintro ⟨h | hR, h | hS⟩
    · exact .inl h
    · exact .inl h
    · exact .inl h
    · exact .inr ⟨hR, hS⟩

theorem known_both {t : Ty} (hR : R.Known t) (hS : S.Known t) : (R.both S).Known t := by
  rcases hR with h | hR
  · exact .inl h
  · rcases hS with h | hS
    · exact .inl h
    · exact .inr (result_both.mpr ⟨hR, hS⟩)

theorem binding_both {x : String} {b : Lowering.Binding} : (R.both S).Binding x b ↔ R.Binding x b ∧ S.Binding x b := by
  constructor
  · rintro ⟨hname, hty, hvar⟩
    obtain ⟨hR, hS⟩ := result_both.mp hty
    exact ⟨⟨hname.1, hR, fun h => (hvar h).1⟩, ⟨hname.2, hS, fun h => (hvar h).2⟩⟩
  · rintro ⟨hR, hS⟩
    exact ⟨⟨hR.name, hS.name⟩, result_both.mpr ⟨hR.ty, hS.ty⟩, fun h => ⟨hR.variable_ty h, hS.variable_ty h⟩⟩

theorem scope_both {scope : Lowering.Scope} : (R.both S).Scope scope ↔ R.Scope scope ∧ S.Scope scope := by
  simp only [Scope, binding_both]
  exact ⟨fun h => ⟨fun x b hb => (h x b hb).1, fun x b hb => (h x b hb).2⟩, fun h x b hb => ⟨h.1 x b hb, h.2 x b hb⟩⟩

theorem state_both {s : LowerState} : (R.both S).State s ↔ R.State s ∧ S.State s := by
  constructor
  · rintro ⟨hscope, hfunctions, hstem⟩
    obtain ⟨hR, hS⟩ := scope_both.mp hscope
    exact ⟨⟨hR, fun f hf => (result_both.mp (hfunctions f hf)).1, hstem.1⟩,
      ⟨hS, fun f hf => (result_both.mp (hfunctions f hf)).2, hstem.2⟩⟩
  · rintro ⟨hR, hS⟩
    exact ⟨scope_both.mpr ⟨hR.scope, hS.scope⟩, fun f hf => result_both.mpr ⟨hR.functions f hf, hS.functions f hf⟩,
      hR.stem, hS.stem⟩

theorem Signature.both {typeParams : List String} {params : List Ty} {result : Ty}
    (hR : R.Signature typeParams params result) (hS : S.Signature typeParams params result) :
    (R.both S).Signature typeParams params result where
  typeParams p hp := ⟨hR.typeParams p hp, hS.typeParams p hp⟩
  params t ht := ⟨hR.params t ht, hS.params t ht⟩
  result := result_both.mpr ⟨hR.result, hS.result⟩

theorem Entry.both {e : TypeEntry} (hR : R.Entry e) (hS : S.Entry e) : (R.both S).Entry e where
  typeParams p hp := ⟨hR.typeParams p hp, hS.typeParams p hp⟩
  fieldTypes t ht := ⟨hR.fieldTypes t ht, hS.fieldTypes t ht⟩
  methods name m hm := (hR.methods name m hm).both (hS.methods name m hm)

theorem Declares.both {d : Source.Decl} (hR : R.Declares env d) (hS : S.Declares env d) : (R.both S).Declares env d where
  items := permits_both.mpr ⟨hR.items, hS.items⟩
  self decl hd e he := ⟨hR.self decl hd e he, hS.self decl hd e he⟩
  variants x hx := ⟨hR.variants x hx, hS.variants x hx⟩

/-! ## Laws -/

theorem Formed.both (hR : R.Formed env) (hS : S.Formed env) : (R.both S).Formed env where
  builtin name hname := ⟨hR.builtin name hname, hS.builtin name hname⟩
  any := ⟨hR.any, hS.any⟩
  args ht a ha := ⟨hR.args ht.1 a ha, hS.args ht.2 a ha⟩
  array ht := ⟨hR.array ht.1, hS.array ht.2⟩
  pointer ht := ⟨hR.pointer ht.1, hS.pointer ht.2⟩
  map ht := ⟨⟨(hR.map ht.1).1, (hS.map ht.2).1⟩, (hR.map ht.1).2, (hS.map ht.2).2⟩
  func := by
    refine ⟨fun ht => ?_, fun ht => ⟨hR.func.mpr ?_, hS.func.mpr ?_⟩⟩
    · obtain ⟨hparams, hresults⟩ := hR.func.mp ht.1
      obtain ⟨hparams', hresults'⟩ := hS.func.mp ht.2
      exact ⟨fun t ht => ⟨hparams t ht, hparams' t ht⟩, fun t ht => ⟨hresults t ht, hresults' t ht⟩⟩
    · exact ⟨fun t h => (ht.1 t h).1, fun t h => (ht.2 t h).1⟩
    · exact ⟨fun t h => (ht.1 t h).2, fun t h => (ht.2 t h).2⟩
  tuple h := ⟨hR.tuple fun t ht => (h t ht).1, hS.tuple fun t ht => (h t ht).2⟩
  built he hbuilt h := ⟨hR.built he hbuilt fun a ha => (h a ha).1, hS.built he hbuilt fun a ha => (h a ha).2⟩
  subst hs ht := ⟨hR.subst (fun x t h => ⟨(hs x t h).1.1, (hs x t h).2.1⟩) ht.1,
    hS.subst (fun x t h => ⟨(hs x t h).1.2, (hs x t h).2.2⟩) ht.2⟩
  entry he := (hR.entry he).both (hS.entry he)
  function hname hf := (hR.function hname.1 hf).both (hS.function hname.2 hf)
  expansion ha := by
    obtain ⟨hparams, htarget⟩ := hR.expansion ha
    obtain ⟨hparams', htarget'⟩ := hS.expansion ha
    exact ⟨fun p hp => ⟨hparams p hp, hparams' p hp⟩, htarget, htarget'⟩
  headed package name args := ⟨hR.headed package name args, hS.headed package name args⟩

theorem Emitting.both (hR : R.Emitting env) (hS : S.Emitting env) : (R.both S).Emitting env where
  emitted ht := ⟨hR.emitted ht.1, hS.emitted ht.2⟩
  plain n hn h hx hl := ⟨hR.plain n hn (fun t ht => (h t ht).1) (fun x hmem => (hx x hmem).1) fun t ht => (hl t ht).1,
    hS.plain n hn (fun t ht => (h t ht).2) (fun x hmem => (hx x hmem).2) fun t ht => (hl t ht).2⟩
  identAt hn := ⟨hR.identAt hn.1, hS.identAt hn.2⟩
  boundName hx := ⟨hR.boundName hx.1, hS.boundName hx.2⟩
  madeName hstem n := ⟨hR.madeName hstem.1 n, hS.madeName hstem.2 n⟩
  flagName n := ⟨hR.flagName n, hS.flagName n⟩
  builtinName hx := ⟨hR.builtinName hx, hS.builtinName hx⟩
  packageName hq := ⟨hR.packageName hq, hS.packageName hq⟩
  runtimeName hname := ⟨hR.runtimeName hname, hS.runtimeName hname⟩
  functionName hf := ⟨hR.functionName hf, hS.functionName hf⟩
  extractedName hm hform := ⟨hR.extractedName hm hform, hS.extractedName hm hform⟩
  stem := ⟨hR.stem, hS.stem⟩
  temporary hstem n := by
    obtain ⟨hname, hmention⟩ := hR.temporary hstem.1 n
    obtain ⟨hname', hmention'⟩ := hS.temporary hstem.2 n
    exact ⟨⟨hname, hname'⟩, hmention, hmention'⟩
  wrapper ht hw := ⟨hR.wrapper ht.1 hw, hS.wrapper ht.2 hw⟩
  own he := (hR.own he).both (hS.own he)
  named name params := ⟨hR.named name params, hS.named name params⟩
  option ht name hname := ⟨hR.option ht.1 name hname, hS.option ht.2 name hname⟩
  dropped value := ⟨hR.dropped value, hS.dropped value⟩
  flagged n := ⟨hR.flagged n, hS.flagged n⟩
  place htarget hs hrun op value := by
    obtain ⟨hsR, hsS⟩ := state_both.mp hs
    exact ⟨hR.place htarget.1 hsR hrun op value, hS.place htarget.2 hsS hrun op value⟩
  copied hmember hs hcallee hrun := by
    obtain ⟨hsR, hsS⟩ := state_both.mp hs
    exact ⟨hR.copied hmember.1 hsR hcallee hrun, hS.copied hmember.2 hsS hcallee hrun⟩
  made hmade h := by
    obtain ⟨hfrom, hitems, hs, hinside, hflow, hn, hresults, ho, hmakes, hmade⟩ := hmade
    obtain ⟨hsR, hsS⟩ := state_both.mp hs
    obtain ⟨hR', hS'⟩ := permits_both.mp hitems
    exact ⟨hR.made (.intro hfrom hR' hsR hinside hflow hn hresults ho.1 hmakes hmade) fun t ht => (h t ht).1,
      hS.made (.intro hfrom hS' hsS hinside hflow hn hresults ho.2 hmakes hmade) fun t ht => (h t ht).2⟩
  straight hs n hn h hscopes :=
    ⟨hR.straight ⟨hs.ends, hs.returns, fun x hx => (hs.writes x hx).imp fun _ => .imp_left And.left⟩ n hn
        (fun t ht => (h t ht).1)
        (hscopes.imp (.imp_right fun hx x hmem => (hx x hmem).imp_right And.left)
          fun ⟨o, ho, heq⟩ => ⟨o, ho.1, heq⟩),
      hS.straight ⟨hs.ends, hs.returns, fun x hx => (hs.writes x hx).imp fun _ => .imp_left And.right⟩ n hn
        (fun t ht => (h t ht).2)
        (hscopes.imp (.imp_right fun hx x hmem => (hx x hmem).imp_right And.right)
          fun ⟨o, ho, heq⟩ => ⟨o, ho.2, heq⟩)⟩

end Rule

end Lowering
