/-
  Unambiguous — the trees that a rendered expression can be read as.

  A binary operation that is an operand stands in parentheses, a unary one does not. So `-x.f` is the text of a
  negated field and of a field of something negated (`negatedField_ambiguous`).
-/

import Lowering.Proofs.Rendered
import Lowering.Target.Render

namespace Lowering.Target

/-! ## Expressions that are read -/

/-- A word that is taken neither for a number nor for something with a sign in front. -/
structure IsName (name : String) : Prop where
  word : ∀ c ∈ name.toList, Text.isSeparator c = false
  first : ∃ c text, name.toList = c :: text ∧ c.isDigit = false ∧ c ∉ ['-', '!', '^']

namespace Expr

def isUnary : Expr → Bool
  | .unary _ _ => true
  | _ => false

/-- Names, numbers and operators, where no unary operation is selected from, indexed in or called. -/
inductive Readable : Expr → Prop
  | ident {name : String} (hname : IsName name) : Readable (.ident name)
  | nat (n : Nat) : Readable (.nat n)
  | selector {x : Expr} {sel : String} (hx : Readable x) (hunary : x.isUnary = false) (hsel : IsName sel) :
      Readable (.selector x sel)
  | index {x i : Expr} (hx : Readable x) (hunary : x.isUnary = false) (hi : Readable i) : Readable (.index x i)
  | call {callee : Expr} {args : List Expr} (hcallee : Readable callee) (hunary : callee.isUnary = false)
      (hargs : ∀ a ∈ args, Readable a) : Readable (.call callee [] args)
  | binary {l r : Expr} (op : BinaryOp) (hl : Readable l) (hr : Readable r) : Readable (.binary op l r)
  | unary {x : Expr} (op : UnaryOp) (hx : Readable x) : Readable (.unary op x)

def text (e : Expr) : List Char := e.render.toList

/-- The text in the place of an operand. -/
def operand (e : Expr) : List Char := (asOperand e e.render).toList

end Expr

/-- What stands behind an operand that it is applied to. -/
inductive Suffix where
  | select (name : String)
  | index (i : Expr)
  | call (args : List Expr)

namespace Suffix

def on (x : Expr) : Suffix → Expr
  | .select name => .selector x name
  | .index i => .index x i
  | .call args => .call x [] args

def chars : Suffix → List Char
  | .select name => '.' :: name.toList
  | .index i => '[' :: (i.text ++ [']'])
  | .call args => '(' :: ((commas (Expr.renderList 0 args)).toList ++ [')'])

def Readable : Suffix → Prop
  | .select name => IsName name
  | .index i => i.Readable
  | .call args => ∀ a ∈ args, a.Readable

end Suffix

open Suffix Expr

variable {e e' x : Expr} {s s' : Suffix} {ss ss' : List Suffix} {args args' : List Expr} {r r' t t' : List Char}

theorem operand_on : (s.on x).operand = x.operand ++ s.chars := by
  cases s <;> simp [operand, on, Suffix.chars, Expr.text, render, renderAt, asOperand, typeArgsText]

theorem operand_foldl : (ss.foldl Suffix.on x).operand = x.operand ++ ss.flatMap Suffix.chars := by
  induction ss generalizing x with
  | nil => simp
  | cons s ss ih => rw [List.foldl_cons, ih, operand_on, List.append_assoc, List.flatMap_cons]

/-! ## How an operand begins -/

/-- What an operand that begins with the character is: an operation in parentheses, a number, a unary operation or a
    name, if it is one. -/
def kindOf (c : Char) : Nat :=
  if c = '(' then 0 else if c.isDigit then 1 else if c ∈ ['-', '!', '^'] then 2
  else if Text.isSeparator c then 4 else 3

def Expr.kind : Expr → Nat
  | .binary _ _ _ => 0
  | .lit _ => 1
  | .unary _ _ => 2
  | .ident _ => 3
  | _ => 4

/-- An operand is a name, a number or an operation with suffixes. -/
inductive Expr.Spine : Expr → Prop
  | intro {head : Expr} {ss : List Suffix} (hhead : head.Readable) (hkind : (head.kind == 4) = false) (hss : ∀ s ∈ ss, s.Readable)
      (hplain : ss = [] ∨ head.isUnary = false) : Spine (ss.foldl Suffix.on head)

theorem Expr.Spine.of_head (h : e.Readable) (hkind : (e.kind == 4) = false) : e.Spine :=
  @Spine.intro e [] h hkind (List.forall_mem_nil _) (.inl rfl)

theorem Expr.Spine.suffix (h : x.Spine) (hunary : x.isUnary = false) (hs : s.Readable) : (s.on x).Spine := by
  obtain @⟨head, ss, hhead, hkind, hss, hplain⟩ := h
  have hon : s.on (ss.foldl Suffix.on head) = (ss ++ [s]).foldl Suffix.on head := by simp
  rw [hon]
  refine .intro hhead hkind (List.forall_mem_append.mpr ⟨hss, List.forall_mem_singleton.mpr hs⟩) (.inr ?_)
  rcases hplain with rfl | hplain
  · exact hunary
  · exact hplain

theorem Expr.Readable.spine (h : e.Readable) : e.Spine := by
  induction h with
  | ident hname => exact .of_head (.ident hname) rfl
  | nat n => exact .of_head (.nat n) rfl
  | selector hx hunary hsel ih => exact ih.suffix (s := .select _) hunary hsel
  | index hx hunary hi ih => exact ih.suffix (s := .index _) hunary hi
  | call hcallee hunary hargs ih => exact ih.suffix (s := .call _) hunary hargs
  | binary op hl hr => exact .of_head (.binary op hl hr) rfl
  | unary op hx => exact .of_head (.unary op hx) rfl

/-! ## Words -/

abbrev Separated (t : List Char) : Prop := ∀ c ∈ t.head?, Text.isSeparator c = true

theorem word_inj {word word' : List Char} (hword : ∀ c ∈ word, Text.isSeparator c = false)
    (hword' : ∀ c ∈ word', Text.isSeparator c = false) (ht : Separated t) (ht' : Separated t')
    (h : word ++ t = word' ++ t') : word = word' ∧ t = t' := by
  have hcut := congrArg Text.cut h
  rwa [Ty.cut_word hword ht, Ty.cut_word hword' ht', Prod.mk.injEq] at hcut

theorem nat_operand (n : Nat) : (Expr.nat n).operand = Nat.toDigits 10 n := by
  show (toString n).toList = _
  rw [Nat.toString_eq_repr, Nat.toList_repr]

theorem isDigit_of_mem {n : Nat} {c : Char} (hc : c ∈ Nat.toDigits 10 n) : c.isDigit = true :=
  Nat.isDigit_of_mem_toDigits (by decide) (by decide) hc

def sign : UnaryOp → Char
  | .neg => '-'
  | .not => '!'
  | .bitNot => '^'

theorem unary_operand (op : UnaryOp) (x : Expr) : (Expr.unary op x).operand = sign op :: x.operand := by
  cases op <;> simp [operand, asOperand, render, renderAt, UnaryOp.render, sign]

theorem binary_text (op : BinaryOp) (l r : Expr) :
    (Expr.binary op l r).text = l.operand ++ ' ' :: (op.render.toList ++ ' ' :: r.operand) := by
  simp [text, operand, render, renderAt]

theorem binary_operand (op : BinaryOp) (l r : Expr) :
    (Expr.binary op l r).operand = '(' :: ((Expr.binary op l r).text ++ [')']) := by
  simp [text, operand, asOperand]

theorem kindOf_head (h : e.Readable) (hkind : (e.kind == 4) = false) : ∃ c text, e.operand = c :: text ∧ kindOf c = e.kind := by
  cases h with
  | ident hname =>
    obtain ⟨c, text, htext, hdigit, hsign⟩ := hname.first
    have hplain : Text.isSeparator c = false := hname.word c (by rw [htext]; exact .head _)
    have hopen : c ≠ '(' := by
      rintro rfl
      cases hplain
    exact ⟨c, text, htext, by simp only [kindOf, hopen, hdigit, hsign, hplain, if_false, Bool.false_eq_true, kind]⟩
  | nat n =>
    obtain ⟨c, text, htext⟩ := List.exists_cons_of_ne_nil (Nat.toDigits_ne_nil (b := 10) (n := n))
    have hdigit : c.isDigit = true := isDigit_of_mem (n := n) (by rw [htext]; exact .head _)
    have hopen : c ≠ '(' := by
      rintro rfl
      cases hdigit
    exact ⟨c, text, (nat_operand n).trans htext, by simp only [kindOf, hopen, hdigit, if_false, if_true]; rfl⟩
  | binary op hl hr => exact ⟨'(', _, binary_operand .., rfl⟩
  | unary op hx => exact ⟨sign op, _, unary_operand .., by cases op <;> rfl⟩
  | selector | index | call => cases hkind

/-! ## Comparing texts -/

def Follows (r : List Char) : Prop := ∀ c ∈ r.head?, c ∈ [',', ']', ')', ' ']

/-- No other expression has the text, up to a comma or a closing bracket. -/
def Expr.Told (e : Expr) : Prop :=
  ∀ ⦃e' : Expr⦄ ⦃r r' : List Char⦄, e'.Readable → Ty.Stops r → Ty.Stops r' → e.text ++ r = e'.text ++ r' → e = e' ∧ r = r'

def Suffix.Told : Suffix → Prop
  | .select name => IsName name
  | .index i => i.Told
  | .call args => ∀ a ∈ args, a.Readable ∧ a.Told

/-- What comes after the first of some arguments. -/
def moreArgs : List Expr → List Char
  | [] => []
  | a :: args => ',' :: ' ' :: (a.text ++ moreArgs args)

theorem args_text (a : Expr) : (commas (renderList 0 (a :: args))).toList = a.text ++ moreArgs args := by
  induction args generalizing a with
  | nil => simp [commas, renderList, moreArgs, text, render]
  | cons b args ih =>
    have hmore := ih b
    have hcommas : (commas (renderList 0 (a :: b :: args))).toList =
        a.text ++ ',' :: ' ' :: (commas (renderList 0 (b :: args))).toList := by
      simp [commas, renderList, List.intercalate, text, render]
    rw [hcommas, hmore, moreArgs]

theorem moreArgs_stops : Ty.Stops (moreArgs args ++ ')' :: r) := by
  cases args <;> simp [moreArgs, Ty.Stops]

theorem moreArgs_told (h : ∀ a ∈ args, a.Readable ∧ a.Told) (h' : ∀ a ∈ args', a.Readable)
    (heq : moreArgs args ++ ')' :: r = moreArgs args' ++ ')' :: r') : args = args' ∧ r = r' := by
  induction args generalizing args' with
  | nil =>
    cases args' with
    | nil => exact ⟨rfl, by simpa [moreArgs] using heq⟩
    | cons => simp [moreArgs] at heq
  | cons a args ih =>
    cases args' with
    | nil => simp [moreArgs] at heq
    | cons a' args' =>
      obtain ⟨ha, hargs⟩ := List.forall_mem_cons.mp h
      obtain ⟨ha', hargs'⟩ := List.forall_mem_cons.mp h'
      simp only [moreArgs, List.cons_append, List.append_assoc, List.cons.injEq, true_and] at heq
      obtain ⟨rfl, hrest⟩ := ha.2 ha' moreArgs_stops moreArgs_stops heq
      obtain ⟨rfl, rfl⟩ := ih hargs hargs' hrest
      exact ⟨rfl, rfl⟩

theorem text_eq_operand (h : e.Readable) (hkind : (e.kind == 0) = false) : e.text = e.operand := by
  cases h with
  | binary => cases hkind
  | _ => rfl

theorem operand_ne_closing (h : e.Readable) : e.operand ++ t ≠ ')' :: t' := by
  obtain @⟨head, ss, hhead, hkind, -, -⟩ := h.spine
  obtain ⟨c, text, htext, hc⟩ := kindOf_head hhead hkind
  rw [operand_foldl, htext]
  rintro ⟨⟩
  rw [← hc] at hkind
  cases hkind

theorem text_ne_closing (h : e.Readable) : e.text ++ t ≠ ')' :: t' := by
  cases hkind : e.kind == 0 with
  | true =>
    cases h with
    | binary op hl hr =>
      rw [binary_text, List.append_assoc]
      exact operand_ne_closing hl
    | _ => cases hkind
  | false =>
    rw [text_eq_operand h hkind]
    exact operand_ne_closing h

theorem args_told (h : ∀ a ∈ args, a.Readable ∧ a.Told) (h' : ∀ a ∈ args', a.Readable)
    (heq : (commas (renderList 0 args)).toList ++ ')' :: r = (commas (renderList 0 args')).toList ++ ')' :: r') :
    args = args' ∧ r = r' := by
  cases args with
  | nil =>
    cases args' with
    | nil => exact ⟨rfl, (List.cons.inj heq).2⟩
    | cons a' args' =>
      rw [args_text, List.append_assoc] at heq
      exact absurd heq.symm (text_ne_closing (h' a' (.head _)))
  | cons a args =>
    obtain ⟨ha, hargs⟩ := List.forall_mem_cons.mp h
    rw [args_text, List.append_assoc] at heq
    cases args' with
    | nil => exact absurd heq (text_ne_closing ha.1)
    | cons a' args' =>
      obtain ⟨ha', hargs'⟩ := List.forall_mem_cons.mp h'
      rw [args_text, List.append_assoc] at heq
      obtain ⟨rfl, hrest⟩ := ha.2 ha' moreArgs_stops moreArgs_stops heq
      obtain ⟨rfl, rfl⟩ := moreArgs_told hargs hargs' hrest
      exact ⟨rfl, rfl⟩

theorem suffix_told (h : s.Told) (h' : s'.Readable) (ht : Separated t) (ht' : Separated t')
    (heq : s.chars ++ t = s'.chars ++ t') : s = s' ∧ t = t' := by
  cases s with
  | select name =>
    cases s' with
    | select name' =>
      obtain ⟨hname, rfl⟩ := word_inj h.word h'.word ht ht' (List.cons.inj heq).2
      rw [String.toList_inj.mp hname]
      exact ⟨rfl, rfl⟩
    | index | call => cases heq
  | index i =>
    cases s' with
    | index i' =>
      simp only [Suffix.chars, List.cons_append, List.append_assoc, List.nil_append, List.cons.injEq, true_and] at heq
      obtain ⟨rfl, hrest⟩ := h h' (by simp [Ty.Stops]) (by simp [Ty.Stops]) heq
      exact ⟨rfl, (List.cons.inj hrest).2⟩
    | select | call => cases heq
  | call args =>
    cases s' with
    | call args' =>
      simp only [Suffix.chars, List.cons_append, List.append_assoc, List.nil_append, List.cons.injEq, true_and] at heq
      obtain ⟨rfl, rfl⟩ := args_told h h' heq
      exact ⟨rfl, rfl⟩
    | select | index => cases heq

theorem separator_of_suffixes (hr : Follows r) : Separated (ss.flatMap Suffix.chars ++ r) := by
  cases ss with
  | nil =>
    intro c hc
    have hmem := hr c hc
    simp only [List.mem_cons, List.not_mem_nil, or_false] at hmem
    rcases hmem with rfl | rfl | rfl | rfl <;> rfl
  | cons s ss => cases s <;> simp [Separated, Suffix.chars, Text.isSeparator]

theorem suffixes_told (h : ∀ s ∈ ss, s.Told) (h' : ∀ s ∈ ss', s.Readable) (hr : Follows r) (hr' : Follows r')
    (heq : ss.flatMap Suffix.chars ++ r = ss'.flatMap Suffix.chars ++ r') : ss = ss' ∧ r = r' := by
  induction ss generalizing ss' with
  | nil =>
    cases ss' with
    | nil => exact ⟨rfl, heq⟩
    | cons s' ss' =>
      obtain rfl : r = _ := heq
      cases s' <;> simp [Suffix.chars, Follows] at hr
  | cons s ss ih =>
    cases ss' with
    | nil =>
      obtain rfl : _ = r' := heq
      cases s <;> simp [Suffix.chars, Follows] at hr'
    | cons s' ss' =>
      obtain ⟨hs, hss⟩ := List.forall_mem_cons.mp h
      obtain ⟨hs', hss'⟩ := List.forall_mem_cons.mp h'
      simp only [List.flatMap_cons, List.append_assoc] at heq
      obtain ⟨rfl, hrest⟩ := suffix_told hs hs' (separator_of_suffixes hr) (separator_of_suffixes hr') heq
      obtain ⟨rfl, rfl⟩ := ih hss hss' hrest
      exact ⟨rfl, rfl⟩

/-! ## Expressions -/

/-- No other operand is the same with these suffixes. -/
def Expr.Placed (e : Expr) : Prop :=
  ∀ ⦃ss : List Suffix⦄ ⦃e' : Expr⦄ ⦃r r' : List Char⦄, (∀ s ∈ ss, s.Told) → (ss = [] ∨ e.isUnary = false) →
    e'.Readable → Follows r → Follows r' → e.operand ++ (ss.flatMap Suffix.chars ++ r) = e'.operand ++ r' →
    ss.foldl Suffix.on e = e' ∧ r = r'

theorem Expr.Placed.operand_inj (h : e.Placed) (h' : e'.Readable) (hr : Follows r) (hr' : Follows r')
    (heq : e.operand ++ r = e'.operand ++ r') : e = e' ∧ r = r' :=
  h (List.forall_mem_nil _) (.inl rfl) h' hr hr' heq

theorem Expr.Placed.of_head (h : e.Readable) (hkind : (e.kind == 4) = false)
    (hcompare : ∀ {head t t'}, head.Readable → head.kind = e.kind → Separated t → Separated t' →
      (e.isUnary = true → Follows t) → (head.isUnary = true → Follows t') → e.operand ++ t = head.operand ++ t' →
      e = head ∧ t = t') : e.Placed := by
  intro ss e' r r' hss hunary h' hr hr' heq
  obtain @⟨head, ss', hhead, hkind', hss', hunary'⟩ := h'.spine
  rw [operand_foldl, List.append_assoc] at heq
  have hsame : head.kind = e.kind := by
    obtain ⟨c, text, htext, hc⟩ := kindOf_head h hkind
    obtain ⟨c', text', htext', hc'⟩ := kindOf_head hhead hkind'
    rw [htext, htext'] at heq
    rw [← hc, ← hc', (List.cons.inj heq).1]
  have hlast : ∀ {x : Expr} {ss : List Suffix} {r : List Char}, Follows r → (ss = [] ∨ x.isUnary = false) →
      x.isUnary = true → Follows (ss.flatMap Suffix.chars ++ r) := by
    rintro x ss r hr (rfl | hplain) hunary
    · exact hr
    · rw [hplain] at hunary
      cases hunary
  obtain ⟨rfl, hrest⟩ := hcompare hhead hsame (separator_of_suffixes hr) (separator_of_suffixes hr')
    (hlast hr hunary) (hlast hr' hunary') heq
  obtain ⟨rfl, rfl⟩ := suffixes_told hss hss' hr hr' hrest
  exact ⟨rfl, rfl⟩

theorem Expr.Placed.suffix (h : x.Placed) (hunary : x.isUnary = false) (hs : s.Told) : (s.on x).Placed := by
  intro ss e' r r' hss _ h' hr hr' heq
  rw [operand_on, List.append_assoc] at heq
  rw [← List.append_assoc s.chars, ← List.flatMap_cons] at heq
  exact h (List.forall_mem_cons.mpr ⟨hs, hss⟩) (.inr hunary) h' hr hr' heq

theorem follows_of_stops (h : Ty.Stops r) : Follows r := fun c hc => List.mem_append_left [' '] (h c hc)

theorem Expr.Placed.told (h : e.Placed) (he : e.Readable) (hkind : (e.kind == 0) = false) : e.Told := by
  intro e' r r' h' hr hr' heq
  rw [text_eq_operand he hkind] at heq
  cases hkind' : e'.kind == 0 with
  | true =>
    cases h' with
    | binary op hl _ =>
      rw [binary_text, List.append_assoc] at heq
      obtain ⟨-, rfl⟩ := h.operand_inj hl (follows_of_stops hr) (by simp [Follows]) heq
      simp [Ty.Stops] at hr
    | _ => cases hkind'
  | false =>
    rw [text_eq_operand h' hkind'] at heq
    exact h.operand_inj h' (follows_of_stops hr) (follows_of_stops hr') heq

theorem op_inj {op op' : BinaryOp} (h : op.render.toList ++ ' ' :: t = op'.render.toList ++ ' ' :: t') :
    op = op' ∧ t = t' := by
  have hread : ∀ (op : BinaryOp) (t : List Char), (op.render.toList ++ ' ' :: t).takeWhile (· ≠ ' ') = op.render.toList := by
    intro op t
    cases op <;> rfl
  have hrender : op.render.toList = op'.render.toList := by rw [← hread op t, h, hread]
  rw [hrender] at h
  refine ⟨?_, (List.cons.inj (List.append_cancel_left h)).2⟩
  cases op <;> cases op' <;> first | rfl | exact absurd hrender (by decide)

theorem told_binary {op : BinaryOp} {l r : Expr} (hl : l.Placed) (hr : r.Placed) : (Expr.binary op l r).Told := by
  intro e' t t' h' ht ht' heq
  rw [binary_text, List.append_assoc] at heq
  cases hkind : e'.kind == 0 with
  | true =>
    cases h' with
    | binary op' hl' hr' =>
      rw [binary_text, List.append_assoc] at heq
      obtain ⟨rfl, hright⟩ := hl.operand_inj hl' (by simp [Follows]) (by simp [Follows]) heq
      simp only [List.cons_append, List.append_assoc, List.cons.injEq, true_and] at hright
      obtain ⟨rfl, hrest⟩ := op_inj hright
      obtain ⟨rfl, rfl⟩ := hr.operand_inj hr' (follows_of_stops ht) (follows_of_stops ht') hrest
      exact ⟨rfl, rfl⟩
    | _ => cases hkind
  | false =>
    rw [text_eq_operand h' hkind] at heq
    obtain ⟨-, rfl⟩ := hl.operand_inj h' (by simp [Follows]) (follows_of_stops ht') heq
    simp [Ty.Stops] at ht'

theorem Expr.Readable.placed (h : e.Readable) : e.Placed ∧ e.Told := by
  induction h with
  | @ident name hname =>
    have hplaced : (Expr.ident name).Placed := by
      refine Placed.of_head (.ident hname) rfl fun h' hkind ht ht' _ _ heq => ?_
      cases h' with
      | ident hname' =>
        obtain ⟨htext, rfl⟩ := word_inj hname.word hname'.word ht ht' heq
        rw [String.toList_inj.mp htext]
        exact ⟨rfl, rfl⟩
      | _ => cases hkind
    exact ⟨hplaced, hplaced.told (.ident hname) rfl⟩
  | nat n =>
    have hplaced : (Expr.nat n).Placed := by
      refine Placed.of_head (.nat n) rfl fun h' hkind ht ht' _ _ heq => ?_
      cases h' with
      | nat n' =>
        rw [nat_operand, nat_operand] at heq
        have hdigits : ∀ {m : Nat}, ∀ c ∈ Nat.toDigits 10 m, Text.isSeparator c = false := fun c hc =>
          Text.isSeparator_of_isDigit (isDigit_of_mem hc)
        obtain ⟨htext, rfl⟩ := word_inj hdigits hdigits ht ht' heq
        obtain rfl : n = n' := by simpa using congrArg (Nat.ofDigitChars 10 · 0) htext
        exact ⟨rfl, rfl⟩
      | _ => cases hkind
    exact ⟨hplaced, hplaced.told (.nat n) rfl⟩
  | selector hx hunary hsel ih =>
    have hplaced := ih.1.suffix (s := .select _) hunary hsel
    exact ⟨hplaced, hplaced.told (.selector hx hunary hsel) rfl⟩
  | index hx hunary hi ih ihi =>
    have hplaced := ih.1.suffix (s := .index _) hunary ihi.2
    exact ⟨hplaced, hplaced.told (.index hx hunary hi) rfl⟩
  | call hcallee hunary hargs ih ihargs =>
    have hplaced := ih.1.suffix (s := .call _) hunary fun a ha => ⟨hargs a ha, (ihargs a ha).2⟩
    exact ⟨hplaced, hplaced.told (.call hcallee hunary hargs) rfl⟩
  | @binary l r op hl hr ihl ihr =>
    have htold : (Expr.binary op l r).Told := told_binary ihl.1 ihr.1
    refine ⟨Placed.of_head (.binary op hl hr) rfl fun h' hkind _ _ _ _ heq => ?_, htold⟩
    cases h' with
    | binary op' hl' hr' =>
      simp only [binary_operand, List.cons_append, List.append_assoc, List.nil_append, List.cons.injEq, true_and] at heq
      obtain ⟨hsame, hrest⟩ := htold (.binary op' hl' hr') (by simp [Ty.Stops]) (by simp [Ty.Stops]) heq
      exact ⟨hsame, (List.cons.inj hrest).2⟩
    | _ => cases hkind
  | @unary x op hx ih =>
    have hplaced : (Expr.unary op x).Placed := by
      refine Placed.of_head (.unary op hx) rfl fun h' hkind _ _ ht ht' heq => ?_
      cases h' with
      | unary op' hx' =>
        rw [unary_operand, unary_operand] at heq
        obtain ⟨hsign, heq⟩ := List.cons.inj heq
        obtain ⟨rfl, rfl⟩ := ih.1.operand_inj hx' (ht rfl) (ht' rfl) heq
        obtain rfl : op = op' := by cases op <;> cases op' <;> first | rfl | cases hsign
        exact ⟨rfl, rfl⟩
      | _ => cases hkind
    exact ⟨hplaced, hplaced.told (.unary op hx) rfl⟩

/-- Different expressions have different texts, where no unary operation is selected from, indexed in or called. -/
theorem render_unambiguous {e e' : Expr} (h : e.Readable) (h' : e'.Readable) (heq : e.render = e'.render) : e = e' := by
  have htext : e.text ++ [] = e'.text ++ [] := congrArg (fun text => text.toList ++ []) heq
  exact (h.placed.2 h' (by simp [Ty.Stops]) (by simp [Ty.Stops]) htext).1

/-- `-x.f` as the negation of a field and as a field of a negation. -/
theorem negatedField_ambiguous :
    (Expr.selector (.unary .neg (.ident "x")) "f").render = (Expr.unary .neg (.selector (.ident "x") "f")).render ∧
      Expr.selector (.unary .neg (.ident "x")) "f" ≠ .unary .neg (.selector (.ident "x") "f") :=
  ⟨by decide, fun h => by cases h⟩

/-- `x - (y - 1)` and `(x - y) - 1`. -/
theorem render_unambiguous_sub : let x := Expr.ident "x"; let y := Expr.ident "y"
    (Expr.binary .sub x (.binary .sub y (.nat 1))).render ≠ (Expr.binary .sub (.binary .sub x y) (.nat 1)).render := by
  intro x y heq
  have hx : x.Readable := .ident ⟨by simp [Text.isSeparator], 'x', [], rfl, by decide⟩
  have hy : y.Readable := .ident ⟨by simp [Text.isSeparator], 'y', [], rfl, by decide⟩
  cases render_unambiguous (.binary .sub hx (.binary .sub hy (.nat 1))) (.binary .sub (.binary .sub hx hy) (.nat 1)) heq

end Lowering.Target
