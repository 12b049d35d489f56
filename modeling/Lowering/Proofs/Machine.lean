/-
  Machine — what lowered statements do when they run.

  A machine says how expressions are evaluated: any function of the expression, the local variables and a store,
  as long as it knows local variables, truth values, `!` and `&&`. A name of `:=` is a value, a `var` a cell of
  the store, which function literals may share.
-/

import Lowering.Target.Tree
import Mathlib.Data.List.Forall2

namespace Lowering.Target

inductive Evaluated (α Store : Type) where
  | value (v : α) (store : Store)
  | panic (store : Store)

inductive Slot (Value Cell : Type) where
  | value (v : Value)
  /-- A `var`, which function literals may share. -/
  | cell (c : Cell)

def Slot.read {Value Cell Store : Type} (load : Cell → Store → Value) (store : Store) : Slot Value Cell → Value
  | .value v => v
  | .cell c => load c store

abbrev Locals (Value Cell : Type) := List (String × Slot Value Cell)

namespace Locals

variable {Value Cell : Type}

/-- A new local; `_` names nothing. -/
def define (locals : Locals Value Cell) (name : String) (slot : Slot Value Cell) : Locals Value Cell :=
  if name = "_" then locals else (name, slot) :: locals

def set (x : String) (v : Value) : Locals Value Cell → Locals Value Cell
  | [] => []
  | (y, slot) :: rest => if y = x then (y, .value v) :: rest else (y, slot) :: set x v rest

/-- The oldest `n` locals. -/
def leave (locals : Locals Value Cell) (n : Nat) : Locals Value Cell := locals.drop (locals.length - n)

end Locals

structure Machine where
  Value : Type
  Cell : Type
  Store : Type
  bool : Bool → Value
  truth : Value → Bool
  /-- The value of a `var` without one. -/
  zero : Ty → Value
  load : Cell → Store → Value
  put : Cell → Value → Store → Store
  allocate : Value → Store → Cell × Store
  /-- `v, ok := x.(T)` -/
  cast : Value → Ty → Value × Bool
  /-- The value of `a op= b`. -/
  combine : BinaryOp → Value → Value → Value
  eval : Expr → Locals Value Cell → Store → Evaluated Value Store
  /-- An assignment to anything but one local. -/
  write : List Expr → Option BinaryOp → List Value → Locals Value Cell → Store → Evaluated Unit Store
  truth_bool : ∀ b, truth (bool b) = b
  eval_local : ∀ x slot locals store, locals.lookup x = some slot →
    eval (.ident x) locals store = .value (slot.read load store) store
  eval_bool : ∀ b locals store, eval (.bool b) locals store = .value (bool b) store
  eval_not : ∀ e locals store, eval (.not e) locals store = match eval e locals store with
    | .value v store => .value (bool (!truth v)) store
    | .panic store => .panic store
  eval_and : ∀ a b locals store, eval (.binary .and a b) locals store = match eval a locals store with
    | .value v store => if truth v then eval b locals store else .value v store
    | .panic store => .panic store

structure State (m : Machine) where
  locals : Locals m.Value m.Cell
  store : m.Store

def State.leave {m : Machine} (st : State m) (n : Nat) : State m := { st with locals := st.locals.leave n }

inductive Outcome (m : Machine) where
  | normal (st : State m)
  | returned (values : List m.Value) (store : m.Store)
  | panicked (store : m.Store)

def Outcome.leave {m : Machine} (n : Nat) : Outcome m → Outcome m
  | .normal st => .normal (st.leave n)
  | o => o

/-- A run, `none` when a loop was cut off. -/
abbrev Run (m : Machine) := Option (Outcome m)

variable {m : Machine} {α : Type} {r : Run m}

namespace Run

def andThen (r : Run m) (next : State m → Run m) : Run m :=
  match r with
  | some (.normal st) => next st
  | r => r

/-- The end of a block that was entered with `n` locals. -/
def leave (r : Run m) (n : Nat) : Run m := r.map (Outcome.leave n)

def ofEval {α : Type} (e : Evaluated α m.Store) (next : α → m.Store → Run m) : Run m :=
  match e with
  | .value v store => next v store
  | .panic store => some (.panicked store)

end Run

/-! ## Statements -/

def Machine.evalAll (m : Machine) : List Expr → Locals m.Value m.Cell → m.Store → Evaluated (List m.Value) m.Store
  | [], _, store => .value [] store
  | e :: es, locals, store =>
    match m.eval e locals store with
    | .panic store => .panic store
    | .value v store =>
      match m.evalAll es locals store with
      | .panic store => .panic store
      | .value vs store => .value (v :: vs) store

def defineAll (locals : Locals m.Value m.Cell) (names : List String) (values : List m.Value) :
    Locals m.Value m.Cell :=
  (names.zip values).foldl (fun locals (x, v) => locals.define x (.value v)) locals

/-- The locals after `a, b := x, y`, or after the two results of a type assertion. -/
def evalDefine (names : List String) (values : List Expr) (st : State m) :
    Evaluated (Locals m.Value m.Cell) m.Store :=
  match names, values with
  | [target, ok], [.typeAssert x ty] =>
    match m.eval x st.locals st.store with
    | .value v store => .value (defineAll st.locals [target, ok] [(m.cast v ty).1, m.bool (m.cast v ty).2]) store
    | .panic store => .panic store
  | names, values =>
    match m.evalAll values st.locals st.store with
    | .value vs store => .value (defineAll st.locals names vs) store
    | .panic store => .panic store

def execDefine (names : List String) (values : List Expr) (st : State m) : Run m :=
  .ofEval (evalDefine names values st) fun locals store => some (.normal ⟨locals, store⟩)

def execVar (name : String) (ty : Ty) (value : Option Expr) (st : State m) : Run m :=
  let initial := match value with
    | some e => m.eval e st.locals st.store
    | none => .value (m.zero ty) st.store
  .ofEval initial fun v store =>
    some (.normal ⟨st.locals.define name (.cell (m.allocate v store).1), (m.allocate v store).2⟩)

/-- The value of `old op= v`, or of `= v`. -/
def Machine.assigned (m : Machine) (op : Option BinaryOp) (old v : m.Value) : m.Value :=
  match op with
  | some op => m.combine op old v
  | none => v

def assignElsewhere (targets : List Expr) (op : Option BinaryOp) (values : List m.Value) (st : State m) : Run m :=
  .ofEval (m.write targets op values st.locals st.store) fun _ store => some (.normal { st with store })

/-- A value into a local, into its cell, or wherever else the targets say. -/
def assignTo (targets : List Expr) (op : Option BinaryOp) (values : List m.Value) (st : State m) : Run m :=
  match targets, values with
  | [.ident x], [v] =>
    if x = "_" then some (.normal st)
    else match st.locals.lookup x with
      | some (.value old) => some (.normal { st with locals := st.locals.set x (m.assigned op old v) })
      | some (.cell c) =>
        some (.normal { st with store := m.put c (m.assigned op (m.load c st.store) v) st.store })
      | none => assignElsewhere [.ident x] op [v] st
  | targets, values => assignElsewhere targets op values st

def execAssign (targets : List Expr) (op : Option BinaryOp) (values : List Expr) (st : State m) : Run m :=
  .ofEval (m.evalAll values st.locals st.store) fun vs store => assignTo targets op vs { st with store }

/-- Rounds of a loop, `bound` at most. -/
def rounds (cond : Option Expr) (body : State m → Run m) : (bound : Nat) → State m → Run m
  | 0, _ => none
  | bound + 1, st =>
    let again (st : State m) : Run m := ((body st).leave st.locals.length).andThen (rounds cond body bound)
    match cond with
    | none => again st
    | some c =>
      .ofEval (m.eval c st.locals st.store) fun v store =>
        if m.truth v then again { st with store } else some (.normal { st with store })

mutual

def exec (bound : Nat) : Stmt → State m → Run m
  | .define names values, st => execDefine names values st
  | .var name ty value, st => execVar name ty value st
  | .assign targets op values, st => execAssign targets op values st
  | .expr e, st => .ofEval (m.eval e st.locals st.store) fun _ store => some (.normal { st with store })
  | .ret values, st =>
    .ofEval (m.evalAll values st.locals st.store) fun vs store => some (.returned vs store)
  | .ifElse cond thenBody els, st =>
    .ofEval (m.eval cond st.locals st.store) fun v store =>
      (if m.truth v then execAll bound thenBody { st with store }
        else execAll bound els { st with store }).leave st.locals.length
  | .loop cond body, st => rounds cond (fun st => execAll bound body st) bound st
  | .block body, st => (execAll bound body st).leave st.locals.length

def execAll (bound : Nat) : List Stmt → State m → Run m
  | [], st => some (.normal st)
  | s :: rest, st => (exec bound s st).andThen fun st => execAll bound rest st

end

/-! ## One after the other -/

@[simp] theorem execAll_nil : execAll bound [] st = some (.normal st) := by
  simp only [execAll]

theorem execAll_cons (bound : Nat) (s : Stmt) (rest : List Stmt) (st : State m) :
    execAll bound (s :: rest) st = (exec bound s st).andThen (execAll bound rest) := by
  simp only [execAll]

@[simp] theorem andThen_normal (next : State m → Run m) : Run.andThen (some (.normal st)) next = next st := rfl

theorem andThen_assoc (f : State m → Run m) : (r.andThen f).andThen g = r.andThen fun st => (f st).andThen g := by
  rcases r with _ | ⟨st | ⟨vs, store⟩ | store⟩ <;> rfl

theorem andThen_some_normal (r : Run m) : r.andThen (fun st => some (.normal st)) = r := by
  rcases r with _ | ⟨st | ⟨vs, store⟩ | store⟩ <;> rfl

theorem execAll_single (s : Stmt) : execAll bound [s] st = exec bound s st := by
  exact andThen_some_normal _

theorem execAll_append (bound : Nat) (a b : List Stmt) (st : State m) :
    execAll bound (a ++ b) st = (execAll bound a st).andThen (execAll bound b) := by
  induction a generalizing st with
  | nil => rfl
  | cons s a ih =>
    rw [List.cons_append, execAll_cons, execAll_cons, andThen_assoc]
    congr 1
    funext st
    exact ih st

theorem ofEval_andThen : (Run.ofEval e f).andThen g = Run.ofEval e fun v store => (f v store).andThen g := by
  cases e <;> rfl

theorem ofEval_leave : (Run.ofEval e f).leave n = Run.ofEval e fun v store => (f v store).leave n := by
  cases e <;> rfl

/-! ## Leaving blocks -/

namespace Locals

variable {Value Cell : Type}

theorem leave_append {new : Locals Value Cell} (old : Locals Value Cell) :
    Locals.leave (new ++ old) old.length = old := by
  simp [leave]

theorem leave_leave {l : Locals Value Cell} (h : n ≤ k) : (l.leave k).leave n = l.leave n := by
  simp only [leave, List.drop_drop, List.length_drop]
  congr 1
  omega

end Locals

@[simp] theorem leave_normal : Run.leave (some (.normal st)) n = some (.normal (st.leave n)) := rfl

@[simp] theorem State.leave_length (st : State m) : st.leave st.locals.length = st := by
  simp [State.leave, Locals.leave]

theorem leave_leave (r : Run m) (h : n ≤ k) : (r.leave k).leave n = r.leave n := by
  rcases r with _ | ⟨st | ⟨vs, store⟩ | store⟩
  · rfl
  · simp [State.leave, Locals.leave_leave h]
  · rfl
  · rfl

/-! ## Names that are not written -/

def Expr.isIdent (x : String) : Expr → Bool
  | .ident y => y == x
  | _ => false

mutual

/-- Some statement inside defines the name or assigns to it. Function literals do not count. -/
def Stmt.writes (x : String) : Stmt → Bool
  | .define names _ => names.contains x
  | .var name _ _ => name == x
  | .assign targets _ _ => targets.any (Expr.isIdent x)
  | .ifElse _ thenBody els => Stmt.anyWrites x thenBody || Stmt.anyWrites x els
  | .loop _ body => Stmt.anyWrites x body
  | .block body => Stmt.anyWrites x body
  | _ => false

def Stmt.anyWrites (x : String) : List Stmt → Bool
  | [] => false
  | s :: rest => s.writes x || Stmt.anyWrites x rest

end

theorem Stmt.anyWrites_append {x : String} (a b : List Stmt) :
    Stmt.anyWrites x (a ++ b) = (Stmt.anyWrites x a || Stmt.anyWrites x b) := by
  induction a with
  | nil => simp [Stmt.anyWrites]
  | cons s a ih => simp [Stmt.anyWrites, ih, Bool.or_assoc]

/-- A local and what became of it: the same name, and the same slot if the name is `x`. -/
def SameAt {Value Cell : Type} (x : String) (a b : String × Slot Value Cell) : Prop :=
  a.1 = b.1 ∧ (a.1 = x → a.2 = b.2)

/-- The locals `old` are still there under newer ones of other names, those of the name `x` with
    their slots. -/
def Kept {Value Cell : Type} (x : String) (old new : Locals Value Cell) : Prop :=
  ∃ newer rest, new = newer ++ rest ∧ newer.lookup x = none ∧ List.Forall₂ (SameAt x) old rest

section

variable {Value Cell : Type} {x : String} {a b c : Locals Value Cell}

theorem forall₂_sameAt_refl (x : String) (a : Locals Value Cell) : List.Forall₂ (SameAt x) a a :=
  List.forall₂_same.mpr fun _ _ => ⟨rfl, fun _ => rfl⟩

theorem forall₂_sameAt_trans (hab : List.Forall₂ (SameAt x) a b) (hbc : List.Forall₂ (SameAt x) b c) :
    List.Forall₂ (SameAt x) a c := by
  induction hab generalizing c with
  | nil => exact hbc
  | cons hd _ ih =>
    cases hbc with
    | cons hd' tl' => exact .cons ⟨hd.1.trans hd'.1, fun h => (hd.2 h).trans (hd'.2 (hd.1 ▸ h))⟩ (ih tl')

theorem forall₂_sameAt_lookup (h : List.Forall₂ (SameAt x) a b) : b.lookup x = a.lookup x := by
  induction h with
  | nil => rfl
  | @cons e e' _ _ hd _ ih =>
    obtain ⟨y, slot⟩ := e
    obtain ⟨z, slot'⟩ := e'
    obtain ⟨rfl, hs⟩ := hd
    by_cases hx : x = y
    · have hslot : slot' = slot := (hs hx.symm).symm
      simp [hx, hslot]
    · simp [List.lookup_cons, beq_false_of_ne hx, ih]

end

namespace Kept

variable {Value Cell : Type} {x : String} {a b c : Locals Value Cell}

theorem refl (x : String) (a : Locals Value Cell) : Kept x a a := ⟨[], a, rfl, rfl, forall₂_sameAt_refl x a⟩

theorem lookup (h : Kept x a b) : b.lookup x = a.lookup x := by
  obtain ⟨newer, rest, rfl, hnew, hrest⟩ := h
  rw [List.lookup_append, hnew, Option.none_or, forall₂_sameAt_lookup hrest]

theorem trans (hab : Kept x a b) (hbc : Kept x b c) : Kept x a c := by
  obtain ⟨newer, rest, rfl, hnew, hrest⟩ := hab
  obtain ⟨newer', rest', rfl, hnew', hrest'⟩ := hbc
  have htake := List.forall₂_take newer.length hrest'
  have hdrop := List.forall₂_drop newer.length hrest'
  rw [List.take_left] at htake
  rw [List.drop_left] at hdrop
  refine ⟨newer' ++ rest'.take newer.length, rest'.drop newer.length, ?_, ?_, forall₂_sameAt_trans hrest hdrop⟩
  · rw [List.append_assoc, List.take_append_drop]
  · rw [List.lookup_append, hnew', Option.none_or, forall₂_sameAt_lookup htake, hnew]

theorem define (h : Kept x a b) (hne : name ≠ x) (slot : Slot Value Cell) :
    Kept x a (b.define name slot) := by
  unfold Locals.define
  split
  · exact h
  · obtain ⟨newer, rest, rfl, hnew, hrest⟩ := h
    refine ⟨(name, slot) :: newer, rest, rfl, ?_, hrest⟩
    rw [List.lookup_cons, beq_false_of_ne hne.symm]
    exact hnew

theorem set (hne : y ≠ x) (v : Value) : Kept x a (a.set y v) := by
  refine ⟨[], a.set y v, rfl, rfl, ?_⟩
  induction a with
  | nil => exact .nil
  | cons e rest ih =>
    simp only [Locals.set]
    split
    · rename_i hz
      exact .cons ⟨rfl, fun h => absurd (hz.symm.trans h) hne⟩ (forall₂_sameAt_refl x rest)
    · exact .cons ⟨rfl, fun _ => rfl⟩ ih

theorem forall₂_leave (h : Kept x a b) : List.Forall₂ (SameAt x) a (b.leave a.length) := by
  obtain ⟨newer, rest, rfl, -, hrest⟩ := h
  rw [hrest.length_eq, Locals.leave_append]
  exact hrest

theorem leave (h : Kept x a b) : Kept x a (b.leave a.length) := ⟨[], _, rfl, rfl, h.forall₂_leave⟩

theorem lookup_leave (h : Kept x a b) (hn : n ≤ a.length) : (b.leave n).lookup x = (a.leave n).lookup x := by
  have hlen := h.forall₂_leave.length_eq
  have hdrop := List.forall₂_drop (a.length - n) h.forall₂_leave
  rw [← Locals.leave_leave hn]
  rw [Locals.leave, ← hlen]
  exact forall₂_sameAt_lookup hdrop

end Kept

variable {names : List String} {x : String} {st st' : State m}

theorem kept_defineAll (hx : x ∉ names) (values : List m.Value) (a : Locals m.Value m.Cell) :
    Kept x a (defineAll a names values) := by
  induction names generalizing a values with
  | nil => exact Kept.refl x a
  | cons name names ih =>
    cases values with
    | nil => exact Kept.refl x a
    | cons v values =>
      simp only [List.mem_cons, not_or] at hx
      exact ((Kept.refl x a).define (Ne.symm hx.1) (.value v)).trans (ih hx.2 values _)

theorem evalDefine_eq
    (h : evalDefine names values st = .value locals store) : ∃ vs, locals = defineAll st.locals names vs := by
  unfold evalDefine at h
  split at h
  all_goals
    split at h
    · cases h
      exact ⟨_, rfl⟩
    · cases h

theorem ofEval_normal
    (h : Run.ofEval e f = some (.normal st)) : ∃ v store, e = .value v store ∧ f v store = some (.normal st) := by
  cases e with
  | value v store => exact ⟨v, store, rfl, h⟩
  | panic store => cases h

theorem andThen_eq_normal (h : r.andThen next = some (.normal st')) :
    ∃ st, r = some (.normal st) ∧ next st = some (.normal st') := by
  rcases r with _ | ⟨st | ⟨vs, store⟩ | store⟩
  · cases h
  · exact ⟨st, rfl, h⟩
  · cases h
  · cases h

theorem assignTo_kept {targets : List Expr} (op : Option BinaryOp) {values : List m.Value}
    (hx : targets.any (Expr.isIdent x) = false) (h : assignTo targets op values st = some (.normal st')) :
    Kept x st.locals st'.locals := by
  have elsewhere : ∀ targets values, assignElsewhere targets op values st = some (.normal st') →
      Kept x st.locals st'.locals := by
    intro targets values h
    obtain ⟨_, store, -, h⟩ := ofEval_normal h
    cases h
    exact Kept.refl x _
  unfold assignTo at h
  split at h
  · rename_i y v
    have hne : y ≠ x := by simpa [Expr.isIdent] using hx
    split at h
    · cases h
      exact Kept.refl x _
    · split at h
      · cases h
        exact Kept.set hne _
      · cases h
        exact Kept.refl x _
      · exact elsewhere _ _ h
  · exact elsewhere _ _ h

theorem leave_kept (hr : ∀ st1, r = some (.normal st1) → Kept x a st1.locals)
    (h : r.leave a.length = some (.normal st')) : Kept x a st'.locals := by
  rcases r with _ | ⟨st1 | ⟨vs, store⟩ | store⟩
  · cases h
  · cases h
    exact (hr st1 rfl).leave
  · cases h
  · cases h

theorem rounds_kept (cond : Option Expr) (hbody : ∀ st st', body st = some (.normal st') → Kept x st.locals st'.locals)
    (h : rounds cond body bound st = some (.normal st')) : Kept x st.locals st'.locals := by
  induction bound generalizing st with
  | zero => cases h
  | succ bound ih =>
    have again : ∀ st, ((body st).leave st.locals.length).andThen (rounds cond body bound) =
        some (.normal st') → Kept x st.locals st'.locals := by
      intro st h
      obtain ⟨st1, hst1, h⟩ := andThen_eq_normal h
      exact (leave_kept (hbody st) hst1).trans (ih h)
    simp only [rounds] at h
    split at h
    · exact again _ h
    · obtain ⟨v, store, -, h⟩ := ofEval_normal h
      split at h
      · exact again ⟨st.locals, store⟩ h
      · cases h
        exact Kept.refl x _

variable {bound : Nat}

mutual

theorem exec_kept : ∀ (s : Stmt) (st st' : State m), s.writes x = false →
    exec bound s st = some (.normal st') → Kept x st.locals st'.locals
  | .define names values, st, st', hx, h => by
    simp only [exec] at h
    obtain ⟨locals, store, heval, h⟩ := ofEval_normal h
    obtain ⟨vs, rfl⟩ := evalDefine_eq heval
    cases h
    exact kept_defineAll (by simpa [Stmt.writes] using hx) vs _
  | .var name ty value, st, st', hx, h => by
    simp only [exec] at h
    obtain ⟨v, store, -, h⟩ := ofEval_normal h
    cases h
    exact (Kept.refl x _).define (by simpa [Stmt.writes] using hx) _
  | .assign targets op values, st, st', hx, h => by
    simp only [exec] at h
    obtain ⟨vs, store, -, h⟩ := ofEval_normal h
    have hx : targets.any (Expr.isIdent x) = false := by simpa only [Stmt.writes] using hx
    exact (assignTo_kept op hx h : Kept x (State.mk st.locals store).locals st'.locals)
  | .expr e, st, st', _, h => by
    simp only [exec] at h
    obtain ⟨v, store, -, h⟩ := ofEval_normal h
    cases h
    exact Kept.refl x _
  | .ret values, st, st', _, h => by
    simp only [exec] at h
    obtain ⟨vs, store, -, h⟩ := ofEval_normal h
    cases h
  | .ifElse cond thenBody els, st, st', hx, h => by
    simp only [Stmt.writes, Bool.or_eq_false_iff] at hx
    simp only [exec] at h
    obtain ⟨v, store, -, h⟩ := ofEval_normal h
    split at h
    · exact leave_kept (fun st1 => execAll_kept thenBody ⟨st.locals, store⟩ st1 hx.1) h
    · exact leave_kept (fun st1 => execAll_kept els ⟨st.locals, store⟩ st1 hx.2) h
  | .loop cond body, st, st', hx, h => by
    simp only [Stmt.writes] at hx
    simp only [exec] at h
    exact rounds_kept cond (fun st st1 h1 => execAll_kept body st st1 hx h1) h
  | .block body, st, st', hx, h => by
    simp only [Stmt.writes] at hx
    simp only [exec] at h
    exact leave_kept (fun st1 h1 => execAll_kept body st st1 hx h1) h

theorem execAll_kept : ∀ (l : List Stmt) (st st' : State m),
    Stmt.anyWrites x l = false → execAll bound l st = some (.normal st') → Kept x st.locals st'.locals
  | [], st, st', _, h => by
    simp only [execAll] at h
    cases h
    exact Kept.refl x _
  | s :: rest, st, st', hx, h => by
    simp only [Stmt.anyWrites, Bool.or_eq_false_iff] at hx
    simp only [execAll] at h
    obtain ⟨st1, hs, h⟩ := andThen_eq_normal h
    exact (exec_kept s st st1 hx.1 hs).trans (execAll_kept rest st1 st' hx.2 h)

end

end Lowering.Target
