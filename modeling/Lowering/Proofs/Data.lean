/-
  Data — a machine of plain data.

  Values are literals, tuples, options, wrapped values and values built by a variant of a sealed type; expressions
  have no effect.
-/

import Lowering.Proofs.Expansion
import Lowering.Proofs.Frame
import Lowering.Proofs.Reference

namespace Lowering.Match

open Target

inductive Datum where
  | lit (value : Literal)
  | nil
  | tuple (elems : List Datum)
  | option (content : Option Datum)
  | wrapped (content : Datum)
  | built (variant : String) (fields : List Datum)

namespace Datum

def bool (b : Bool) : Datum := .lit (.bool b)

def truth : Datum → Bool
  | .lit (.bool b) => b
  | _ => false

def equal : Datum → Datum → Bool
  | .lit (.int a), .lit (.int b) => a == b
  | .lit (.bool a), .lit (.bool b) => a == b
  | .lit (.string a), .lit (.string b) => a == b
  | _, _ => false

def tuple? : Datum → Option (List Datum)
  | .tuple elems => some elems
  | _ => none

def option? : Datum → Option (Option Datum)
  | .option content => some content
  | _ => none

def wrapped? : Datum → Option Datum
  | .wrapped content => some content
  | _ => none

/-- The only slice there is: `nil`. -/
def slice? : Datum → Option (Option (List Datum))
  | .nil => some none
  | _ => none

def select (sel : String) (d : Datum) : Option Datum := do
  let elems ← d.tuple?
  (elems.zipIdx.find? fun (_, i) => Ty.tupleField i == sel).map (·.1)

def unapply (companion : Ty) (d : Datum) : Datum :=
  match companion.baseName, d with
  | "Wrap", .built "Wrap" [content] => .option (some content)
  | "Wrap", _ => .option none
  | name, .built variant _ => .bool (variant == name)
  | _, _ => .bool false

def call (name : String) (d : Datum) : Option Datum :=
  match name, d with
  | "Get", .option content => content
  | "Get", .wrapped content => some content
  | "IsDefined", .option content => some (.bool content.isSome)
  | _, _ => none

def ty : Datum → Ty
  | .lit (.int _) => .int
  | .lit (.bool _) => .bool
  | .lit (.string _) => .string
  | .tuple [a, b] => .tuple "std" [a.ty, b.ty]
  | .wrapped content => .generic (.named "std" Ty.wrapperName) [content.ty]
  | .built variant _ => .own (if variant == "On" || variant == "Off" then "Flag" else "Boxed")
  | _ => .nil

end Datum

def binaryDatum : BinaryOp → Datum → Datum → Option Datum
  | .eq, a, b => some (.bool (a.equal b))
  | .ne, .nil, .nil => some (.bool false)
  | .ge, .lit (.int a), .lit (.int b) => some (.bool (decide (b ≤ a)))
  | _, _, _ => none

def callFunction (name : String) (args : List (Option Datum)) : Option Datum :=
  match name, args with
  | "panic", _ => none
  | "any", [d] => d
  | _, _ => some .nil

def callMethod (receiver : Expr) (name : String) (value : Option Datum) (args : List (Option Datum)) :
    Option Datum :=
  match receiver, name, args with
  | .composite ty [], "Unapply", [d] => d.map (Datum.unapply ty)
  | _, "UnapplyCheck", _ => some (.bool false)
  | _, "UnapplyFull", _ => some .nil
  | _, name, [] => value.bind (Datum.call name)
  | _, _, _ => none

mutual

/-- The value of an expression, `none` for a panic. -/
def evalDatum (locals : Locals Datum Unit) : Expr → Option Datum
  | .ident x => (locals.lookup x).map (Slot.read (fun _ _ => Datum.nil) ())
  | .lit value => some (.lit value)
  | .nil => some .nil
  | .selector e sel => (evalDatum locals e).bind (Datum.select sel)
  | .unary op e => (evalDatum locals e).bind fun d => if op = .not then some (.bool !d.truth) else none
  | .binary op a b =>
    (evalDatum locals a).bind fun d =>
      if op = .and then if d.truth then evalDatum locals b else some d
      else (evalDatum locals b).bind (binaryDatum op d)
  | .call callee _ args =>
    match callee with
    | .ident name => callFunction name (evalData locals args)
    | .selector e name => callMethod e name (evalDatum locals e) (evalData locals args)
    | _ => none
  | _ => none

def evalData (locals : Locals Datum Unit) : List Expr → List (Option Datum)
  | [] => []
  | e :: es => evalDatum locals e :: evalData locals es

end

def data : Machine where
  Value := Datum
  Cell := Unit
  Store := Unit
  bool := Datum.bool
  truth := Datum.truth
  zero _ := .nil
  load _ _ := .nil
  put _ _ store := store
  allocate _ store := ((), store)
  cast d ty := if ty == d.ty then (d, true) else (.nil, false)
  combine _ _ d := d
  eval e locals store := match evalDatum locals e with
    | some d => .value d store
    | none => .panic store
  write _ _ _ _ store := .value () store
  truth_bool _ := rfl
  eval_local x slot locals store h := by
    simp only [evalDatum, h]
    cases slot <;> rfl
  eval_bool _ _ _ := by simp only [Expr.bool, evalDatum]; rfl
  eval_not e locals store := by
    simp only [Expr.not, evalDatum]
    cases evalDatum locals e <;> simp
  eval_and a b locals store := by
    simp only [evalDatum]
    cases evalDatum locals a with
    | none => rfl
    | some d => cases hd : d.truth <;> simp [hd]

/-! ## Evaluation -/

mutual

theorem evalDatum_local {l l' : Locals Datum Unit} : ∀ (e : Expr),
    (∀ x, e.mentions x = true → l.lookup x = l'.lookup x) → evalDatum l e = evalDatum l' e
  | .ident x, h => by simp only [evalDatum, h x (by simp [Expr.mentions])]
  | .selector e _, h | .unary _ e, h => by
    simp only [evalDatum, evalDatum_local e fun x hx => h x (by simpa only [Expr.mentions] using hx)]
  | .binary op a b, h => by
    simp only [evalDatum, evalDatum_local a fun x hx => h x (by simp [Expr.mentions, hx]),
      evalDatum_local b fun x hx => h x (by simp [Expr.mentions, hx])]
  | .call callee typeArgs args, h => by
    have hargs := evalData_local args fun x hx => h x (by simp [Expr.mentions, hx])
    have hcallee : ∀ x, callee.mentions x = true → l.lookup x = l'.lookup x := fun x hx =>
      h x (by simp [Expr.mentions, hx])
    cases callee with
    | selector e name =>
      simp only [evalDatum, hargs, evalDatum_local e fun x hx =>
        hcallee x (by simpa only [Expr.mentions] using hx)]
    | _ => simp only [evalDatum, hargs]
  | .lit _, _ | .nil, _ | .type _, _ | .index _ _, _ | .funcLit _ _ _, _ | .composite _ _, _ | .typeAssert _ _, _
  | .paren _, _ => by simp only [evalDatum]

theorem evalData_local {l l' : Locals Datum Unit} : ∀ (es : List Expr),
    (∀ x, Expr.anyMentions x es = true → l.lookup x = l'.lookup x) → evalData l es = evalData l' es
  | [], _ => by simp only [evalData]
  | e :: es, h => by
    simp only [evalData, evalDatum_local e fun x hx => h x (by simp [Expr.anyMentions, hx]),
      evalData_local es fun x hx => h x (by simp [Expr.anyMentions, hx])]

end

theorem data_local : data.Local := by
  intro e l l' store h
  simp only [data, evalDatum_local e h]

theorem reads_data {l : Locals data.Value data.Cell} {store : data.Store} {e : Expr} {d : data.Value} :
    Reads l store e d ↔ evalDatum l e = some d := by
  have heval : data.eval e l store = match evalDatum l e with
    | some d => .value d store
    | none => .panic store := rfl
  rw [Reads, heval]
  cases evalDatum l e with
  | none => exact ⟨nofun, nofun⟩
  | some d' => exact ⟨fun h => by injection h with h; exact congrArg some h, fun h => by cases h; rfl⟩

variable {name : String} {e : Extraction} {site : Site} {shape : UnapplyShape}

theorem evalDatum_method {l : Locals Datum Unit} {e : Expr} {d : Datum} (h : evalDatum l e = some d)
    (hname : name ≠ "UnapplyCheck" ∧ name ≠ "UnapplyFull") : evalDatum l (.method e name []) = d.call name := by
  simp only [Expr.method, Expr.apply, evalDatum, evalData, h]
  unfold callMethod
  split <;> simp_all

theorem select_tuple (elems : List Datum) (i : Nat) : Datum.select (Ty.tupleField i) (.tuple elems) = elems[i]? := by
  have hfrom : ∀ (k : Nat), ((elems.zipIdx k).find? fun (_, j) =>
    Ty.tupleField j == Ty.tupleField (k + i)).map (·.1) = elems[i]? := by
    intro k
    induction elems generalizing k i with
    | nil => rfl
    | cons d elems ih =>
      rw [List.zipIdx_cons, List.find?_cons]
      cases i with
      | zero => simp
      | succ i =>
        have hne : (Ty.tupleField k == Ty.tupleField (k + (i + 1))) = false := by
          rw [beq_eq_false_iff_ne]
          intro heq
          have := NameSupply.numbered_inj heq
          omega
        have hnext := ih i (k + 1)
        rw [Nat.add_right_comm, Nat.add_assoc] at hnext
        simp only [hne, List.getElem?_cons_succ]
        exact hnext
  have hzero := hfrom 0
  rw [Nat.zero_add] at hzero
  exact hzero

/-! ## Two sealed types -/

def companionEntry (name subject : String) (result : Ty) : String × TypeEntry :=
  (name, { TypeEntry.new "" name .companion with
    methods := .ofList [("Unapply", .plain [.own subject] result)] })

/-- `sealed Flag { On; Off }` and `sealed Boxed { Wrap(flag: Flag); Empty }` -/
def boxTypes : List (String × TypeEntry) :=
  [("Flag", { TypeEntry.new "" "Flag" .sealedType with variants := ["On", "Off"] }),
    ("Boxed", { TypeEntry.new "" "Boxed" .sealedType with variants := ["Wrap", "Empty"] }),
    companionEntry "On" "Flag" .bool, companionEntry "Off" "Flag" .bool, companionEntry "Empty" "Boxed" .bool,
    companionEntry "Wrap" "Boxed" (unapplyResult "std" [.own "Flag"])]

def boxEnv : Env := ⟨{ Index.empty with types := .ofList boxTypes }, .empty, .standard⟩

namespace Datum

/-- The values of the types of the program. -/
inductive Has : Datum → Ty → Prop
  | int (n : Int) : Has (.lit (.int n)) .int
  | bool (b : Bool) : Has (.lit (.bool b)) .bool
  | pair {a b : Datum} {s t : Ty} : Has a s → Has b t → Has (.tuple [a, b]) (.tuple "std" [s, t])
  | wrapped {a : Datum} {t : Ty} : Has a t → Has (.wrapped a) (.generic (.named "std" Ty.wrapperName) [t])
  | on : Has (.built "On" []) (.own "Flag")
  | off : Has (.built "Off" []) (.own "Flag")
  | wrap {a : Datum} : Has a (.own "Flag") → Has (.built "Wrap" [a]) (.own "Boxed")
  | empty : Has (.built "Empty" []) (.own "Boxed")

theorem Has.ty_eq {d : Datum} {t : Ty} (h : Has d t) : d.ty = t := by
  induction h with
  | int n | bool b => rfl
  | pair _ _ iha ihb => simp only [Datum.ty, iha, ihb]
  | wrapped _ ih => simp only [Datum.ty, ih]
  | on | off | wrap _ _ | empty => rfl

end Datum

/-- Data as patterns see it. Structs, sequences and slices of values do not occur. -/
def boxes : Runtime data where
  Has := Datum.Has
  literal := .lit
  equal := Datum.equal
  isA d ty := ty == d.ty
  tuple? := Datum.tuple?
  field? _ _ := none
  wrapped? := Datum.wrapped?
  option? := Datum.option?
  elements? _ := none
  slice? := Datum.slice?
  unapply := Datum.unapply
  accepts _ _ := false
  extract _ _ := none
  outside _ := false

theorem boxes_evaluates : boxes.Evaluates boxEnv where
  isLocal := data_local
  literal _ _ _ := reads_data.mpr (by simp only [evalDatum]; rfl)
  equal ha hb := reads_data.mpr (by
    simp only [evalDatum, reads_data.mp ha, reads_data.mp hb]
    rfl)
  equal_bool _ _ := rfl
  equal_int _ _ := rfl
  atLeast ha hb := reads_data.mpr (by
    simp only [evalDatum, reads_data.mp ha, reads_data.mp hb]
    rfl)
  component {l store e v vs i w} h ht hi := reads_data.mpr (by
    cases v <;> cases ht
    simp only [evalDatum, reads_data.mp h]
    exact (select_tuple vs i).trans hi)
  field _ h := by cases h
  getWrapped {l store e v w} h hw := reads_data.mpr (by
    cases v <;> cases hw
    exact evalDatum_method (reads_data.mp h) (by decide))
  getOption {l store e v w} h ho := reads_data.mpr (by
    cases v <;> cases ho
    exact evalDatum_method (reads_data.mp h) (by decide))
  isDefined {l store e v o} h ho := reads_data.mpr (by
    cases v <;> cases ho
    exact evalDatum_method (reads_data.mp h) (by decide))
  size _ h := by cases h
  getAt _ h := by cases h
  drop _ h := by cases h
  asAny _ h := reads_data.mpr (by
    simp only [Expr.apply, evalDatum, evalData, reads_data.mp h]
    rfl)
  cast d ty := by
    have hcast : data.cast d ty = if ty == d.ty then (d, true) else (.nil, false) := rfl
    have hisA : boxes.isA d ty = (ty == d.ty) := rfl
    rw [hcast, hisA]
    cases ty == d.ty with
    | true => exact ⟨rfl, fun _ => rfl⟩
    | false => exact ⟨rfl, nofun⟩
  unapply _ h companion := reads_data.mpr (by
    simp only [Expr.method, Expr.apply, Expr.zero, evalDatum, evalData, reads_data.mp h]
    rfl)
  accepts _ _ _ := reads_data.mpr rfl
  extract _ _ _ := ⟨.nil, reads_data.mpr rfl, rfl⟩
  notNil {l store e u o} h hs := reads_data.mpr (by
    cases u <;> cases hs
    simp only [evalDatum, reads_data.mp h]
    rfl)
  length {l store e u vs} _ _ hs := by cases u <;> cases hs
  index {l store e u vs i w} _ hs _ := by cases u <;> cases hs

/-! ## Types and extractors of the program -/

theorem boxEnv_expand (ty : Ty) : boxEnv.expand ty = ty := by
  refine Env.expand_eq ?_
  unfold Env.expandOnce
  cases ty.base.leafName? <;> rfl

theorem boxEnv_type? {e : TypeEntry} (h : boxEnv.type? name = some e) : (name, e) ∈ boxTypes := by
  unfold Env.type? at h
  split at h
  · cases h
  · have hnone : (boxEnv.runtime :: boxEnv.dotPackages).findSome? (boxEnv.catalog.type? · name) = none := rfl
    have h : boxEnv.index.types.find? name = some e := by
      rw [hnone] at h
      simpa using h
    exact Table.mem_of_find?_ofList h

theorem companionEntry_unapply {subject : String} {result : Ty}
    (h : directUnapply boxEnv (companionEntry name subject result).2 (.plain [.own subject] result) site = .ok e) :
    ∃ param shape, unapplyShape site (result.subst (.ofParams [] [])) = .ok shape ∧
      e = .unapply (.own name) param shape := by
  obtain ⟨args, hargs, h1⟩ := checked_bind_ok h
  cases hargs
  split at h1
  · cases h1
  · obtain ⟨shape, hshape, rfl⟩ := checked_map_ok h1
    exact ⟨_, shape, hshape, rfl⟩

theorem unapplyShape_bool (h : unapplyShape site .bool = .ok shape) : shape = .bool := by
  unfold unapplyShape at h
  rw [if_pos (by decide)] at h
  split at h <;> cases h
  rfl

theorem unapplyShape_flag (h : unapplyShape site (unapplyResult "std" [.own "Flag"]) = .ok shape) :
    shape = .option (.own "Flag") none := by
  unfold unapplyShape at h
  rw [if_neg (by decide)] at h
  split at h
  · cases h
    rfl
  · cases h

theorem boxEnv_resolve (h : resolve boxEnv site = .ok e) :
    (site.head ≠ "Wrap" ∧ ∃ param, e = .unapply (.own site.head) param .bool) ∨
      (site.head = "Wrap" ∧ ∃ param, e = .unapply (.own "Wrap") param (.option (.own "Flag") none)) := by
  have refused : (if site.hasRest then (Fault.restWithoutSequence site.head).raise site.span
      else (Fault.notExtractor site.head).raise site.span : Checked Extraction) ≠ .ok e := by
    split <;> exact nofun
  have truth : ∀ subject, directUnapply boxEnv (companionEntry site.head subject .bool).2 (.plain [.own subject] .bool)
      site = .ok e → ∃ param, e = .unapply (.own site.head) param .bool := by
    intro subject h
    obtain ⟨param, shape, hshape, rfl⟩ := companionEntry_unapply h
    exact ⟨param, by rw [unapplyShape_bool hshape]⟩
  unfold resolve at h
  split at h
  · cases h
  · rename_i entry hentry
    have hmem := boxEnv_type? hentry
    simp only [boxTypes, List.mem_cons, List.not_mem_nil, or_false] at hmem
    rcases hmem with hmem | hmem | hmem | hmem | hmem | hmem <;>
      injection hmem with hhead hentry <;> subst hentry
    · exact absurd h refused
    · exact absurd h refused
    · exact .inl ⟨by rw [hhead]; decide, truth "Flag" (hhead ▸ h)⟩
    · exact .inl ⟨by rw [hhead]; decide, truth "Flag" (hhead ▸ h)⟩
    · exact .inl ⟨by rw [hhead]; decide, truth "Boxed" (hhead ▸ h)⟩
    · obtain ⟨param, shape, hshape, rfl⟩ := companionEntry_unapply h
      exact .inr ⟨hhead, param, by rw [unapplyShape_flag hshape]⟩

theorem unapply_bool (companion : Ty) (h : companion.baseName ≠ "Wrap") (d : Datum) :
    ∃ b, Datum.unapply companion d = .bool b := by
  unfold Datum.unapply
  split
  · contradiction
  · contradiction
  · exact ⟨_, rfl⟩
  · exact ⟨_, rfl⟩

theorem boxes_typed : boxes.Typed boxEnv where
  bool {v ty} h hbool := by
    cases h with
    | bool b => exact ⟨b, rfl⟩
    | _ => cases hbool
  isA {v ty wanted} h hsame := by
    have hty : Datum.ty v = ty := Datum.Has.ty_eq h
    show (wanted == Datum.ty v) = true
    rw [hty]
    exact hsame
  tuple {v ty n} h hn := by
    cases h with
    | pair ha hb => exact ⟨_, rfl, .cons ha (.cons hb .nil)⟩
    | wrapped ha =>
      cases hn
    | _ => cases hn
  extraction {v site e} h he := by
    rcases boxEnv_resolve he with ⟨hname, param, rfl⟩ | ⟨-, param, rfl⟩
    · exact fun _ => unapply_bool (.own site.head) hname v
    · intro _
      generalize site.subject = ty at h
      cases h with
      | wrap ha =>
        refine ⟨some _, rfl, fun w hw => ?_⟩
        cases hw
        exact ⟨ha, nofun⟩
      | _ => exact ⟨none, rfl, nofun⟩

theorem boxes_lawful : boxes.Lawful boxEnv := ⟨boxes_evaluates, boxes_typed⟩

end Lowering.Match
