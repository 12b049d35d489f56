/-
  Variants — values of sealed types are built and taken apart.

  The declarations that a sealed type becomes are run on a machine of their own: a tag is a byte, a struct literal
  is the list of its fields, `NewImmutable` wraps a value and `Get` takes it out.
-/

import Lowering.Proofs.FirstMatch
import Lowering.Proofs.Indexed
import Lowering.Proofs.Resolved
import Mathlib.Data.List.Nodup

namespace Lowering.Variants

open Lower
open Source (SealedDecl Variant StructField)
open Target (Expr Stmt Element Decl FuncDecl Locals Slot Machine execAll exec defineAll)

/-! ## Values -/

/-- Values that the declarations of a sealed type handle; those of the program are atoms. -/
inductive Value (α : Type) where
  | atom (a : α)
  | bool (b : Bool)
  | byte (n : UInt8)
  | wrapped (content : Value α)
  | record (fields : List (String × Value α))
  | option (content : Option (Value α))

namespace Value

variable {α : Type}

def truth : Value α → Bool
  | .bool b => b
  | _ => false

def field (name : String) : Value α → Option (Value α)
  | .record fields => fields.lookup name
  | _ => none

/-- `NewImmutable` -/
def wrap : List (Value α) → Option (Value α)
  | [v] => some (.wrapped v)
  | _ => none

/-- What `Get` gives. -/
def content : Value α → Option (Value α)
  | .wrapped content => some content
  | _ => none

/-- `Apply` of the companions of options. -/
def ofOption : (companion : String) → List (Value α) → Option (Value α)
  | "Some", [v] => some (.option (some v))
  | "None", [] => some (.option none)
  | _, _ => none

def binary : BinaryOp → Value α → Value α → Option (Value α)
  | .eq, .byte a, .byte b => some (.bool (a == b))
  | _, _, _ => none

/-- A method of a runtime type. -/
def method (runtime : String) (receiver : Expr) (name : String) (value : Option (Value α)) (args : List (Value α)) :
    Option (Value α) :=
  match receiver, name, args with
  | .composite (.generic (.named package companion) _) [], "Apply", args =>
    if package == runtime then ofOption companion args else none
  | _, "Get", [] => value.bind content
  | _, _, _ => none

end Value

/-! ## Running declarations -/

/-- What the code of a package sees beside its locals: the runtime, and the constants as bytes. -/
structure Globals where
  runtime : String
  tags : List (String × UInt8)

/-- The name in front in `NewImmutable(…)`, which a local may hide. -/
def root (runtime : String) : String := if runtime.isEmpty then "NewImmutable" else runtime

/-- The expression is `NewImmutable` of the runtime. -/
def isWrap (runtime : String) (locals : List String) : Expr → Bool
  | .ident name => runtime.isEmpty && name == "NewImmutable" && !locals.contains name
  | .selector (.ident package) name =>
    !runtime.isEmpty && package == runtime && name == "NewImmutable" && !locals.contains package
  | _ => false

variable {α : Type}

mutual

/-- The value of an expression, `none` for a panic. -/
def eval (g : Globals) (locals : Locals (Value α) Unit) : Expr → Option (Value α)
  | .ident x =>
    match locals.lookup x with
    | some slot => some (slot.read (fun _ _ => .bool false) ())
    | none => (g.tags.lookup x).map .byte
  | .lit (.bool b) => some (.bool b)
  | .selector x name => (eval g locals x).bind (Value.field name)
  | .unary op x => (eval g locals x).bind fun v => if op = .not then some (.bool !v.truth) else none
  | .binary op a b =>
    (eval g locals a).bind fun v =>
      if op = .and then if v.truth then eval g locals b else some v
      else (eval g locals b).bind (Value.binary op v)
  | .composite _ elements => (evalElements g locals elements).map .record
  | .call callee _ args =>
    (evalAll g locals args).bind fun args =>
      if isWrap g.runtime (locals.map (·.1)) callee then Value.wrap args
      else match callee with
        | .selector x name => Value.method g.runtime x name (eval g locals x) args
        | _ => none
  | _ => none

def evalAll (g : Globals) (locals : Locals (Value α) Unit) : List Expr → Option (List (Value α))
  | [] => some []
  | e :: es => (eval g locals e).bind fun v => (evalAll g locals es).map (v :: ·)

def evalElements (g : Globals) (locals : Locals (Value α) Unit) : List Element → Option (List (String × Value α))
  | [] => some []
  | ⟨key, value⟩ :: elements =>
    (eval g locals value).bind fun v => (evalElements g locals elements).map ((key.getD "", v) :: ·)

end

/-- Code without effects: locals are parameters. -/
abbrev machine (α : Type) (g : Globals) : Machine where
  Value := Value α
  Cell := Unit
  Store := Unit
  bool := .bool
  truth := Value.truth
  zero _ := .bool false
  load _ _ := .bool false
  put _ _ store := store
  allocate _ store := ((), store)
  cast v _ := (v, false)
  combine _ _ v := v
  eval e locals store := match eval g locals e with
    | some v => .value v store
    | none => .panic store
  write _ _ _ _ store := .value () store
  truth_bool _ := rfl
  eval_local x slot locals store h := by
    simp only [eval, h]
  eval_bool _ _ _ := by simp only [Expr.bool, eval]
  eval_not e locals store := by
    simp only [Expr.not, eval]
    cases eval g locals e <;> simp
  eval_and a b locals store := by
    simp only [eval]
    cases eval g locals a with
    | none => rfl
    | some v => cases hv : v.truth <;> simp [hv]

def tag? : Decl → Option (String × UInt8)
  | .const name _ (.lit (.int n)) => some (name, UInt8.ofNat n.toNat)
  | _ => none

def method? (type name : String) : Decl → Option FuncDecl
  | .func f => if f.name == name && f.receiver.any (·.ty.baseName == type) then some f else none
  | _ => none

/-- `type{}.name(args)` among declarations. -/
def call (runtime : String) (decls : List Decl) (type name : String) (args : List (Value α)) : Option (Value α) := do
  let f ← decls.findSome? (method? type name)
  let m := machine α ⟨runtime, decls.filterMap tag?⟩
  match execAll 0 f.body (⟨defineAll [] (f.params.map (·.name)) args, ()⟩ : Target.State m) with
  | some (.returned [v] _) => some v
  | _ => none

variable {e : Expr} {g : Globals} {locals : Locals (Value α) Unit} {x runtime name type : String} {m : Machine}
    {names : List String} {ds : List Decl} {v : Variant} {f : StructField} {self : Ty} {span : Span} {tag own : UInt8}
    {args : List (Value α)} {i : Nat}

theorem execAll_ret {v : Value α} (h : eval g locals e = some v) (rest : List Stmt) :
    execAll 0 (.ret1 e :: rest) (⟨locals, ()⟩ : Target.State (machine α g)) = some (.returned [v] ()) := by
  simp only [execAll, exec, Stmt.ret1, Machine.evalAll, h]
  rfl

theorem execAll_guarded {cond e' : Expr} {b : Bool} {v : Value α} (hcond : eval g locals cond = some (.bool b))
    (h : eval g locals (if b then e else e') = some v) :
    execAll 0 [.guarded cond [.ret1 e], .ret1 e'] (⟨locals, ()⟩ : Target.State (machine α g)) =
      some (.returned [v] ()) := by
  have heval : (machine α g).eval cond locals () = .value (.bool b) () := by simp only [machine, hcond]
  rw [Target.execAll_cons, Stmt.guarded, exec, heval]
  cases b with
  | true =>
    rw [if_pos rfl] at h
    show Target.Run.andThen ((execAll 0 [.ret1 e] (⟨locals, ()⟩ : Target.State (machine α g))).leave _) _ = _
    rw [execAll_ret h]
    rfl
  | false =>
    show Target.Run.andThen ((execAll 0 [] (⟨locals, ()⟩ : Target.State (machine α g))).leave _) _ = _
    rw [Target.execAll_nil, Target.leave_normal, Target.andThen_normal, Target.State.leave_length]
    exact execAll_ret h []

/-! ## Names -/

theorem lookup_of_mem {β : Type} {l : List (String × β)} (hl : (l.map (·.1)).Nodup) {b : β} (h : (x, b) ∈ l) :
    l.lookup x = some b := by
  induction l with
  | nil => cases h
  | cons p l ih =>
    obtain ⟨y, c⟩ := p
    rw [List.map_cons, List.nodup_cons] at hl
    rcases List.mem_cons.mp h with heq | hmem
    · cases heq
      simp
    · have hne : x ≠ y := by
        rintro rfl
        exact hl.1 (List.mem_map.mpr ⟨_, hmem, rfl⟩)
      rw [List.lookup_cons, beq_false_of_ne hne]
      exact ih hl.2 hmem

theorem defineAll_eq (hnames : "_" ∉ names) (values : List m.Value) (locals : Locals m.Value m.Cell) :
    defineAll locals names values = ((names.zip values).map fun p => (p.1, Slot.value p.2)).reverse ++ locals := by
  induction names generalizing values locals with
  | nil => rfl
  | cons x names ih =>
    rw [List.mem_cons, not_or] at hnames
    cases values with
    | nil => rfl
    | cons v values =>
      have hdefine : locals.define x (.value v) = (x, .value v) :: locals := if_neg (Ne.symm hnames.1)
      have := ih hnames.2 values ((x, .value v) :: locals)
      simpa [defineAll, hdefine] using this

section

variable {values : List m.Value} (hnames : "_" ∉ names) (hlength : values.length = names.length)
include hnames hlength

theorem map_fst_defineAll : (defineAll [] names values : Locals m.Value m.Cell).map (·.1) = names.reverse := by
  have hfst : (names.zip values).map (·.1) = names := List.map_fst_zip (Nat.le_of_eq hlength.symm)
  rw [defineAll_eq hnames, List.append_nil, List.map_reverse, List.map_map]
  exact congrArg List.reverse hfst

theorem lookup_defineAll (hnodup : names.Nodup) {v : m.Value} (h : (x, v) ∈ names.zip values) :
    (defineAll [] names values : Locals m.Value m.Cell).lookup x = some (.value v) := by
  refine lookup_of_mem ?_ ?_
  · rw [map_fst_defineAll hnames hlength]
    exact List.nodup_reverse.mpr hnodup
  · rw [defineAll_eq hnames, List.append_nil]
    exact List.mem_reverse.mpr (List.mem_map.mpr ⟨_, h, rfl⟩)

theorem not_mem_defineAll (hx : x ∉ names) : x ∉ (defineAll [] names values : Locals m.Value m.Cell).map (·.1) := by
  rw [map_fst_defineAll hnames hlength, List.mem_reverse]
  exact hx

theorem lookup_defineAll_none (hx : x ∉ names) :
    (defineAll [] names values : Locals m.Value m.Cell).lookup x = none := by
  rw [List.lookup_eq_none_iff]
  intro p hp
  refine bne_iff_ne.mpr fun heq => not_mem_defineAll hnames hlength hx ?_
  exact List.mem_map.mpr ⟨p, hp, heq.symm⟩

end

/-! ## What is lowered -/

variable {env : Env} {d : SealedDecl} {e : TypeEntry} {decls : List Decl}

def companion (e : TypeEntry) (v : Variant) : Ty := (Ty.own v.name.val).apply (e.typeParams.map .basic)

theorem baseName_companion : (companion e v).baseName = v.name.val := by
  unfold companion Ty.apply
  split <;> rfl

def tagName (d : SealedDecl) (v : Variant) : String := variantTag d.name.val v.name.val

theorem lowerSealed_ok (h : lowerSealed env d = .ok decls) : ∃ e fields companions,
    env.index.types.find? d.name.val = some e ∧ d.variants.mapM (lowerVariant env d e) = .ok companions ∧
      decls = Decl.struct d.name.val (targetParams d.typeParams) fields ::
        d.variants.mapIdx (fun i v => Decl.const (tagName d v) (some tagType) (.nat i)) ++ companions.flatten := by
  simp only [lowerSealed] at h
  cases he : env.index.types.find? d.name.val with
  | none =>
    rw [he] at h
    cases h
  | some e =>
    rw [he] at h
    obtain ⟨fields, -, h⟩ := checked_bind_ok h
    obtain ⟨companions, hcompanions, rfl⟩ := checked_map_ok h
    exact ⟨e, fields, companions, rfl, hcompanions, rfl⟩

/-- `Apply` of a variant with the elements of its struct literal. -/
def applyDecl (d : SealedDecl) (e : TypeEntry) (v : Variant) (elements : List Element) : FuncDecl :=
  ⟨"Apply", [], some ⟨"", companion e v⟩, v.fields.map fun f => ⟨f.name.val, f.ty⟩, [e.selfType ""],
    [.ret1 (.composite (e.selfType "") (⟨some tagField, .ident (tagName d v)⟩ :: elements))]⟩

def isOwn (d : SealedDecl) (v : Variant) : Expr := .binary .eq (.selector (.ident "s") tagField) (.ident (tagName d v))

/-- The type that `Unapply` of a variant gives an option of. -/
def payloadType (env : Env) (v : Variant) : Ty := (unapplyResult env.runtime (v.fields.map (·.ty))).args.headD .any

/-- `Some[T]{}.Apply(args)`, and the same for `None`. -/
def optionCall (env : Env) (v : Variant) (name : String) (args : List Expr) : Expr :=
  .method (.zero (.generic (.named env.runtime name) [payloadType env v])) "Apply" args

/-- `Unapply` of a variant. -/
def unapplyDecl (env : Env) (d : SealedDecl) (e : TypeEntry) (v : Variant) : FuncDecl :=
  ⟨"Unapply", [], some ⟨"", companion e v⟩, [⟨"s", e.selfType ""⟩], [unapplyResult env.runtime (v.fields.map (·.ty))],
    if v.fields.isEmpty then [.ret1 (isOwn d v)]
    else [.guarded (isOwn d v)
        [.ret1 (optionCall env v "Some" [variantPayload (.ident "s") (payloadType env v) v.fields])],
      .ret1 (optionCall env v "None" [])]⟩

theorem lowerVariant_ok (h : lowerVariant env d e v = .ok ds) : ∃ elements,
    v.fields.mapM (variantElement env e (e.selfType "") d.span) = .ok elements ∧
      ds = [.struct v.name.val (targetParams d.typeParams) [], .func (applyDecl d e v elements),
        .func (unapplyDecl env d e v)] := by
  obtain ⟨apply, happly, rfl⟩ := checked_map_ok h
  obtain ⟨elements, helements, rfl⟩ := checked_map_ok happly
  exact ⟨elements, helements, rfl⟩

theorem variantElement_ok {element : Element} (h : variantElement env e self span f = .ok element) :
    ∃ info, env.field? self f.name.val = some info ∧ element = ⟨some f.name.val, if info.wrapped then
        .call (.qualified env.runtime "NewImmutable") [info.ty] [.ident f.name.val] else .ident f.name.val⟩ := by
  unfold variantElement at h
  split at h
  · rename_i i hi
    have hname : e.fields[i]? = some f.name.val := by
      rw [TypeEntry.fieldIndex?, List.findIdx?_eq_some_iff_getElem] at hi
      obtain ⟨hlt, heq, -⟩ := hi
      rw [List.getElem?_eq_getElem hlt, beq_iff_eq.mp heq]
    simp only [Storage.storeField, hname] at h
    obtain ⟨info, hinfo, h⟩ := checked_bind_ok h
    have hfield : env.field? self f.name.val = some info := by
      unfold Storage.fieldInfo at hinfo
      split at hinfo
      · cases hinfo
        assumption
      · cases hinfo
    refine ⟨info, hfield, ?_⟩
    cases hwrapped : info.wrapped with
    | false =>
      rw [hwrapped] at h
      cases h
      rfl
    | true =>
      rw [hwrapped] at h
      obtain ⟨stored, hstored, h⟩ := checked_bind_ok h
      obtain ⟨_, -, rfl⟩ := checked_map_ok hstored
      cases h
      rfl
  · cases h

theorem lowerVariant_tag (h : lowerVariant env d e v = .ok ds) : ds.filterMap tag? = [] := by
  obtain ⟨elements, -, rfl⟩ := lowerVariant_ok h
  rfl

theorem method?_eq_some {f : FuncDecl} {decl : Decl} : method? type name decl = some f ↔
    decl = .func f ∧ f.name = name ∧ f.receiver.any (·.ty.baseName == type) = true := by
  cases decl with
  | func f' =>
    simp only [method?, Bool.and_eq_true, beq_iff_eq, Option.ite_none_right_eq_some, Option.some.injEq, Decl.func.injEq]
    constructor
    · rintro ⟨h, rfl⟩
      exact ⟨rfl, h⟩
    · rintro ⟨rfl, h⟩
      exact ⟨h, rfl⟩
  | _ => simp [method?]

theorem lowerVariant_func (h : lowerVariant env d e v = .ok ds) {f : FuncDecl} (hf : .func f ∈ ds) :
    (∀ type, f.receiver.any (·.ty.baseName == type) = (v.name.val == type)) ∧
      ∀ f', .func f' ∈ ds → f'.name = f.name → f' = f := by
  obtain ⟨elements, -, rfl⟩ := lowerVariant_ok h
  simp only [List.mem_cons, reduceCtorEq, Decl.func.injEq, List.not_mem_nil, or_false, false_or] at hf ⊢
  rcases hf with rfl | rfl
  all_goals
    refine ⟨fun type => by simp [applyDecl, unapplyDecl, baseName_companion], ?_⟩
    rintro f' (rfl | rfl) <;> simp [applyDecl, unapplyDecl]

theorem findSome?_eq_of_unique {α β : Type} {f : α → Option β} {l : List α} {a : α} {b : β} (ha : a ∈ l)
    (hb : f a = some b) (h : ∀ a ∈ l, ∀ c, f a = some c → c = b) : l.findSome? f = some b := by
  cases hfound : l.findSome? f with
  | none =>
    rw [List.findSome?_eq_none_iff.mp hfound a ha] at hb
    cases hb
  | some c =>
    obtain ⟨a', ha', hc⟩ := List.exists_of_findSome?_eq_some hfound
    rw [h a' ha' c hc]

/-- The declarations of a sealed type: its tags in order, and `Apply` and `Unapply` of each variant. -/
structure Emitted (env : Env) (d : SealedDecl) (e : TypeEntry) (decls : List Decl) : Prop where
  tags : decls.filterMap tag? = d.variants.mapIdx fun i v => (tagName d v, UInt8.ofNat i)
  apply : ∀ v ∈ d.variants, ∃ elements, v.fields.mapM (variantElement env e (e.selfType "") d.span) = .ok elements ∧
      decls.findSome? (method? v.name.val "Apply") = some (applyDecl d e v elements)
  unapply : ∀ v ∈ d.variants, decls.findSome? (method? v.name.val "Unapply") = some (unapplyDecl env d e v)

theorem emitted_of_lowerSealed (h : lowerSealed env d = .ok decls) (hnodup : (d.variants.map (·.name.val)).Nodup) :
    ∃ e, env.index.types.find? d.name.val = some e ∧ Emitted env d e decls := by
  obtain ⟨e, fields, companions, he, hcompanions, rfl⟩ := lowerSealed_ok h
  have hflat : companions.flatten.filterMap tag? = [] := by
    rw [List.filterMap_flatten, List.flatten_eq_nil_iff]
    intro l hl
    obtain ⟨ds, hds, rfl⟩ := List.mem_map.mp hl
    exact forall_mem_of_mapM_ok hcompanions (fun v ds _ hv => lowerVariant_tag hv) ds hds
  have hmethod : ∀ v ∈ d.variants, ∃ ds, lowerVariant env d e v = .ok ds ∧ ∀ f, .func f ∈ ds →
      (Decl.struct d.name.val (targetParams d.typeParams) fields ::
        d.variants.mapIdx (fun i v => Decl.const (tagName d v) (some tagType) (.nat i)) ++
        companions.flatten).findSome? (method? v.name.val f.name) = some f := by
    intro v hv
    obtain ⟨ds, hmem, hds⟩ := exists_of_forall₂ (forall₂_of_mapM_ok hcompanions) v hv
    refine ⟨ds, hds, fun f hf => ?_⟩
    obtain ⟨htype, hunique⟩ := lowerVariant_func hds hf
    refine findSome?_eq_of_unique (List.mem_append_right _ (List.mem_flatten.mpr ⟨ds, hmem, hf⟩))
      (method?_eq_some.mpr ⟨rfl, rfl, by simp [htype]⟩) fun decl hdecl f' hf' => ?_
    obtain ⟨rfl, hname, htype'⟩ := method?_eq_some.mp hf'
    -- another function under these names is one of the same variant
    obtain ⟨ds', hds', hf'⟩ : ∃ ds' ∈ companions, Decl.func f' ∈ ds' := by simpa [List.mem_mapIdx] using hdecl
    obtain ⟨w, hw, hlower⟩ := exists_of_forall₂ (forall₂_of_mapM_ok hcompanions).flip ds' hds'
    rw [(lowerVariant_func hlower hf').1, beq_iff_eq] at htype'
    obtain rfl := List.inj_on_of_nodup_map hnodup hw hv htype'
    cases hds.symm.trans hlower
    exact hunique f' hf' hname
  refine ⟨e, he, ?_, ?_, ?_⟩
  · rw [List.filterMap_append, hflat, List.append_nil, List.filterMap_cons_none rfl, List.mapIdx_eq_zipIdx_map,
      List.mapIdx_eq_zipIdx_map, List.filterMap_map, ← List.filterMap_eq_map]
    rfl
  · intro v hv
    obtain ⟨ds, hds, hfound⟩ := hmethod v hv
    obtain ⟨elements, helements, rfl⟩ := lowerVariant_ok hds
    exact ⟨elements, helements, hfound _ (.tail _ (.head _))⟩
  · intro v hv
    obtain ⟨ds, hds, hfound⟩ := hmethod v hv
    obtain ⟨elements, helements, rfl⟩ := lowerVariant_ok hds
    exact hfound _ (.tail _ (.tail _ (.head _)))

/-! ## Building -/

/-- An argument as its field stores it: wrapped, unless the field is `var`. -/
def stored (f : StructField) (v : Value α) : Value α := if f.mutable then v else .wrapped v

def built (tag : UInt8) (v : Variant) (args : List (Value α)) : Value α :=
  .record ((tagField, .byte tag) :: (v.fields.zip args).map fun p => (p.1.name.val, stored p.1 p.2))

/-- The names of a variant's fields are different, and hide nothing that its methods use. -/
structure Legible (runtime : String) (d : SealedDecl) (v : Variant) : Prop where
  nodup : (v.fields.map (·.name.val)).Nodup
  named : "_" ∉ v.fields.map (·.name.val)
  tagField : Lower.tagField ∉ v.fields.map (·.name.val)
  tagName : tagName d v ∉ v.fields.map (·.name.val)
  root : root runtime ∉ v.fields.map (·.name.val)

variable {g : Globals} {locals : Locals (Value α) Unit}

theorem eval_param {v : Value α} (h : locals.lookup x = some (.value v)) : eval g locals (.ident x) = some v := by
  simp only [eval, h, Slot.read]

theorem eval_tag (hlocal : locals.lookup x = none) (h : g.tags.lookup x = some tag) :
    eval g locals (.ident x) = some (.byte tag) := by
  simp only [eval, hlocal, h, Option.map_some]

theorem eval_selector {x : Expr} {v : Value α} (h : eval g locals x = some v) :
    eval g locals (.selector x name) = v.field name := by
  rw [eval, h, Option.bind_some]

theorem eval_eq {x y : Expr} {a b : UInt8} (hx : eval g locals x = some (.byte a))
    (hy : eval g locals y = some (.byte b)) : eval g locals (.binary .eq x y) = some (.bool (a == b)) := by
  rw [eval, hx, hy]
  rfl

theorem eval_get {x : Expr} {v : Value α} (h : eval g locals x = some v) :
    eval g locals (Storage.read x) = v.content := by
  have hwrap : isWrap g.runtime (locals.map (·.1)) (.selector x "Get") = false := by
    cases x <;> simp [isWrap]
  simp only [Storage.read, Expr.method, Expr.apply, eval, evalAll, h, hwrap, Option.bind_some]
  simp [Value.method]

theorem evalAll_single {x : Expr} {v : Value α} (h : eval g locals x = some v) :
    evalAll g locals [x] = some [v] := by
  rw [evalAll, evalAll, h]
  rfl

theorem isWrap_qualified (h : root runtime ∉ names) :
    isWrap runtime names (.qualified runtime "NewImmutable") = true := by
  unfold root at h
  unfold Expr.qualified
  split at h <;> simp_all [isWrap]

theorem eval_wrap {x : Expr} {v : Value α} (hroot : root g.runtime ∉ locals.map (·.1)) (tys : List Ty)
    (h : eval g locals x = some v) :
    eval g locals (.call (.qualified g.runtime "NewImmutable") tys [x]) = some (.wrapped v) := by
  simp [eval, evalAll, h, isWrap_qualified hroot, Value.wrap]

theorem evalElements_stored (hruntime : g.runtime = env.runtime) (hroot : root g.runtime ∉ locals.map (·.1)) :
    ∀ {fields : List StructField} {args : List (Value α)}
    {elements : List Element}, fields.mapM (variantElement env e self span) = .ok elements →
    args.length = fields.length →
    (∀ f ∈ fields, ∀ info, env.field? self f.name.val = some info → info.wrapped = !f.mutable) →
    (∀ p ∈ fields.zip args, locals.lookup p.1.name.val = some (.value p.2)) →
    evalElements g locals elements = some ((fields.zip args).map fun p => (p.1.name.val, stored p.1 p.2)) := by
  intro fields
  induction fields with
  | nil =>
    intro args elements h _ _ _
    cases h
    simp [evalElements]
  | cons f fields ih =>
    intro args elements h hlength hflags hlocals
    obtain ⟨a, args, rfl⟩ := List.exists_cons_of_length_eq_add_one hlength
    rw [List.mapM_cons] at h
    obtain ⟨element, helement, h⟩ := checked_bind_ok h
    obtain ⟨rest, hrest, rfl⟩ := checked_map_ok h
    have hvalue : eval g locals (.ident f.name.val) = some a := eval_param (hlocals (f, a) (.head _))
    have htail := ih hrest (Nat.succ.inj hlength) (fun f hf => hflags f (.tail _ hf)) fun p hp => hlocals p (.tail _ hp)
    obtain ⟨info, hinfo, rfl⟩ := variantElement_ok helement
    rw [hflags f (.head _) info hinfo]
    cases hmutable : f.mutable with
    | true => simp [evalElements, htail, hvalue, stored, hmutable]
    | false => simp [evalElements, htail, ← hruntime, eval_wrap hroot _ hvalue, stored, hmutable]

theorem eval_built {elements : List Element} (hlocal : locals.lookup (tagName d v) = none)
    (htag : g.tags.lookup (tagName d v) = some tag) (helements : evalElements g locals elements =
      some ((v.fields.zip args).map fun p => (p.1.name.val, stored p.1 p.2))) :
    eval g locals (.composite self (⟨some tagField, .ident (tagName d v)⟩ :: elements)) = some (built tag v args) := by
  have hident := eval_tag (g := g) hlocal htag
  rw [eval, evalElements, hident, helements]
  rfl

theorem call_eq {f : FuncDecl} (hf : decls.findSome? (method? type name) = some f) {v : Value α}
    (h : execAll 0 f.body (⟨defineAll [] (f.params.map (·.name)) args, ()⟩ :
      Target.State (machine α ⟨runtime, decls.filterMap tag?⟩)) = some (.returned [v] ())) :
    call runtime decls type name args = some v := by
  simp only [call, hf, Option.bind_eq_bind, Option.bind_some, h]

theorem call_apply (hemitted : Emitted env d e decls) (hv : v ∈ d.variants) (hlegible : Legible env.runtime d v)
    (hflags : ∀ f ∈ v.fields, ∀ info, env.field? (e.selfType "") f.name.val = some info → info.wrapped = !f.mutable)
    (htag : (decls.filterMap tag?).lookup (tagName d v) = some tag) (hlength : args.length = v.fields.length) :
    call env.runtime decls v.name.val "Apply" args = some (built tag v args) := by
  obtain ⟨elements, helements, happly⟩ := hemitted.apply v hv
  refine call_eq happly (execAll_ret ?_ [])
  have hnames : args.length = (v.fields.map (·.name.val)).length := by rw [hlength, List.length_map]
  have hparams : (applyDecl d e v elements).params.map (·.name) = v.fields.map (·.name.val) := by simp [applyDecl]
  rw [hparams]
  refine eval_built ?_ htag ?_
  · exact lookup_defineAll_none hlegible.named hnames hlegible.tagName
  · refine evalElements_stored rfl ?_ helements hlength hflags ?_
    · exact not_mem_defineAll (m := machine α ⟨env.runtime, _⟩) hlegible.named hnames hlegible.root
    · intro p hp
      refine lookup_defineAll hlegible.named hnames hlegible.nodup ?_
      rw [List.zip_map_left]
      exact List.mem_map.mpr ⟨p, hp, rfl⟩

/-! ## Taking apart -/

/-- What `Unapply` returns for the arguments that its variant was built from. -/
def extracted : List (Value α) → Value α
  | [] => .bool true
  | [arg] => .option (some arg)
  | args => .option (some (.record (args.mapIdx fun i arg => (Ty.tupleField i, arg))))

/-- What `Unapply` returns for a value of another variant. -/
def refused (v : Variant) : Value α := if v.fields.isEmpty then .bool false else .option none

/-- The only local of `Unapply`. -/
def subject (x : Value α) : Locals (Value α) Unit := [("s", .value x)]

theorem eval_subject (x : Value α) : eval g (subject x) (.ident "s") = some x := eval_param rfl

theorem tagName_ne_subject : tagName d v ≠ "s" := by
  intro h
  have hmem : '_' ∈ (tagName d v).toList := by simp [tagName, variantTag, String.toList_append]
  rw [h] at hmem
  revert hmem
  decide

theorem eval_isOwn {x : Value α} (hx : x.field tagField = some (.byte tag))
    (hown : g.tags.lookup (tagName d v) = some own) : eval g (subject x) (isOwn d v) = some (.bool (tag == own)) := by
  have hlocal : (subject x).lookup (tagName d v) = none := by
    simp [subject, List.lookup_cons, beq_false_of_ne tagName_ne_subject]
  exact eval_eq ((eval_selector (eval_subject x)).trans hx) (eval_tag hlocal hown)

theorem eval_optionCall (hruntime : g.runtime = env.runtime) {args : List Expr} {values : List (Value α)}
    {result : Value α} (hargs : evalAll g locals args = some values)
    (hresult : Value.ofOption name values = some result) :
    eval g locals (optionCall env v name args) = some result := by
  simp [optionCall, Expr.method, Expr.apply, Expr.zero, eval, hargs, isWrap, Value.method, hruntime, hresult]

theorem call_unapply_other (hemitted : Emitted env d e decls) (hv : v ∈ d.variants) {x : Value α}
    (hx : x.field tagField = some (.byte tag)) (hown : (decls.filterMap tag?).lookup (tagName d v) = some own)
    (hne : tag ≠ own) : call env.runtime decls v.name.val "Unapply" [x] = some (refused v) := by
  have hown := eval_isOwn (g := ⟨env.runtime, decls.filterMap tag?⟩) hx hown
  rw [beq_false_of_ne hne] at hown
  refine call_eq (hemitted.unapply v hv) ?_
  unfold unapplyDecl refused
  split
  · exact execAll_ret hown []
  · exact execAll_guarded hown (eval_optionCall rfl rfl rfl)

section

variable {v : Variant} {args : List (Value α)} {tag : UInt8} {runtime : String}

theorem field_built_tag (tag : UInt8) (v : Variant) (args : List (Value α)) :
    (built tag v args).field tagField = some (.byte tag) := by
  simp [built, Value.field]

variable {arg : Value α} {f : StructField}

theorem field_built (hlegible : Legible runtime d v) (hlength : args.length = v.fields.length)
    (h : (f, arg) ∈ v.fields.zip args) : (built tag v args).field f.name.val = some (stored f arg) := by
  refine lookup_of_mem ?_ (.tail _ (List.mem_map.mpr ⟨_, h, rfl⟩))
  have hkeys : ((v.fields.zip args).map fun p => (p.1.name.val, stored p.1 p.2)).map (·.1) =
      v.fields.map (·.name.val) := by
    calc ((v.fields.zip args).map fun p => (p.1.name.val, stored p.1 p.2)).map (·.1)
        = ((v.fields.zip args).map (·.1)).map (·.name.val) := by rw [List.map_map, List.map_map]; rfl
      _ = v.fields.map (·.name.val) := by rw [List.map_fst_zip (Nat.le_of_eq hlength.symm)]
  rw [List.map_cons, hkeys]
  exact List.nodup_cons.mpr ⟨hlegible.tagField, hlegible.nodup⟩

theorem eval_readVariantField (hlegible : Legible runtime d v) (hlength : args.length = v.fields.length)
    (h : (f, arg) ∈ v.fields.zip args) :
    eval g (subject (built tag v args)) (readVariantField (.ident "s") f) = some arg := by
  have hplace : eval g (subject (built tag v args)) (.selector (.ident "s") f.name.val) = some (stored f arg) :=
    (eval_selector (eval_subject _)).trans (field_built hlegible hlength h)
  unfold readVariantField
  cases hmutable : f.mutable with
  | true => simpa [stored, hmutable] using hplace
  | false =>
    refine (eval_get hplace).trans ?_
    simp [stored, hmutable, Value.content]

theorem evalElements_read (key : Nat → String) {fields : List StructField} {values : List (Value α)}
    (hlength : values.length = fields.length)
    (h : ∀ p ∈ fields.zip values, eval g locals (readVariantField (.ident "s") p.1) = some p.2) :
    evalElements g locals (fields.mapIdx fun i f => ⟨some (key i), readVariantField (.ident "s") f⟩) =
      some (values.mapIdx fun i value => (key i, value)) := by
  induction fields generalizing values key with
  | nil =>
    rw [List.length_eq_zero_iff.mp hlength]
    simp [evalElements]
  | cons f fields ih =>
    obtain ⟨value, values, rfl⟩ := List.exists_cons_of_length_eq_add_one hlength
    have hhead := h (f, value) (.head _)
    have htail := ih (fun i => key (i + 1)) (Nat.succ.inj hlength) fun p hp => h p (.tail _ hp)
    simp only [List.mapIdx_cons, evalElements, hhead, htail]
    rfl

theorem eval_variantPayload (hlegible : Legible runtime d v) (hlength : args.length = v.fields.length) {ty : Ty}
    (hfields : v.fields ≠ []) : ∃ payload,
      eval g (subject (built tag v args)) (variantPayload (.ident "s") ty v.fields) = some payload ∧
        extracted args = .option (some payload) := by
  have hread : ∀ p ∈ v.fields.zip args,
      eval g (subject (built tag v args)) (readVariantField (.ident "s") p.1) = some p.2 :=
    fun p hp => eval_readVariantField hlegible hlength hp
  revert hread
  generalize hfs : v.fields = fields at hfields hlength
  intro hread
  match fields, args, hlength with
  | [], _, _ => exact absurd rfl hfields
  | [f], [arg], _ => exact ⟨arg, hread (f, arg) (.head _), rfl⟩
  | f :: f' :: fields, arg :: arg' :: args, hlength =>
    have helements := evalElements_read Ty.tupleField hlength hread
    refine ⟨.record ((arg :: arg' :: args).mapIdx fun i arg => (Ty.tupleField i, arg)), ?_, rfl⟩
    show eval g _ (.composite ty _) = _
    rw [eval, helements]
    rfl

theorem call_unapply_same (hemitted : Emitted env d e decls) (hv : v ∈ d.variants)
    (hlegible : Legible env.runtime d v) (hlength : args.length = v.fields.length)
    (htag : (decls.filterMap tag?).lookup (tagName d v) = some tag) :
    call env.runtime decls v.name.val "Unapply" [built tag v args] = some (extracted args) := by
  have hown := eval_isOwn (g := ⟨env.runtime, decls.filterMap tag?⟩) (field_built_tag tag v args) htag
  rw [beq_self_eq_true] at hown
  refine call_eq (hemitted.unapply v hv) ?_
  unfold unapplyDecl
  split
  · rename_i hempty
    have hnil : args = [] := List.length_eq_zero_iff.mp (by rw [hlength, List.isEmpty_iff.mp hempty]; rfl)
    subst hnil
    exact execAll_ret hown []
  · rename_i hfields
    obtain ⟨payload, hpayload, hextracted⟩ := eval_variantPayload hlegible hlength
      (fun h => hfields (List.isEmpty_iff.mpr h))
    rw [hextracted]
    exact execAll_guarded hown (eval_optionCall rfl (evalAll_single hpayload) rfl)

end

/-! ## Tags -/

theorem variantTag_injective : Function.Injective (variantTag name) := by
  intro v w h
  have htexts := congrArg String.toList h
  simp only [variantTag, String.toList_append] at htexts
  exact String.toList_injective (List.append_cancel_left htexts)

theorem lookup_tag (hemitted : Emitted env d e decls) (hnodup : (d.variants.map (·.name.val)).Nodup)
    (hi : d.variants[i]? = some v) : (decls.filterMap tag?).lookup (tagName d v) = some (UInt8.ofNat i) := by
  have hkeys : (d.variants.mapIdx fun i v => (tagName d v, UInt8.ofNat i)).map (·.1) =
      (d.variants.map (·.name.val)).map (variantTag d.name.val) := by
    apply List.ext_getElem <;> simp [tagName]
  rw [hemitted.tags]
  refine lookup_of_mem ?_ (List.mem_of_getElem? (i := i) ?_)
  · rw [hkeys]
    exact hnodup.map variantTag_injective
  · rw [List.getElem?_mapIdx, hi]
    rfl

theorem tag_ne {j : Nat} (hi : i < 256) (hj : j < 256) (hne : i ≠ j) : UInt8.ofNat i ≠ UInt8.ofNat j := by
  intro h
  have htags := congrArg UInt8.toNat h
  simp only [UInt8.toNat_ofNat'] at htags
  omega

/-! ## Fields of several variants -/

/-- Fields of the entry are fields of variants, and stored as one of them declares. -/
structure Merged (d : SealedDecl) (e : TypeEntry) : Prop where
  name : e.name = d.name.val
  length : e.flags.length = e.fields.length
  declared : ∀ p ∈ e.fields.zip e.flags, ∃ v ∈ d.variants, ∃ f ∈ v.fields, f.name.val = p.1 ∧ p.2 = !f.mutable

theorem Merged.addField (h : Merged d e) {v : Variant} (hv : v ∈ d.variants) {f : StructField} (hf : f ∈ v.fields) :
    Merged d (e.addField f) where
  name := h.name
  length := by simp [TypeEntry.addField, h.length]
  declared := by
    intro p hp
    simp only [TypeEntry.addField] at hp
    rw [List.zip_append h.length.symm, List.mem_append] at hp
    rcases hp with hp | hp
    · exact h.declared p hp
    · obtain rfl := List.mem_singleton.mp hp
      exact ⟨v, hv, f, hf, rfl, rfl⟩

theorem Merged.ofEmpty (hname : e.name = d.name.val) (hfields : e.fields = []) (hflags : e.flags = []) :
    Merged d e where
  name := hname
  length := by simp [hfields, hflags]
  declared := by
    intro p hp
    rw [hfields] at hp
    cases hp

/-- No other declaration gives fields to the type's name. -/
structure Alone (program : Source.Program) (d : SealedDecl) : Prop where
  plain : Text.splitQualifier d.name.val = none
  structs : ∀ s, Index.Declared program (.struct s) → s.name.val ≠ d.name.val
  sealedTypes : ∀ d', Index.Declared program (.sealedType d') → d'.name.val = d.name.val → d' = d

theorem merged_of_build {program : Source.Program} (halone : Alone program d) {index : Index}
    (hindex : Index.build program runtime = .ok index) : ∀ e, index.types.find? d.name.val = some e → Merged d e := by
  refine fun e he => Index.types_induction (P := fun name e => name = d.name.val → Merged d e) hindex
    ?_ ?_ ?_ ?_ _ e he rfl
  · intro s hs heq
    exact absurd heq (halone.structs s hs)
  · intro d' _ v _ heq
    exact .ofEmpty heq rfl rfl
  · intro d' hd' e hbuilt heq
    obtain rfl := halone.sealedTypes d' hd' heq
    refine TypeEntry.sealed_induction (P := Merged d') hbuilt (.ofEmpty rfl rfl rfl) ?_ ?_
    · intro e v _ h
      exact ⟨h.name, h.length, h.declared⟩
    · intro e v hv f hf h
      exact h.addField hv hf
  · intro f receiver _ _ e he heq
    have hmerged : Merged d e := by
      rcases he with he | rfl
      · exact he heq
      · exact .ofEmpty heq rfl rfl
    unfold TypeEntry.withMethod
    split <;> exact ⟨hmerged.name, hmerged.length, hmerged.declared⟩

/-- Variants that share a field agree on `var`. -/
def Agreeing (d : SealedDecl) : Prop :=
  ∀ v ∈ d.variants, ∀ w ∈ d.variants, ∀ f ∈ v.fields, ∀ f' ∈ w.fields, f.name.val = f'.name.val → f.mutable = f'.mutable

theorem entry?_selfType (hplain : Text.splitQualifier d.name.val = none) (hname : e.name = d.name.val)
    (he : env.index.types.find? d.name.val = some e) : env.entry? (e.selfType "") = some e := by
  have htype : env.type? d.name.val = some e := by
    simp only [Env.type?, hplain, he]
    rfl
  have hentry : env.entry? (.named "" e.name) = some e := by rw [hname]; exact htype
  unfold TypeEntry.selfType Ty.apply
  split
  · exact hentry
  · exact hentry

theorem wrapped_of_agreeing (hmerged : Merged d e) (hentry : env.entry? (e.selfType "") = some e) (hagree : Agreeing d)
    (hv : v ∈ d.variants) (hf : f ∈ v.fields) {info : FieldInfo} (h : env.field? (e.selfType "") f.name.val = some info) :
    info.wrapped = !f.mutable := by
  simp only [Env.field?, hentry, Option.bind_eq_bind, Option.bind_some, Option.bind_eq_some_iff] at h
  obtain ⟨i, hi, declared, -, h⟩ := h
  cases h
  rw [TypeEntry.fieldIndex?, List.findIdx?_eq_some_iff_getElem] at hi
  obtain ⟨hlt, heq, -⟩ := hi
  have hflag : i < e.flags.length := hmerged.length ▸ hlt
  have hzip : i < (e.fields.zip e.flags).length := by
    rw [List.length_zip]
    omega
  have hmem : (e.fields[i], e.flags[i]) ∈ e.fields.zip e.flags := List.mem_iff_getElem.mpr ⟨i, hzip, List.getElem_zip⟩
  obtain ⟨w, hw, f', hf', hname, hstored⟩ := hmerged.declared _ hmem
  rw [List.getElem?_eq_getElem hflag, Option.getD_some]
  exact hstored.trans (congrArg _ <| hagree w hw v hv f' hf' f hf (hname.trans (beq_iff_eq.mp heq)))

/-! ## Round trip -/

variable {program : Source.Program} {catalog : Catalog} {settings : Settings}

/-- What `Apply` of a variant builds from some arguments, its own `Unapply` takes apart into the same arguments, and
    that of every other variant refuses. -/
theorem sealed_roundTrip (henv : Env.ofProgram program catalog settings = .ok env) (halone : Alone program d)
    (hagree : Agreeing d) (hcount : d.variants.length ≤ 256) (hnodup : (d.variants.map (·.name.val)).Nodup)
    (hlegible : ∀ v ∈ d.variants, Legible env.runtime d v) (h : lowerSealed env d = .ok decls) :
    ∀ v ∈ d.variants, ∀ args : List (Value α), args.length = v.fields.length → ∃ x,
      call env.runtime decls v.name.val "Apply" args = some x ∧
      call env.runtime decls v.name.val "Unapply" [x] = some (extracted args) ∧
      ∀ w ∈ d.variants, w ≠ v → call env.runtime decls w.name.val "Unapply" [x] = some (refused w) := by
  intro v hv args hlength
  obtain ⟨e, he, hemitted⟩ := emitted_of_lowerSealed h hnodup
  have hmerged : Merged d e := by
    obtain ⟨index, hindex, rfl⟩ := Env.ofProgram_ok henv
    exact merged_of_build halone hindex e he
  have hentry := entry?_selfType halone.plain hmerged.name he
  obtain ⟨i, hi⟩ := List.getElem?_of_mem hv
  have htag := lookup_tag hemitted hnodup hi
  refine ⟨built (UInt8.ofNat i) v args, ?_, ?_, ?_⟩
  · refine call_apply hemitted hv (hlegible v hv) ?_ htag hlength
    intro f hf info hinfo
    exact wrapped_of_agreeing hmerged hentry hagree hv hf hinfo
  · exact call_unapply_same hemitted hv (hlegible v hv) hlength htag
  · intro w hw hne
    obtain ⟨j, hj⟩ := List.getElem?_of_mem hw
    have hij : i ≠ j := by
      rintro rfl
      exact hne (Option.some.inj (hj.symm.trans hi))
    have hilt := (List.getElem?_eq_some_iff.mp hi).1
    have hjlt := (List.getElem?_eq_some_iff.mp hj).1
    exact call_unapply_other hemitted hw (field_built_tag _ v args) (lookup_tag hemitted hnodup hj)
      (tag_ne (by omega) (by omega) hij)

/-- A field of type `int`. -/
def intField (name : String) (mutable : Bool) : StructField := ⟨unlocated name, .int, mutable⟩

def sealedOf (variants : List Variant) : SealedDecl := ⟨unlocated "S", [], variants, .synthetic⟩

def programOf (d : SealedDecl) : Source.Program := ⟨"main", [unlocated (.sealedType d)]⟩

/-- `sealed S { A(x: int, var y: int), B(x: int), C }` -/
def sharing : SealedDecl :=
  sealedOf [⟨unlocated "A", [intField "x" false, intField "y" true]⟩, ⟨unlocated "B", [intField "x" false]⟩,
    ⟨unlocated "C", []⟩]

theorem alone_programOf (h : Text.splitQualifier d.name.val = none) : Alone (programOf d) d where
  plain := h
  structs := by
    rintro s ⟨span, hs⟩
    cases List.mem_singleton.mp hs
  sealedTypes := by
    rintro d' ⟨span, hd'⟩ -
    cases List.mem_singleton.mp hd'
    rfl

/-- Two variants share the field `x`; a value of `A` is given back by `A` and refused by `B` and `C`. -/
theorem sealed_roundTrip_sharing : ∃ env decls x, Env.ofProgram (programOf sharing) .empty .standard = .ok env ∧
    lowerSealed env sharing = .ok decls ∧
    call env.runtime decls "A" "Apply" [Value.atom 3, .atom 4] = some x ∧
    call env.runtime decls "A" "Unapply" [x] = some (.option (some (.record [("V1", .atom 3), ("V2", .atom 4)]))) ∧
    call env.runtime decls "B" "Unapply" [x] = some (.option none) ∧
    call env.runtime decls "C" "Unapply" [x] = some (.bool false) := by
  have henv : ∃ env, Env.ofProgram (programOf sharing) .empty .standard = .ok env ∧ env.runtime = "std" ∧
      ∃ decls, lowerSealed env sharing = .ok decls :=
    ⟨_, by with_unfolding_all rfl, by with_unfolding_all rfl, _, by with_unfolding_all rfl⟩
  obtain ⟨env, henv, hruntime, decls, hdecls⟩ := henv
  have hlegible : ∀ v ∈ sharing.variants, Legible env.runtime sharing v := by
    rw [hruntime]
    intro v hv
    simp only [sharing, sealedOf, List.mem_cons, List.not_mem_nil, or_false] at hv
    rcases hv with rfl | rfl | rfl <;> constructor <;> decide
  obtain ⟨x, happly, hunapply, hother⟩ := sealed_roundTrip henv (alone_programOf rfl) (by unfold Agreeing; decide)
    (by decide) (by decide) hlegible hdecls ⟨unlocated "A", [intField "x" false, intField "y" true]⟩ (.head _)
    [Value.atom 3, .atom 4] rfl
  exact ⟨env, decls, x, henv, hdecls, happly, hunapply,
    hother ⟨unlocated "B", [intField "x" false]⟩ (.tail _ (.head _)) (by simp [unlocated]),
    hother ⟨unlocated "C", []⟩ (.tail _ (.tail _ (.head _))) (by simp [unlocated])⟩

/-- `sealed S { A(var x: int), B(x: int) }` -/
def mixed : SealedDecl := sealedOf [⟨unlocated "A", [intField "x" true]⟩, ⟨unlocated "B", [intField "x" false]⟩]

/-- The shared field is stored plain, as `A` declares it; `B` reads it out of a wrapper and fails. -/
theorem sealed_readsPlainField : ∃ env decls, Env.ofProgram (programOf mixed) .empty .standard = .ok env ∧
    lowerSealed env mixed = .ok decls ∧ ∀ n : Nat, ∃ x,
      call env.runtime decls "B" "Apply" [Value.atom n] = some x ∧
      call env.runtime decls "B" "Unapply" [x] = none := by
  refine ⟨_, _, by with_unfolding_all rfl, by with_unfolding_all rfl, fun n => ?_⟩
  refine ⟨.record [("_variant", .byte 1), ("x", .atom n)], ?_, ?_⟩
  · with_unfolding_all rfl
  · with_unfolding_all rfl

end Lowering.Variants
