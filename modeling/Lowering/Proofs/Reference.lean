/-
  Reference — what a pattern means.

  A pattern is matched against a value by looking at the value, not at an expression that reads it; `matchValue`
  gives the component each name stands for. `Runtime` is how the values of a machine are seen for this, and
  `Runtime.Lawful` what the emitted code relies on.
-/

import Lowering.Match.Compile
import Lowering.Proofs.Apart

namespace Lowering.Match

open Source (Pattern)
open Target (Expr Machine Locals)

variable {m : Machine}

/-- How the values of a machine are seen from outside. -/
structure Runtime (m : Machine) where
  Has : m.Value → Ty → Prop
  literal : Literal → m.Value
  equal : m.Value → m.Value → Bool
  isA : m.Value → Ty → Bool
  tuple? : m.Value → Option (List m.Value)
  field? : m.Value → String → Option m.Value
  wrapped? : m.Value → Option m.Value
  option? : m.Value → Option (Option m.Value)
  elements? : m.Value → Option (List m.Value)
  /-- A slice, which may be `nil`. -/
  slice? : m.Value → Option (Option (List m.Value))
  unapply : (companion : Ty) → m.Value → m.Value
  /-- The runtime helpers for an `Unapply` that cannot be called directly. -/
  accepts : (head : Ty) → m.Value → Bool
  extract : (head : Ty) → m.Value → Option (List m.Value)
  /-- Names that emitted code takes from outside: builtins, packages and types. -/
  outside : String → Bool

/-- What stands at one position of a value. -/
inductive Component (Value : Type) where
  | value (v : Value) (ty : Ty)
  /-- The remaining elements, for a rest pattern. -/
  | suffix (vs : List Value)

namespace Runtime

/-! ## Matching a value -/

def look (rt : Runtime m) (ty : Ty) (v : m.Value) : Option m.Value :=
  if ty.isWrapper then rt.wrapped? v else some v

def unapplied (rt : Runtime m) (companion : Ty) (v : m.Value) : UnapplyShape → Option (List (Component m.Value))
  | .bool => if m.truth (rt.unapply companion v) then some [] else none
  | .option payload expand => do
    let content ← (rt.option? (rt.unapply companion v)).join
    match expand with
    | some types => (rt.tuple? content).map fun vs => List.zipWith .value vs types
    | none => some [.value content payload]

def fieldOf (rt : Runtime m) (v : m.Value) (f : FieldRead) : Option (Component m.Value) := do
  let stored ← rt.field? v f.name
  let content ← if f.wrapped then rt.wrapped? stored else some stored
  some (.value content f.ty)

/-- The first `rest` elements one by one and then those that remain; without a rest pattern there
    must be as many elements as patterns. -/
def elementsOf (arity : Nat) (elem : Ty) (rest : Option Nat) (vs : List m.Value) :
    Option (List (Component m.Value)) :=
  match rest with
  | none => if vs.length = arity then some (vs.map (.value · elem)) else none
  | some i => if i ≤ vs.length then some ((vs.take i).map (.value · elem) ++ [.suffix (vs.drop i)]) else none

/-- A subject of type `any` that an `Unapply` of another type has to be tested for. -/
def needsCast (site : Site) (param : Ty) : Bool := site.subject.isAny && !param.isAny

/-- The components of a value that an extractor call takes apart. -/
def components (rt : Runtime m) (site : Site) (v : m.Value) : Extraction → Option (List (Component m.Value))
  | .unapply companion param shape =>
    if needsCast site param && !rt.isA v param then none else rt.unapplied companion v shape
  | .structural head fields cast => if cast && !rt.isA v head then none else fields.mapM (rt.fieldOf v)
  | .sequence _ elem rest => (rt.elements? v).bind (elementsOf site.arity elem rest)
  | .reflective head =>
    if site.arity = 0 then if rt.accepts head v then some [] else none
    else (rt.extract head v).bind (elementsOf site.arity .any none)

def extracted (rt : Runtime m) (env : Env) (site : Site) (v : m.Value) : Option (List (Component m.Value)) :=
  match resolve env site with
  | .ok e => rt.components site v e
  | .error _ => none

def restNames (p : Located Pattern) (vs : List m.Value) : List (String × Component m.Value) :=
  match p.val with
  | .rest (some name) => [(name, .suffix vs)]
  | _ => []

mutual

/-- What the names of the pattern stand for, if the value of the given type matches. -/
def matchValue (rt : Runtime m) (env : Env) :
    Located Pattern → Ty → m.Value → Option (List (String × Component m.Value))
  | ⟨.wildcard, _⟩, _, _ => some []
  | ⟨.ident name, span⟩, ty, v => do
    let v ← rt.look ty v
    if namesCompanion env name then (rt.extracted env ⟨⟨name, [], []⟩, ty.unwrap, span⟩ v).map fun _ => []
    else some [(name, .value v ty.unwrap)]
  | ⟨.literal value, _⟩, ty, v => do
    let v ← rt.look ty v
    if rt.equal v (rt.literal value) then some [] else none
  | ⟨.typed name wanted, _⟩, ty, v => do
    let v ← rt.look ty v
    if rt.isA v wanted then some (if name = "_" then [] else [(name, .value v wanted)]) else none
  | ⟨.extractor head typeArgs args, span⟩, ty, v => do
    let v ← rt.look ty v
    let parts ← rt.extracted env ⟨⟨head, typeArgs, args⟩, ty.unwrap, span⟩ v
    matchComponents rt env args parts
  | ⟨.tuple elems, _⟩, ty, v => do
    let v ← rt.look ty v
    let vs ← rt.tuple? v
    if vs.length = elems.length then
      matchComponents rt env elems (List.zipWith .value vs (env.expand ty.unwrap).args)
    else none
  | ⟨.rest _, _⟩, _, _ => none

/-- Sub-patterns against the components at their positions. -/
def matchComponents (rt : Runtime m) (env : Env) :
    List (Located Pattern) → List (Component m.Value) → Option (List (String × Component m.Value))
  | [], _ => some []
  | p :: ps, parts =>
    match parts with
    | [] => some []
    | .value v ty :: parts => do
      let first ← matchValue rt env p ty v
      let others ← matchComponents rt env ps parts
      some (first ++ others)
    | .suffix vs :: parts => (matchComponents rt env ps parts).map (restNames p vs ++ ·)

end

/-! ## What emitted code relies on -/

def Clear (rt : Runtime m) (l : Locals m.Value m.Cell) : Prop := ∀ x, rt.outside x = true → l.lookup x = none

/-- A value of the subject's type can be taken apart as the extraction says: a called `Unapply`
    returns what it declares, fields are there, a sequence has elements. -/
def Fits (rt : Runtime m) (site : Site) (v : m.Value) : Extraction → Prop
  | .unapply companion param .bool =>
    (needsCast site param = true → rt.isA v param = true) → ∃ b, rt.unapply companion v = m.bool b
  | .unapply companion param (.option payload expand) =>
    (needsCast site param = true → rt.isA v param = true) → ∃ o, rt.option? (rt.unapply companion v) = some o ∧
        ∀ w ∈ o, rt.Has w payload ∧ ∀ types ∈ expand, ∃ vs, rt.tuple? w = some vs ∧ List.Forall₂ rt.Has vs types
  | .structural head fields cast =>
    (cast = true → rt.isA v head = true) → ∀ f ∈ fields, ∃ stored, rt.field? v f.name = some stored ∧
      if f.wrapped then ∃ w, rt.wrapped? stored = some w ∧ rt.Has w f.ty else rt.Has stored f.ty
  | .sequence _ elem _ => ∃ vs, rt.elements? v = some vs ∧ ∀ w ∈ vs, rt.Has w elem
  | .reflective head => ∀ vs ∈ rt.extract head v, ∀ w ∈ vs, rt.Has w .any

end Runtime

def Reads (l : Locals m.Value m.Cell) (store : m.Store) (e : Expr) (v : m.Value) : Prop :=
  m.eval e l store = .value v store

namespace Runtime

variable (rt : Runtime m)

/-- How the expressions that patterns are compiled to are evaluated. -/
structure Evaluates (env : Env) : Prop where
  isLocal : m.Local
  literal : ∀ x l store, Reads l store (.lit x) (rt.literal x)
  equal : ∀ {l store a b v w}, Reads l store a v → Reads l store b w →
    Reads l store (.binary .eq a b) (m.bool (rt.equal v w))
  equal_bool : ∀ a b, rt.equal (m.bool a) (m.bool b) = (a == b)
  equal_int : ∀ i j, rt.equal (rt.literal (.int i)) (rt.literal (.int j)) = (i == j)
  atLeast : ∀ {l store a b i j}, Reads l store a (rt.literal (.int i)) → Reads l store b (rt.literal (.int j)) →
    Reads l store (.binary .ge a b) (m.bool (decide (j ≤ i)))
  component : ∀ {l store e v vs i w}, Reads l store e v → rt.tuple? v = some vs → vs[i]? = some w →
    Reads l store (.selector e (Ty.tupleField i)) w
  field : ∀ {l store e v name w}, Reads l store e v → rt.field? v name = some w → Reads l store (.selector e name) w
  getWrapped : ∀ {l store e v w}, Reads l store e v → rt.wrapped? v = some w → Reads l store (.method e "Get" []) w
  getOption : ∀ {l store e v w}, Reads l store e v → rt.option? v = some (some w) → Reads l store (.method e "Get" []) w
  isDefined : ∀ {l store e v o}, Reads l store e v → rt.option? v = some o →
    Reads l store (.method e "IsDefined" []) (m.bool o.isSome)
  size : ∀ {l store e v vs}, Reads l store e v → rt.elements? v = some vs →
    Reads l store (.method e "Size" []) (rt.literal (.int vs.length))
  getAt : ∀ {l store e v vs i w}, Reads l store e v → rt.elements? v = some vs → vs[i]? = some w →
    Reads l store (.method e "Get" [.nat i]) w
  drop : ∀ {l store e v vs i}, Reads l store e v → rt.elements? v = some vs →
    ∃ u, Reads l store (.method e "Drop" [.nat i]) u ∧ rt.elements? u = some (vs.drop i)
  asAny : ∀ {l store e v}, rt.Clear l → Reads l store e v → Reads l store (.apply (.ident "any") [e]) v
  cast : ∀ v ty, (m.cast v ty).2 = rt.isA v ty ∧ (rt.isA v ty = true → (m.cast v ty).1 = v)
  unapply : ∀ {l store e v}, rt.Clear l → Reads l store e v → ∀ companion,
    Reads l store (.method (.zero companion) "Unapply" [e]) (rt.unapply companion v)
  accepts : ∀ {l store e v}, rt.Clear l → Reads l store e v → ∀ head,
    Reads l store (.apply (.qualified env.runtime "UnapplyCheck") [e, .zero head]) (m.bool (rt.accepts head v))
  extract : ∀ {l store e v}, rt.Clear l → Reads l store e v → ∀ head,
    ∃ u, Reads l store (.apply (.qualified env.runtime "UnapplyFull") [e, .zero head]) u ∧
      rt.slice? u = some (rt.extract head v)
  notNil : ∀ {l store e u o}, Reads l store e u → rt.slice? u = some o →
    Reads l store (.binary .ne e .nil) (m.bool o.isSome)
  length : ∀ {l store e u vs}, rt.Clear l → Reads l store e u → rt.slice? u = some (some vs) →
    Reads l store (.apply (.ident "len") [e]) (rt.literal (.int vs.length))
  index : ∀ {l store e u vs i w}, Reads l store e u → rt.slice? u = some (some vs) → vs[i]? = some w →
    Reads l store (.index e (.nat i)) w

/-- What a value of a type is like. -/
structure Typed (env : Env) : Prop where
  bool : ∀ {v ty}, rt.Has v ty → (ty.isBool || (env.expand ty).isBool) = true → ∃ b, v = m.bool b
  /-- A value passes the run-time test for its own type. -/
  isA : ∀ {v ty wanted}, rt.Has v ty → (wanted == ty) = true → rt.isA v wanted = true
  tuple : ∀ {v ty n}, rt.Has v ty → (env.expand ty).tupleArity? = some n →
    ∃ vs, rt.tuple? v = some vs ∧ List.Forall₂ rt.Has vs (env.expand ty).args
  extraction : ∀ {v site e}, rt.Has v site.subject → resolve env site = .ok e → rt.Fits site v e

structure Lawful (env : Env) : Prop extends rt.Evaluates env, rt.Typed env

end Runtime

end Lowering.Match
