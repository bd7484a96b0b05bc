import Stackwise.Conventions
import Stackwise.Proofs.Lowering.Steps
import Stackwise.Proofs.Source.Additions
import Stackwise.Source.Text

/-!
# Walks over types and constants end

Types and constants refer to each other by number, and five walks follow the numbers: layout, stack
types, the texts of types and of operands, and pushing a value.  As they are written here they stop
at a depth; that the depth is never reached is what makes them the walks that they stand for.

The argument is the same for all.  One level of a walk consults the walk at the parts of a number
only (`Consults`), and parts have smaller numbers.  So the walk unrolled deep enough gives one and
the same answer, whatever stands at the bottom (`unroll_eq_of_lt`): the bottom is not consulted.
`Ends` collects this.  That parts are smaller is an invariant of building, for types
(`Builder.Ready`) and for constants (`Module.Grounded`); an instruction has no parts, which is why a
loop through a phi does no harm.
-/

namespace Stackwise

/-! ## Recursion on parts -/

section Unrolling

variable {β : Type}

/-- A recursion, given by what one level of it does, unrolled to a depth with something at the
bottom. -/
def unroll (level : (Nat → β) → Nat → β) (bottom : Nat → β) : (depth : Nat) → Nat → β
  | 0 => bottom
  | depth + 1 => level (unroll level bottom depth)

/-- One level of a recursion asks for the parts of a number only. -/
def Consults (level : (Nat → β) → Nat → β) (parts : Nat → List Nat) : Prop :=
  ∀ f g id, (∀ part ∈ parts id, f part = g part) → level f id = level g id

/-- A recursion ends, and gives the function: parts are smaller, nothing but parts is asked for, the
function is what a level of the recursion makes of it, and the bottom is never reached. -/
structure Ends (level : (Nat → β) → Nat → β) (parts : Nat → List Nat) (f : Nat → β) : Prop where
  smaller : ∀ id, ∀ part ∈ parts id, part < id
  consults : Consults level parts
  equation : ∀ id, f id = level f id
  unrolled : ∀ bottom depth id, id < depth → unroll level bottom depth id = f id

variable {level : (Nat → β) → Nat → β} {parts : Nat → List Nat}

/-- Unrolled deeper than a number, a recursion gives the same whatever the depth and the bottom. -/
theorem unroll_eq_of_lt (consults : Consults level parts)
    (smaller : ∀ id, ∀ part ∈ parts id, part < id) {bottom bottom' : Nat → β}
    {depth depth' id : Nat} (below : id < depth) (below' : id < depth') :
    unroll level bottom depth id = unroll level bottom' depth' id := by
  induction depth generalizing depth' id with
  | zero => cases below
  | succ depth ih =>
    cases depth' with
    | zero => cases below'
    | succ depth' =>
      refine consults _ _ id fun part mem => ?_
      have less := smaller id part mem
      exact ih (by omega) (by omega)

/-- A walk that is given depth enough is the recursion. -/
theorem ends_of_unroll (consults : Consults level parts)
    (smaller : ∀ id, ∀ part ∈ parts id, part < id) {bottom : Nat → β} {f : Nat → β}
    (walk : ∀ id, f id = unroll level bottom (id + 1) id) : Ends level parts f where
  smaller := smaller
  consults := consults
  equation id := by
    rw [walk]
    refine consults _ _ id fun part mem => ?_
    rw [walk]
    exact unroll_eq_of_lt consults smaller (smaller id part mem) (Nat.lt_succ_self part)
  unrolled bottom' depth id below := by
    rw [walk]
    exact unroll_eq_of_lt consults smaller below (Nat.lt_succ_self id)

end Unrolling

/-! ## Parts -/

open Source

/-- The components of the type with the given number. -/
def Source.TypePool.componentsOf (p : TypePool) (id : Nat) : List Nat :=
  (p.get? id).elim [] (·.components)

/-- The values that the constant with the given number is made of. -/
def Source.Module.partsOf (m : Module) (id : Nat) : List Nat :=
  (m.value? id).elim [] (·.parts)

theorem Source.TypePool.mem_componentsOf (p : TypePool) {id part : Nat} {ty : Ty}
    (found : p.get? id = some ty) (mem : part ∈ ty.components) : part ∈ p.componentsOf id := by
  rw [componentsOf, found]
  exact mem

/-- In an ordered pool, the components of a type have smaller numbers. -/
theorem Source.TypePool.Ordered.smaller {p : TypePool} (ordered : p.Ordered) (id part : Nat)
    (mem : part ∈ p.componentsOf id) : part < id := by
  rw [TypePool.componentsOf] at mem
  cases found : p.get? id with
  | none =>
    rw [found] at mem
    cases mem
  | some ty =>
    rw [found] at mem
    exact ordered id ty found part mem

namespace Source.Module

/-- Constants are made of values with smaller numbers. -/
def Grounded (m : Module) : Prop :=
  ∀ id, ∀ part ∈ m.partsOf id, part < id

theorem partsOf_eq {m : Module} {id : Nat} {v : Value} (found : m.value? id = some v) :
    m.partsOf id = v.parts := by
  rw [partsOf, found, Option.elim_some]

/-- An instruction has no parts: its operands are not walked into. -/
theorem partsOf_eq_nil {m : Module} {id : Nat} {i : Instruction}
    (found : m.instruction? id = some i) : m.partsOf id = [] := by
  obtain ⟨v, there, isInstruction⟩ := Option.bind_eq_some_iff.1 found
  rw [partsOf_eq there, Value.parts]
  rw [Value.instruction?] at isInstruction
  split at isInstruction
  next kind => rw [kind]
  next => cases isInstruction

/-- A new value changes the parts of no other one. -/
theorem partsOf_push (m : Module) (v : Value) (id : Nat) :
    (m.push v).partsOf id = if id = m.values.size then v.parts else m.partsOf id := by
  rw [partsOf, value?, push, Array.getElem?_push]
  split <;> rfl

/-- A new constant has a greater number than all that is there. -/
theorem Grounded.push {m : Module} (grounded : m.Grounded) {v : Value}
    (known : ∀ part ∈ v.parts, part < m.values.size) : (m.push v).Grounded := by
  intro id part mem
  rw [partsOf_push] at mem
  split at mem
  next last =>
    rw [last]
    exact known part mem
  next => exact grounded id part mem

end Source.Module

namespace Source

/-- An edit changes no parts: it may change the operands of an instruction, which are not among
them. -/
theorem Value.Alike.parts_eq {v v' : Value} (alike : v.Alike v') : v'.parts = v.parts := by
  rw [parts, parts]
  obtain same | ⟨i, operands, kind, kind'⟩ := alike.kind
  · rw [same]
  · rw [kind, kind']

namespace Builder

variable {b b' : Builder}

/-- Additions keep a module grounded, as constants are made of values that are there. -/
theorem Adds.grounded (adds : b.Adds b') (grounded : b.module.Grounded) : b'.module.Grounded := by
  cases adds with
  | value v _ known => exact grounded.push known
  | instruction ty i =>
    have pushed : (b.module.push { ty, kind := .instruction i }).Grounded :=
      grounded.push (List.forall_mem_nil _)
    exact pushed
  | type | global | function | personality | block | position => exact grounded

theorem Edits.grounded {change : Nat → Value → Value} (edits : b.Edits change b')
    (grounded : b.module.Grounded) : b'.module.Grounded := by
  intro id part mem
  refine grounded id part ?_
  rw [Module.partsOf, edits.value?] at mem
  rw [Module.partsOf]
  cases found : b.module.value? id with
  | none =>
    rw [found] at mem
    exact mem
  | some v =>
    rw [found, Option.map_some, Option.elim_some, (edits.alike id v).parts_eq] at mem
    exact mem

/-- A module that is built by steps that know what they refer to is grounded. -/
theorem Follows.grounded {name : String} {steps : List Step}
    (follows : (start name).Follows steps) : (build name steps).Grounded :=
  follows.holds (P := fun b => b.module.Grounded) (start_ready name) (fun _ _ => nofun)
    Adds.grounded Edits.grounded

/-- Its types are in order. -/
theorem Follows.ordered {name : String} {steps : List Step}
    (follows : (start name).Follows steps) : (build name steps).types.Ordered :=
  (follows.holds (start_ready name) (start_ready name) Adds.ready Edits.ready).ordered

end Builder

end Source

/-! ## Walks over types -/

section Types

variable (p : TypePool)

/-- One level of the layout of a type. -/
def Layout.extentLevel (extent : Nat → Except Overflow (Option Extent)) (id : Nat) :
    Except Overflow (Option Extent) :=
  match p.get? id with
  | some (.int bits) => return some (ofInt bits)
  | some .float => return some ⟨4, 4⟩
  | some .double => return some ⟨8, 8⟩
  | some (.array element length) | some (.vector element length) => do
    return (← extent element).bind (repeated · length)
  | some (.struct _ fields) => ofFields extent ⟨0, 1⟩ fields
  | _ => return none

/-- The layout of types is such a recursion. -/
theorem Layout.extentWithin_eq_unroll (depth : Nat) :
    extentWithin p depth = unroll (extentLevel p) (fun _ => .ok none) depth := by
  induction depth with
  | zero => rfl
  | succ depth ih =>
    rw [unroll, ← ih]
    rfl

/-- Placing fields asks for the extents of these fields only. -/
theorem Layout.ofFields_congr {f g : Nat → Except Overflow (Option Extent)} {fields : List Nat}
    (same : ∀ field ∈ fields, f field = g field) (soFar : Extent) :
    ofFields f soFar fields = ofFields g soFar fields := by
  induction fields generalizing soFar with
  | nil => rfl
  | cons field rest ih =>
    obtain ⟨here, later⟩ := List.forall_mem_cons.1 same
    simp only [ofFields, here, ih later]

/-- It asks for the components of a type only. -/
theorem Layout.extentLevel_consults : Consults (extentLevel p) p.componentsOf := by
  intro f g id same
  rw [extentLevel, extentLevel]
  split
  case h_4 element length found | h_5 element length found =>
    have inner := same element (p.mem_componentsOf found List.mem_cons_self)
    rw [inner]
  case h_6 fields found =>
    exact ofFields_congr (fun field mem => same field (p.mem_componentsOf found mem)) _
  all_goals rfl

/-- In an ordered pool, the layout never runs out of depth. -/
theorem Layout.extent?_ends {p : TypePool} (ordered : p.Ordered) :
    Ends (extentLevel p) p.componentsOf (extent? p) :=
  ends_of_unroll (extentLevel_consults p) ordered.smaller fun id =>
    congrFun (extentWithin_eq_unroll p (id + 1)) id

/-- One level of the stack type of a type. -/
def naturalTypeLevel (lowered : Nat → Option Code.Ty) (id : Nat) : Option Code.Ty :=
  match p.get? id with
  | some .void => some .void
  | some (.int 1) => some .bool
  | some (.int 8) => some .int8
  | some (.int 16) => some .int16
  | some (.int 32) => some .int32
  | some (.int 64) => some .int64
  | some (.int 128) => some .int128
  | some .float => some .float32
  | some .double => some .float64
  | some .ptr => some .pointer
  | some (.array element length) | some (.vector element length) =>
    (lowered element).map (.inlineArray · length)
  | some (.struct _ _) => some (.struct id)
  | some .token => some .exceptionInfo
  | some .metadata => some .object
  | some (.int _) | some (.function _ _ _) | some .label | none => none

/-- The lowering of types is such a recursion. -/
theorem naturalTypeWithin_eq_unroll (depth : Nat) :
    naturalTypeWithin p depth = unroll (naturalTypeLevel p) (fun _ => none) depth := by
  induction depth with
  | zero => rfl
  | succ depth ih =>
    rw [unroll, ← ih]
    rfl

/-- It asks for the components of a type only. -/
theorem naturalTypeLevel_consults : Consults (naturalTypeLevel p) p.componentsOf := by
  intro f g id same
  rw [naturalTypeLevel, naturalTypeLevel]
  split
  case h_11 element length found | h_12 element length found =>
    have inner := same element (p.mem_componentsOf found List.mem_cons_self)
    rw [inner]
  all_goals rfl

/-- In an ordered pool, it never runs out of depth. -/
theorem naturalType_ends {p : TypePool} (ordered : p.Ordered) :
    Ends (naturalTypeLevel p) p.componentsOf (naturalType p) :=
  ends_of_unroll (naturalTypeLevel_consults p) ordered.smaller fun id =>
    congrFun (naturalTypeWithin_eq_unroll p (id + 1)) id

/-- One level of the text of a type. -/
def Source.TypePool.renderLevel (render : Nat → String) (id : Nat) : String :=
  match p.get? id with
  | none => ""
  | some .void => "void"
  | some (.int bits) => s!"i{bits}"
  | some .float => "float"
  | some .double => "double"
  | some .ptr => "ptr"
  | some (.array element length) => s!"[{length} x " ++ render element ++ "]"
  | some (.vector element length) => s!"<{length} x " ++ render element ++ ">"
  | some (.struct (some name) _) => "%" ++ name
  | some (.struct none fields) =>
    "\x7b " ++ String.intercalate ", " (fields.map render) ++ " \x7d"
  | some (.function ret params variadic) =>
    let shown := params.map render ++ (if variadic then ["..."] else [])
    render ret ++ " (" ++ String.intercalate ", " shown ++ ")"
  | some .label => "label"
  | some .token => "token"
  | some .metadata => "metadata"

/-- The text of types is such a recursion. -/
theorem Source.TypePool.renderWithin_eq_unroll (depth : Nat) :
    p.renderWithin depth = unroll p.renderLevel (fun _ => "") depth := by
  induction depth with
  | zero => rfl
  | succ depth ih =>
    rw [unroll, ← ih]
    rfl

theorem Source.TypePool.renderLevel_consults : Consults p.renderLevel p.componentsOf := by
  intro f g id same
  rw [renderLevel, renderLevel]
  split
  case h_7 element length found | h_8 element length found =>
    have inner := same element (p.mem_componentsOf found List.mem_cons_self)
    rw [inner]
  case h_10 fields found =>
    have each : fields.map f = fields.map g :=
      List.map_congr_left fun field mem => same field (p.mem_componentsOf found mem)
    rw [each]
  case h_11 ret params variadic found =>
    have result := same ret (p.mem_componentsOf found List.mem_cons_self)
    have rest : params.map f = params.map g :=
      List.map_congr_left fun param mem => same param (p.mem_componentsOf found (.tail _ mem))
    rw [result, rest]
  all_goals rfl

/-- In an ordered pool, it never runs out of depth. -/
theorem Source.TypePool.render_ends {p : TypePool} (ordered : p.Ordered) :
    Ends p.renderLevel p.componentsOf p.render :=
  ends_of_unroll p.renderLevel_consults ordered.smaller fun id =>
    congrFun (p.renderWithin_eq_unroll (id + 1)) id

end Types

/-! ## The text of operands -/

/-- One level of the text of an operand. -/
def Source.Module.operandTextLevel (m : Module) (text : Nat → String) (id : Nat) : String :=
  match m.value? id with
  | none => ""
  | some v =>
    let listed (ids : List Nat) : String := String.intercalate ", " (ids.map text)
    m.types.render v.ty ++ " " ++
      match v.kind with
      | .int n => toString n
      | .float bits => Decimal.doubleText bits
      | .null => "null"
      | .zero => "zeroinitializer"
      | .unspecified => "undef"
      | .poison => "poison"
      | .metadata => "!\x7b\x7d"
      | .aggregate elements => "\x7b " ++ listed elements ++ " \x7d"
      | .expr opcode operands => opcode.name ++ " (" ++ listed operands ++ ")"
      | .global _ | .function _ => "@" ++ v.name.getD "?"
      | .argument _ index =>
        match v.name with
        | some name => "%" ++ name
        | none => s!"%arg{index}"
      | .instruction _ => localName v id

/-- The text of operands is such a recursion. -/
theorem Source.Module.operandTextWithin_eq_unroll (m : Module) (depth : Nat) :
    m.operandTextWithin depth = unroll m.operandTextLevel (fun _ => "") depth := by
  induction depth with
  | zero => rfl
  | succ depth ih =>
    rw [unroll, ← ih]
    rfl

theorem Source.Module.operandTextLevel_consults (m : Module) :
    Consults m.operandTextLevel m.partsOf := by
  intro f g id same
  rw [operandTextLevel, operandTextLevel]
  split
  case h_1 => rfl
  case h_2 v found =>
    rw [partsOf_eq found, Value.parts] at same
    dsimp only
    cases kind : v.kind with
    | aggregate elements | expr _ elements =>
      rw [kind] at same
      have each : elements.map f = elements.map g := List.map_congr_left same
      dsimp only
      rw [each]
    | _ => rfl

/-- In a grounded module, it never runs out of depth. -/
theorem Source.Module.operandText_ends {m : Module} (grounded : m.Grounded) :
    Ends m.operandTextLevel m.partsOf m.operandText :=
  ends_of_unroll m.operandTextLevel_consults grounded fun id =>
    congrFun (m.operandTextWithin_eq_unroll (id + 1)) id

end Stackwise
