import Stackwise.Proofs.Lowering.Packing

/-!
# A machine that knows views

A machine on which the laws of `Views` hold, so that they can be met.  Addresses name variables, a
view is known by the variable of its buffer, an argument list by that and its next slot, and a
function answers whether its last argument shows anything.  Arguments and integer constants have
values on it (`cellMachine_evaluates`).
-/

namespace Stackwise.Lowering

open Code (Instr Machine Storage)
open Source (Module)

/-- The values of a machine on which a view is known by the variable of its buffer. -/
inductive Cell where
  | blank
  | int (n : Int)
  | address (var : Nat)
  | item (var index : Nat)
  | span (var : Nat)
  | readOnly (var : Nat)
  | buffer (slots : List Cell)
  /-- An argument list, by the variable of the buffer that it goes through and its next slot. -/
  | list (var next : Nat)

namespace Cell

/-- What a buffer holds. -/
def slots : Cell → List Cell
  | buffer slots => slots
  | _ => []

/-- What a variable of a type holds when it is cleared. -/
def cleared : Option Code.Variable → Cell
  | some ⟨_, .inlineArray _ length, _, _⟩ => buffer (List.replicate length blank)
  | _ => blank

/-- What a view shows. -/
def shown (store : Nat → Cell) : Cell → List Cell
  | readOnly var => (store var).slots
  | _ => []

/-- The store with another cell for a variable. -/
def put (store : Nat → Cell) (var : Nat) (x : Cell) : Nat → Cell :=
  fun other => if other = var then x else store other

theorem put_of_ne {store : Nat → Cell} {var other : Nat} (x : Cell) (apart : other ≠ var) :
    put store var x other = store other := if_neg apart

/-- What an instruction answers.  A function answers whether its last argument shows anything. -/
def respond (final : Storage) (store : Nat → Cell) :
    Instr → (popped : List Cell) → Option (Cell × (Nat → Cell))
  | .clear var, [] => some (blank, put store var (cleared (final.get? var)))
  | .call (.helper (.inlineArrayAsSpan _)) _, [address var] => some (span var, store)
  | .call (.helper .spanGetItem) _, [int index, address var] =>
    match store var with
    | span viewed => some (item viewed index.toNat, store)
    | _ => none
  | .call (.helper .spanAsReadOnly) _, [span viewed] => some (readOnly viewed, store)
  | .call (.helper .vaStart) _, [readOnly viewed, address var] =>
    some (blank, put store var (list viewed 0))
  | .call (.helper .vaArg) _, [address var] =>
    match store var with
    | list viewed next => some (item viewed next, put store var (list viewed (next + 1)))
    | _ => none
  | .call (.function _) _, view :: _ =>
    some (int (if (shown store view).isEmpty then 0 else 1), store)
  | .leaveFrame, [] => some (blank, store)
  | _, _ => none

end Cell

/-- The machine, for a finished table. -/
def cellMachine (final : Storage) : Machine Cell (Nat → Cell) where
  read store var := store var
  write := Cell.put
  address := .address
  field _ _ := none
  fetch store _ a :=
    match a with
    | .address var => some (store var)
    | .item var index => (store var).slots[index]?
    | _ => none
  assign store _ a x :=
    match a with
    | .address var => some (Cell.put store var x)
    | .item var index => some (Cell.put store var (.buffer ((store var).slots.set index x)))
    | _ => none
  size _ := .blank
  plain i popped store :=
    (Cell.respond final store i popped).map fun p => (List.replicate i.pushes p.1, p.2)
  length_plain h := by
    obtain ⟨_, -, same⟩ := Option.map_eq_some_iff.1 h
    cases same
    exact List.length_replicate
  control i stack store :=
    match i, stack with
    | .branch label, stack => .jump label stack store
    | .branchIfTrue label, .int n :: stack =>
      if n = 0 then .next stack store else .jump label stack store
    | .phiEnqueue _, stack => .next stack store
    | _, _ => .leave none store

/-- Its values and what is observed of it. -/
def cellViewing : Viewing Cell (Nat → Cell) where
  num _ n := .int n
  inside a var := a = .address var ∨ ∃ index, a = .item var index
  slots := Cell.slots
  item := .item
  span := .span
  readOnly := .readOnly
  shows := Cell.shown

section CellMachine

variable {final : Storage}

/-- Clearing puts the value for its type in a cell. -/
theorem Cell.respond_clear {var : Nat} {popped : List Cell} {store store' : Nat → Cell} {x : Cell}
    (h : respond final store (.clear var) popped = some (x, store')) :
    store' = put store var (cleared (final.get? var)) := by
  cases popped with
  | nil =>
    cases h
    rfl
  | cons _ _ => cases h

/-- Apart from clearing, only the lists that a routine is given change. -/
theorem Cell.respond_leaves {i : Instr} (leaves : i.leavesCells = true) {popped : List Cell}
    {store store' : Nat → Cell} {x : Cell} (h : respond final store i popped = some (x, store'))
    {var : Nat} (away : i.writesList = true → ∀ a ∈ popped, a ≠ address var) :
    store' var = store var := by
  unfold respond at h
  split at h
  · cases leaves
  · cases h
    rfl
  · split at h
    · cases h
      rfl
    · cases h
  · cases h
    rfl
  · cases h
    refine put_of_ne _ ?_
    rintro rfl
    exact away rfl _ (.tail _ (.head _)) rfl
  · split at h
    · cases h
      refine put_of_ne _ ?_
      rintro rfl
      exact away rfl _ (.head _) rfl
    · cases h
  · cases leaves
  · cases leaves
  · cases h

/-- Each address of the machine leads to one variable. -/
theorem cellMachine_provenant (spared : Nat → Prop) :
    (cellMachine final).Provenant cellViewing.inside spared where
  read_write _ _ _ _ := rfl
  clear h other apart := by
    obtain ⟨⟨x, store⟩, responds, same⟩ := Option.map_eq_some_iff.1 h
    cases same
    rw [Cell.respond_clear responds]
    exact Cell.put_of_ne _ apart
  address _ := .inl rfl
  field h := by cases h
  add h := by cases h
  assign {ty a x store store' var} h inside other apart := by
    rcases inside with rfl | ⟨index, rfl⟩
    · cases h
      exact Cell.put_of_ne _ apart
    · cases h
      exact Cell.put_of_ne _ apart
  plain leaves h var _ away := by
    obtain ⟨⟨x, store⟩, responds, same⟩ := Option.map_eq_some_iff.1 h
    cases same
    exact Cell.respond_leaves leaves responds fun writes a mem same =>
      away writes a mem (.inl same)

/-- The machine knows views. -/
theorem cellMachine_views : Views (cellMachine final) cellViewing final where
  provenant := cellMachine_provenant _
  clear_buffer {var length} store h := by
    obtain ⟨access, there⟩ := h
    refine ⟨_, rfl, ?_⟩
    show (Cell.slots (Cell.put store var (Cell.cleared (final.get? var)) var)).length = length
    rw [Cell.put, if_pos rfl, there]
    exact List.length_replicate
  clear_view {var} store h := by
    obtain ⟨access, there⟩ := h
    refine ⟨_, rfl, fun later => ?_⟩
    show Cell.shown later (Cell.put store var (Cell.cleared (final.get? var)) var) = []
    rw [Cell.put, if_pos rfl, there]
    rfl
  asSpan _ := rfl
  getItem {span buffer index store} isSpan _ := by
    have isSpan : store span = .span buffer := isSpan
    show (Cell.respond final store (routineCall .spanGetItem) [.int index, .address span]).map _ = _
    rw [routineCall, Cell.respond, isSpan]
    rfl
  inside_item _ index := .inr ⟨index, rfl⟩
  assign {buffer index store} x _ := by
    refine ⟨_, rfl, ?_⟩
    show Cell.slots (Cell.put store buffer _ buffer) = _
    rw [Cell.put, if_pos rfl]
    rfl
  asReadOnly _ _ := rfl
  shows_readOnly _ _ := rfl

end CellMachine

/-- What the cells hold at the start: arguments and integer constants are in their places. -/
def startCells (args : Nat → Int) (final : Storage) : Nat → Cell := fun var =>
  match final.get? var with
  | some ⟨.parameter index, _, _, _⟩ => .int (args index)
  | some ⟨.constant (.i4 k), _, _, _⟩ | some ⟨.constant (.i8 k), _, _, _⟩ => .int k
  | _ => .blank

/-- The store differs from the start in temporaries only. -/
def Untouched (args : Nat → Int) (final : Storage) (store : Nat → Cell) : Prop :=
  ∀ var, ¬ IsTemporary final var → store var = startCells args final var

/-- The number that an argument or an integer constant stands for. -/
def numeral? (m : Module) (args : Nat → Int) (value : Nat) : Option Int :=
  (m.value? value).bind fun v =>
    match v.kind with
    | .argument _ index => some (args index)
    | .int n => if m.types.intBits? v.ty = some 32 ∧ Word.isSigned 32 n = true then some n else none
    | _ => none

/-- The value of an operand. -/
def cellOf (m : Module) (args : Nat → Int) (value : Nat) : Cell :=
  .int ((numeral? m args value).getD 0)

section CellValues

variable {c : Context} {args : Nat → Int} {final : Storage} {store : Nat → Cell}

/-- A variable with a place of its own is no temporary. -/
theorem Untouched.read_eq (h : Untouched args final store) {var : Nat} {v : Code.Variable}
    (there : final.get? var = some v) (place : v.place ≠ .slot) :
    store var = startCells args final var := by
  refine h var ?_
  rintro ⟨ty, access, there'⟩
  cases there.symm.trans there'
  exact place rfl

theorem Untouched.holdsNumbers (h : Untouched args final store) :
    HoldsNumbers (cellMachine final) cellViewing.num final store := by
  constructor
  all_goals
    intro var v k there place
    refine (h.read_eq there (by rw [place]; nofun)).trans ?_
    obtain ⟨_, ty, access, origin⟩ := v
    cases place
    rw [startCells, there]
    rfl

theorem Untouched.read_parameter (h : Untouched args final store) {var index : Nat}
    {v : Code.Variable} (there : final.get? var = some v) (place : v.place = .parameter index) :
    store var = .int (args index) := by
  refine (h.read_eq there (by rw [place]; nofun)).trans ?_
  obtain ⟨_, ty, access, origin⟩ := v
  cases place
  rw [startCells, there]

/-- Pushing an argument or an integer constant loads a variable that holds its number. -/
theorem PushCode.loads_numeral {value : Nat} {code : List Instr} (h : PushCode c final value code)
    {n : Int} (numeral : numeral? c.module args value = some n) :
    ∃ var, code = [.load var] ∧ ∀ store, Untouched args final store → store var = .int n := by
  obtain ⟨v, found, numeral⟩ := Option.bind_eq_some_iff.1 numeral
  split at numeral
  · rename_i kind
    cases numeral
    obtain ⟨var, w, load, there, place⟩ := h.argument found kind
    exact ⟨var, load, fun store fine => fine.read_parameter there place⟩
  · rename_i kind
    split at numeral
    · rename_i small
      cases numeral
      obtain ⟨var, ty, load, isLiteral⟩ := h.int found kind small.1 (by decide)
      exact ⟨var, load, fun store fine =>
        fine.holdsNumbers.read_literal (by decide) small.2 isLiteral⟩
    · cases numeral
  · cases numeral

/-- Arguments and numbers have values on it, as long as their cells are untouched. -/
theorem cellMachine_evaluates {operands : List Nat}
    (simple : ∀ a ∈ operands, (numeral? c.module args a).isSome = true) :
    Evaluates (cellMachine final) cellViewing c final (Untouched args final)
      (cellOf c.module args) operands where
  pushes {a code} stack {store} mem pushed fine := by
    obtain ⟨n, numeral⟩ := Option.isSome_iff_exists.1 (simple a mem)
    obtain ⟨var, rfl, holds⟩ := pushed.loads_numeral numeral
    have led := Machine.leads_load (μ := cellMachine final) var stack store
    have read : (cellMachine final).read store var = cellOf c.module args a := by
      rw [cellOf, numeral]
      exact holds store fine
    rw [read] at led
    exact ⟨store, led, fine⟩
  unlisted {a code} stack {store} mem pushed fine var _ := by
    obtain ⟨n, numeral⟩ := Option.isSome_iff_exists.1 (simple a mem)
    obtain ⟨loaded, rfl, -⟩ := pushed.loads_numeral numeral
    rintro ⟨before, i, after, stack', store', same, writes, -⟩
    have here : i ∈ [Instr.load loaded] := by
      rw [same]
      exact List.mem_append_right _ List.mem_cons_self
    cases List.mem_singleton.1 here
    cases writes
  temporary fine same var lasting := (same var lasting).trans (fine var lasting)
  holds fine := fine.holdsNumbers

theorem untouched_startCells : Untouched args final (startCells args final) := fun _ _ => rfl

end CellValues

end Stackwise.Lowering
