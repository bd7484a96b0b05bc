import Stackwise.Proofs.Lowering.Switches

/-!
# Packing arguments

The trailing arguments of a variadic call are packed: each is stored in a variable of its own, and a
view on a buffer holds the addresses of these variables.  On a machine that knows views (`Views`)
the pack shows just these addresses, and the variables hold the arguments, however the arguments are
computed (`PackCode.runs`).

In between, code for values that are packed later runs, and it has variables as well.  That nothing
is overwritten rests on their numbers: the code for a value writes to no variable that is older than
the code itself (`push_contained`).

* `PackCode` is the code of a pack, with `StoreCode` for its arguments and `FillCode` for the
  addresses; `packArguments_lays` says that this is what is written.
* `Evaluates` says what it means for operands to have values.
* `Packs` says of a value that it is a view of arguments.
-/

namespace Stackwise.Lowering

open Code (Helper Instr Machine Storage)

/-! ## Temporaries -/

/-- The variable is a slot of a type, made for no value of the source. -/
def TemporaryOf (s : Storage) (ty : Code.Ty) (var : Nat) : Prop :=
  ∃ access, s.get? var = some ⟨.slot, ty, access, none⟩

/-- The variable is a slot that was made for no value of the source. -/
def IsTemporary (s : Storage) (var : Nat) : Prop := ∃ ty, TemporaryOf s ty var

/-- A temporary is not the slot of the exception in flight. -/
theorem IsTemporary.ne {s : Storage} {var other : Nat} (h : IsTemporary s var)
    (inFlight : HasPlace s .exceptionSlot other) : other ≠ var := by
  rintro rfl
  obtain ⟨ty, access, there⟩ := h
  obtain ⟨v, there', place⟩ := inFlight
  cases there.symm.trans there'
  cases place

/-- Temporaries stay temporaries. -/
theorem TemporaryOf.grows {m : Source.Module} {s s' : Storage} {ty : Code.Ty} {var : Nat}
    (h : TemporaryOf s ty var) (grown : s.Grows m s') : TemporaryOf s' ty var := by
  obtain ⟨access, there⟩ := h
  exact ⟨access, grown.get?_eq_some there⟩

theorem TemporaryOf.lt {s : Storage} {ty : Code.Ty} {var : Nat} (h : TemporaryOf s ty var) :
    var < s.size := by
  obtain ⟨access, there⟩ := h
  exact (Array.getElem?_eq_some_iff.1 there).1

/-! ## The code of a pack -/

/-- The code for a value, which writes only to variables from `floor` on. -/
structure PushedFrom (c : Context) (final : Storage) (floor value : Nat) (code : List Instr) :
    Prop where
  isPush : PushCode c final value code
  contained : Code.Contained (Own floor final) [] code [none]

/-- The call of a support routine. -/
def routineCall (routine : Helper) : Instr := .call (.helper routine) routine.signature

/-- Code that stores arguments into slots of their own, with the sizes of the table before and
behind it. -/
inductive StoreCode (c : Context) (final : Storage) :
    (floor : Nat) → (args slots : List Nat) → List Instr → (top : Nat) → Prop
  | nil {floor : Nat} : StoreCode c final floor [] [] [] floor
  | cons {floor slot next top arg : Nat} {args slots : List Nat} {code rest : List Instr}
      (new : floor ≤ slot) (temporary : IsTemporary final slot)
      (pushed : PushedFrom c final (slot + 1) arg code) (above : slot < next)
      (later : StoreCode c final next args slots rest top) :
    StoreCode c final floor (arg :: args) (slot :: slots) (code ++ .store slot :: rest) top

/-- Code that writes the addresses of slots through the view in `span`, from an index on. -/
inductive FillCode (final : Storage) (span : Nat) : (index : Nat) → List Nat → List Instr → Prop
  | nil {index : Nat} : FillCode final span index [] []
  | cons {index slot var : Nat} {slots : List Nat} {rest : List Instr}
      (isIndex : IsConstant final (.i4 index) .int32 var)
      (later : FillCode final span (index + 1) slots rest) :
    FillCode final span index (slot :: slots)
      (.addressOf span :: .load var :: routineCall .spanGetItem :: .addressOf slot ::
        .storeIndirect .nativeInt :: rest)

/-- The code of a pack, which is left in a variable. -/
inductive PackCode (c : Context) (final : Storage) (floor : Nat) :
    (args : List Nat) → (pack : Nat) → List Instr → (top : Nat) → Prop
  | empty {pack top : Nat} (new : floor ≤ pack) (packed : TemporaryOf final .readOnlySpan pack)
      (below : pack < top) : PackCode c final floor [] pack [.clear pack] top
  | full {buffer span pack next middle top : Nat} {args slots : List Nat}
      {stored filled : List Instr}
      (new : floor ≤ buffer)
      (buffered : TemporaryOf final (.inlineArray .nativeInt args.length) buffer)
      (before : buffer < span) (spanned : TemporaryOf final .span span) (before' : span < pack)
      (packed : TemporaryOf final .readOnlySpan pack) (above : pack < next)
      (stores : StoreCode c final next args slots stored middle) (below : middle ≤ top)
      (fills : FillCode final span 0 slots filled) :
    PackCode c final floor args pack
      (.clear buffer :: (stored ++ .addressOf buffer ::
        routineCall (.inlineArrayAsSpan args.length) :: .store span ::
        (filled ++ [.load span, routineCall .spanAsReadOnly, .store pack]))) top

namespace StoreCode

variable {c : Context} {final : Storage} {floor top : Nat} {args slots : List Nat}
  {code : List Instr}

/-- The table does not get smaller while arguments are stored. -/
theorem le (h : StoreCode c final floor args slots code top) : floor ≤ top := by
  induction h with
  | nil => exact Nat.le_refl _
  | cons new _ _ above _ ih => omega

/-- The slots of the arguments are temporaries that are made meanwhile. -/
theorem mem_slots (h : StoreCode c final floor args slots code top) :
    ∀ slot ∈ slots, floor ≤ slot ∧ slot < top ∧ IsTemporary final slot := by
  induction h with
  | nil => exact List.forall_mem_nil _
  | cons new temporary _ above later ih =>
    have below := later.le
    refine List.forall_mem_cons.2 ⟨⟨new, by omega, temporary⟩, fun slot mem => ?_⟩
    obtain ⟨newer, inside, temporary⟩ := ih slot mem
    exact ⟨by omega, inside, temporary⟩

/-- Each argument has a slot of its own. -/
theorem nodup (h : StoreCode c final floor args slots code top) : slots.Nodup := by
  induction h with
  | nil => exact List.nodup_nil
  | cons _ _ _ above later ih =>
    refine List.nodup_cons.2 ⟨fun mem => ?_, ih⟩
    have newer := (later.mem_slots _ mem).1
    omega

end StoreCode

/-- A pack is left in a temporary. -/
theorem PackCode.isTemporary {c : Context} {final : Storage} {floor pack top : Nat}
    {args : List Nat} {code : List Instr} (h : PackCode c final floor args pack code top) :
    IsTemporary final pack ∧ pack < top := by
  cases h with
  | empty _ packed below => exact ⟨⟨_, packed⟩, below⟩
  | full _ _ _ _ _ packed above stores below =>
    have beyond := stores.le
    exact ⟨⟨_, packed⟩, by omega⟩

/-! ## What packing writes -/

namespace Emit

variable {α β : Type} {c : Context} {s : Ledger}

/-- A step that makes no variable for an instruction; the property is about the finished table, the
step's value, the size of the table that it leaves, and its code. -/
def Lays (c : Context) (s : Ledger) (step : Emit α)
    (Q : Storage → α → (top : Nat) → List Instr → Prop) : Prop :=
  Ensures c s step fun e => s.Grows c.module e.storage ∧
    ∀ final, e.storage.Grows c.module final → Q final e.value e.storage.size e.code

theorem Lays.writes {step : Emit α} {Q : Storage → List Instr → Prop}
    (h : Lays c s step fun final _ _ code => Q final code) : Writes c s step Q := h

theorem Lays.imp {step : Emit α} {Q R : Storage → α → Nat → List Instr → Prop}
    (h : Lays c s step Q) (imp : ∀ final a top code, Q final a top code → R final a top code) :
    Lays c s step R :=
  Ensures.imp h fun _ ⟨grown, holds⟩ => ⟨grown, fun final later => imp _ _ _ _ (holds final later)⟩

theorem Lays.pure {Q : Storage → α → Nat → List Instr → Prop} {a : α}
    (h : ∀ final, s.Grows c.module final → Q final a s.size []) :
    Lays c s (pure a : Emit α) Q :=
  Ensures.pure ⟨.refl _ _, h⟩

/-- Steps can be chained; the size of the table between them is known to both. -/
theorem Lays.bind {x : Emit α} {f : α → Emit β} {P : Storage → α → Nat → List Instr → Prop}
    {Q : Storage → β → Nat → List Instr → Prop} (first : Lays c s x P)
    (second : ∀ a (s' : Ledger) code, s.Grows c.module s' → Lays c s' (f a) fun final b top code' =>
      P final a s'.size code → Q final b top (code ++ code')) : Lays c s (x >>= f) Q := by
  refine Ensures.bind first fun e ⟨grown, holds⟩ => ?_
  refine Ensures.imp (second e.value e.storage e.code grown) fun e' ⟨grown', holds'⟩ => ?_
  refine ⟨grown.trans grown', fun final later => ?_⟩
  exact holds' final later (holds final (grown'.trans later))

/-- A step of which only the code matters. -/
theorem Lays.after {x : Emit α} {f : α → Emit β} {P : Storage → List Instr → Prop}
    {Q : Storage → β → Nat → List Instr → Prop} (first : Writes c s x P)
    (second : ∀ a (s' : Ledger) code, s.Grows c.module s' → Lays c s' (f a) fun final b top code' =>
      P final code → Q final b top (code ++ code')) : Lays c s (x >>= f) Q :=
  Lays.bind (P := fun final _ _ code => P final code) first second

/-- Behind a step that only looks something up, code and table are the same as before it. -/
theorem Lays.read {x : Emit α} {f : α → Emit β} {P : α → Prop}
    {Q : Storage → β → Nat → List Instr → Prop} (first : Reads c s x P)
    (second : ∀ a, P a → Lays c s (f a) Q) : Lays c s (x >>= f) Q :=
  Ensures.read first second

/-- Instructions at the beginning. -/
theorem Lays.code {instrs : List Instr} {f : Unit → Emit β}
    {Q : Storage → β → Nat → List Instr → Prop}
    (second : Lays c s (f ()) fun final b top code => Q final b top (instrs ++ code)) :
    Lays c s (Emit.code instrs >>= f) Q := by
  refine Ensures.bind (P := fun e => e.code = instrs ∧ e.storage = s) ?_ ?_
  · intro spot e run
    cases run
    exact ⟨rfl, rfl⟩
  · rintro ⟨_, _, _⟩ ⟨rfl, rfl⟩
    exact second

/-- An instruction is written in front of the code of the rest. -/
theorem Lays.instr {i : Instr} {f : Unit → Emit β} {Q : Storage → β → Nat → List Instr → Prop}
    (second : Lays c s (f ()) fun final b top code => Q final b top (i :: code)) :
    Lays c s (Emit.instr i >>= f) Q :=
  Lays.code second

/-- A temporary at the beginning. -/
theorem Lays.temporary {ty : Code.Ty} {access : Code.Access} {add : Ledger → Nat × Ledger}
    {f : Nat → Emit β} {Q : Storage → β → Nat → List Instr → Prop}
    (number : (add s).1 = s.size)
    (adds : (add s).2.toStorage = (s.toStorage.push ⟨.slot, ty, access, none⟩).2)
    (furnished : access = Code.Place.access .slot ∨ access = .pinned)
    (later : ∀ s' : Ledger, s.Grows c.module s' → TemporaryOf s' ty s.size →
      Lays c s' (f s.size) Q) : Lays c s (fresh add >>= f) Q := by
  have incidental : Code.Variable.Incidental c.module ⟨.slot, ty, access, none⟩ :=
    ⟨nofun, furnished.imp_right fun pinned => ⟨rfl, pinned⟩, rfl⟩
  refine Ensures.bind (fresh_ensures number adds incidental) ?_
  rintro e ⟨nothing, new, grown, there⟩
  rw [nothing, new]
  refine Ensures.imp (later e.storage grown ⟨access, there⟩) fun e' ⟨grown', holds⟩ => ?_
  exact ⟨grown.trans grown', holds⟩

end Emit

section Writing

open Emit (Lays Writes)

variable {c : Context}

/-- Pushing a value writes only to variables made meanwhile. -/
theorem push_writes_pushedFrom {s : Ledger} {floor : Nat} (reached : floor ≤ s.size)
    (value : Nat) : Writes c s (push value) (PushedFrom c · floor value) := by
  intro spot e run
  obtain ⟨grown, contained⟩ := push_contained value s [] reached run
  refine ⟨grown, fun final later => ⟨⟨spot, s, e, run, rfl, later⟩, ?_⟩⟩
  exact contained.mono fun _ own => own.grows later

/-- Storing arguments writes the code for it, in slots of their own. -/
theorem storeArguments_lays (s : Ledger) (origin : Nat) (args : List Nat) :
    Lays c s (storeArguments origin args) fun final slots top code =>
      StoreCode c final s.size args slots code top := by
  induction args generalizing s with
  | nil => exact Lays.pure fun _ _ => .nil
  | cons arg rest ih =>
    refine .read (Emit.typeOf_reads _) fun sourceTy _ => ?_
    refine .read (Emit.lowerType_reads _ _ _) fun ty _ => ?_
    refine Lays.temporary rfl rfl (.inr rfl) fun s₁ grown temporary => ?_
    have reached : s.size + 1 ≤ s₁.size := temporary.lt
    refine Lays.after (push_writes_pushedFrom reached arg) fun _ s₂ code grown₂ => Lays.instr ?_
    refine Lays.bind (ih s₂) fun slots s₃ codes grown₃ => Lays.pure ?_
    intro final later stores pushed
    rw [List.append_nil]
    have temporary := temporary.grows ((grown₂.trans grown₃).trans later)
    have above : s.size < s₂.size := Nat.lt_of_lt_of_le reached grown₂.size_le
    exact .cons (Nat.le_refl _) ⟨ty, temporary⟩ pushed above stores

/-- Storing the addresses of slots writes the code for it. -/
theorem storeAddresses_lays (s : Ledger) (span index : Nat) (slots : List Nat) :
    Lays c s (storeAddresses span index slots) fun final _ _ code =>
      FillCode final span index slots code := by
  induction slots generalizing s index with
  | nil => exact Lays.pure fun _ _ => .nil
  | cons slot rest ih =>
    refine Lays.instr (Lays.after (constant_loads s (.i4 index) .int32) fun _ s₁ code _ => ?_)
    refine Lays.instr (Lays.code ((ih s₁ (index + 1)).imp ?_))
    rintro final _ top rest fills ⟨var, rfl, isIndex⟩
    exact .cons isIndex fills

/-- Packing arguments writes the code of a pack. -/
theorem packArguments_lays (s : Ledger) (args : List Nat) (origin : Nat) :
    Lays c s (packArguments args origin) fun final pack top code =>
      PackCode c final s.size args pack code top := by
  unfold packArguments
  split
  · refine Lays.temporary rfl rfl (.inl rfl) fun s₁ grown packed => Lays.instr (Lays.pure ?_)
    exact fun final later => .empty (Nat.le_refl _) (packed.grows later) packed.lt
  · refine Lays.temporary rfl rfl (.inr rfl) fun s₁ grown₁ buffered => ?_
    refine Lays.temporary rfl rfl (.inl rfl) fun s₂ grown₂ spanned => ?_
    refine Lays.temporary rfl rfl (.inl rfl) fun s₃ grown₃ packed => Lays.instr ?_
    refine Lays.bind (storeArguments_lays s₃ origin _) fun slots s₄ stored grown₄ => ?_
    refine Lays.instr (Lays.instr (Lays.instr ?_))
    refine Lays.bind (storeAddresses_lays s₄ s₁.size 0 slots) fun _ s₅ filled grown₅ => ?_
    refine Lays.instr (Lays.instr (Lays.instr (Lays.pure fun final later fills stores => ?_)))
    have grown := (grown₄.trans grown₅).trans later
    refine .full (Nat.le_refl _) (buffered.grows ((grown₂.trans grown₃).trans grown)) buffered.lt
      (spanned.grows (grown₃.trans grown)) spanned.lt (packed.grows grown) packed.lt stores ?_ fills
    exact grown₅.size_le

end Writing

/-! ## Machines that know views -/

section Semantics

variable {V S : Type}

/-- The values and the observations of a machine that knows views on buffers. -/
structure Viewing (V S : Type) where
  /-- The value for an integer of a width. -/
  num : Nat → Int → V
  /-- Whether an address leads into a variable. -/
  inside : (address : V) → (var : Nat) → Prop
  /-- What a buffer holds, slot by slot. -/
  slots : (buffer : V) → List V
  /-- The address of a slot in the buffer of a variable. -/
  item : (var index : Nat) → V
  /-- The view on the buffer of a variable, and the read-only one. -/
  span : (var : Nat) → V
  readOnly : (var : Nat) → V
  /-- What a read-only view shows. -/
  shows : S → (view : V) → List V

/-- What is asked of a machine that knows views.  Addresses lead to one variable, and support
routines write neither to temporaries nor to the slot of the exception in flight, unless they are
given the address of one as that of an argument list. -/
structure Views (μ : Machine V S) (Ω : Viewing V S) (final : Storage) : Prop where
  provenant : μ.Provenant Ω.inside fun var =>
    IsTemporary final var ∨ HasPlace final .exceptionSlot var
  clear_buffer : ∀ {var length : Nat} (store : S),
    TemporaryOf final (.inlineArray .nativeInt length) var →
    ∃ store', μ.plain (.clear var) [] store = some ([], store') ∧
      (Ω.slots (μ.read store' var)).length = length
  /-- A view that is cleared is empty. -/
  clear_view : ∀ {var : Nat} (store : S), TemporaryOf final .readOnlySpan var →
    ∃ store', μ.plain (.clear var) [] store = some ([], store') ∧
      ∀ later, Ω.shows later (μ.read store' var) = []
  asSpan : ∀ {buffer length : Nat} {store : S},
    (Ω.slots (μ.read store buffer)).length = length →
    μ.plain (routineCall (.inlineArrayAsSpan length)) [μ.address buffer] store =
      some ([Ω.span buffer], store)
  getItem : ∀ {span buffer index : Nat} {store : S}, μ.read store span = Ω.span buffer →
    index < (Ω.slots (μ.read store buffer)).length →
    μ.plain (routineCall .spanGetItem) [Ω.num 32 index, μ.address span] store =
      some ([Ω.item buffer index], store)
  inside_item : ∀ buffer index, Ω.inside (Ω.item buffer index) buffer
  assign : ∀ {buffer index : Nat} {store : S} (x : V),
    index < (Ω.slots (μ.read store buffer)).length →
    ∃ store', μ.assign store .nativeInt (Ω.item buffer index) x = some store' ∧
      Ω.slots (μ.read store' buffer) = (Ω.slots (μ.read store buffer)).set index x
  asReadOnly : ∀ buffer store, μ.plain (routineCall .spanAsReadOnly) [Ω.span buffer] store =
    some ([Ω.readOnly buffer], store)
  shows_readOnly : ∀ store buffer, Ω.shows store (Ω.readOnly buffer) = Ω.slots (μ.read store buffer)

/-- Operands have values, as long as the store is `good`: pushing an operand gives its value, and
neither this nor a change to temporaries makes the store bad.  No operand has guessed the address of
a temporary, or of the slot of the exception in flight, and takes it for that of an argument list.
-/
structure Evaluates (μ : Machine V S) (Ω : Viewing V S) (c : Context) (final : Storage)
    (good : S → Prop) (value : Nat → V) (operands : List Nat) : Prop where
  pushes : ∀ {a : Nat} {code : List Instr} (stack : List V) {store : S}, a ∈ operands →
    PushCode c final a code → good store →
    ∃ store', μ.Leads code stack store (value a :: stack) store' ∧ good store'
  unlisted : ∀ {a : Nat} {code : List Instr} (stack : List V) {store : S}, a ∈ operands →
    PushCode c final a code → good store →
    ∀ var, IsTemporary final var ∨ HasPlace final .exceptionSlot var →
      ¬ μ.Advances Ω.inside code stack store var
  temporary : ∀ {store store' : S}, good store →
    (∀ var, ¬ IsTemporary final var → μ.read store' var = μ.read store var) → good store'
  holds : ∀ {store : S}, good store → HoldsNumbers μ Ω.num final store

/-- The value is a view of arguments: its slots hold the addresses of variables, one for each
argument, which are as new as `floor` says and hold the arguments. -/
def Packs (μ : Machine V S) (Ω : Viewing V S) (floor : Nat) (value : Nat → V) (args : List Nat)
    (store : S) (view : V) : Prop :=
  ∃ slots : List Nat, Ω.shows store view = slots.map μ.address ∧
    slots.map (μ.read store) = args.map value ∧ slots.Nodup ∧ ∀ slot ∈ slots, floor ≤ slot

/-- The temporaries below a number hold the same in two stores. -/
def SameBelow (μ : Machine V S) (final : Storage) (floor : Nat) (store store' : S) : Prop :=
  ∀ var, var < floor → IsTemporary final var → μ.read store' var = μ.read store var

variable {μ : Machine V S} {Ω : Viewing V S} {c : Context} {final : Storage} {good : S → Prop}
  {value : Nat → V} {operands : List Nat}

theorem SameBelow.trans {floor : Nat} {first second third : S}
    (h : SameBelow μ final floor first second) (h' : SameBelow μ final floor second third) :
    SameBelow μ final floor first third :=
  fun var old temporary => (h' var old temporary).trans (h var old temporary)

/-- Slots that are as new as one number are as new as any smaller one. -/
theorem Packs.mono {floor floor' : Nat} {args : List Nat} {store : S} {view : V}
    (h : Packs μ Ω floor value args store view) (less : floor' ≤ floor) :
    Packs μ Ω floor' value args store view := by
  obtain ⟨slots, shown, values, nodup, new⟩ := h
  exact ⟨slots, shown, values, nodup, fun slot mem => Nat.le_trans less (new slot mem)⟩

section Running

/-- A store that differs in one temporary only is still good. -/
theorem Evaluates.changed (eval : Evaluates μ Ω c final good value operands) {var : Nat}
    (temporary : IsTemporary final var) {store store' : S}
    (fine : good store) (same : ∀ other, other ≠ var → μ.read store' other = μ.read store other) :
    good store' := by
  refine eval.temporary fine fun other lasting => same other ?_
  rintro rfl
  exact lasting temporary

/-- A support routine that only computes. -/
theorem strides_routine {kept : Nat → Prop} {routine : Helper} (popped : List V) {result : V}
    {store : S} (height : popped.length = routine.signature.params.length)
    (answered : μ.plain (routineCall routine) popped store = some ([result], store))
    (stack : List V) :
    μ.Strides kept [routineCall routine] (popped ++ stack) store (result :: stack) store :=
  Machine.Strides.act (routineCall routine) popped [result] rfl height answered (fun _ _ => rfl)
    stack

variable (laws : Views μ Ω final)

include laws

/-- Clearing a temporary does not change the slot of the exception in flight. -/
theorem Views.strides_clear {var : Nat} (temporary : IsTemporary final var) {store store' : S}
    (cleared : μ.plain (.clear var) [] store = some ([], store')) (stack : List V) :
    μ.Strides (HasPlace final .exceptionSlot) [.clear var] stack store stack store' :=
  Machine.Strides.act (.clear var) [] [] rfl rfl cleared
    (fun other inFlight => laws.provenant.clear cleared other (temporary.ne inFlight)) stack

theorem Views.strides_store {var : Nat} (temporary : IsTemporary final var) (x : V)
    (stack : List V) (store : S) :
    μ.Strides (HasPlace final .exceptionSlot) [.store var] (x :: stack) store stack
      (μ.write store var x) :=
  laws.provenant.strides_store (fun _ => temporary.ne) _ _ _

/-- A variable holds what was written to it. -/
theorem Views.read_write {store : S} (var : Nat) (x : V) :
    μ.read (μ.write store var x) var = x := by
  rw [laws.provenant.read_write, if_pos rfl]

/-- Writing to one variable changes no other. -/
theorem Views.read_write_of_ne {store : S} {var other : Nat} (apart : other ≠ var) (x : V) :
    μ.read (μ.write store var x) other = μ.read store other := by
  rw [laws.provenant.read_write, if_neg apart]

variable (eval : Evaluates μ Ω c final good value operands)

include eval

/-- Writing to a temporary does not make the store bad. -/
theorem Evaluates.written {var : Nat} (temporary : IsTemporary final var) {store : S}
    (fine : good store) (x : V) : good (μ.write store var x) := by
  exact eval.changed temporary fine fun other apart => laws.read_write_of_ne apart x

/-- Pushing an operand gives its value, and changes no temporary made before it. -/
theorem Evaluates.push {a floor : Nat} {code : List Instr} (known : a ∈ operands)
    (pushed : PushedFrom c final floor a code) (stack : List V) {store : S} (fine : good store) :
    ∃ store', μ.Strides (HasPlace final .exceptionSlot) code stack store (value a :: stack) store' ∧
      good store' ∧ SameBelow μ final floor store store' := by
  obtain ⟨store', led, fine'⟩ := eval.pushes stack known pushed.isPush fine
  have strides := laws.provenant.strides pushed.contained led
  have foreign (var : Nat) (inFlight : HasPlace final .exceptionSlot var) :
      ¬ Own floor final var := by
    rintro ⟨-, v, there, slot⟩
    obtain ⟨w, there', place⟩ := inFlight
    cases there.symm.trans there'
    cases slot.symm.trans place
  have unlisted := eval.unlisted stack known pushed.isPush fine
  refine ⟨store', strides.mono fun var inFlight => ?_, fine', fun var old temporary => ?_⟩
  · exact ⟨⟨.inr inFlight, foreign var inFlight⟩, unlisted var (.inr inFlight)⟩
  · refine strides.read_eq ⟨⟨.inl temporary, fun own => ?_⟩, unlisted var (.inl temporary)⟩
    exact absurd own.1 (Nat.not_le_of_lt old)

/-- Storing arguments gives each slot its argument. -/
theorem StoreCode.runs {floor top : Nat} {args slots : List Nat} {code : List Instr}
    (h : StoreCode c final floor args slots code top) (known : ∀ a ∈ args, a ∈ operands)
    (stack : List V) {store : S} (fine : good store) :
    ∃ store', μ.Strides (HasPlace final .exceptionSlot) code stack store stack store' ∧
      good store' ∧ slots.map (μ.read store') = args.map value ∧
      SameBelow μ final floor store store' := by
  induction h generalizing store with
  | nil => exact ⟨store, .nil, fine, rfl, fun _ _ _ => rfl⟩
  | @cons floor slot next top arg args slots code rest new temporary pushed above later ih =>
    obtain ⟨here, others⟩ := List.forall_mem_cons.1 known
    obtain ⟨store₁, strides, fine₁, same⟩ := eval.push laws here pushed stack fine
    have fine₂ := eval.written laws temporary fine₁ (value arg)
    obtain ⟨store₃, strides', fine₃, holds, same'⟩ := ih others fine₂
    have stored := laws.strides_store temporary (value arg) stack store₁
    refine ⟨store₃, strides.append (stored.append strides'), fine₃, ?_, ?_⟩
    · rw [List.map_cons, List.map_cons, holds, same' slot above temporary, laws.read_write]
    · intro var old isTemporary
      rw [same' var (by omega) isTemporary, laws.read_write_of_ne (by omega),
        same var (by omega) isTemporary]

/-- Filling writes the addresses behind those that the buffer has already. -/
theorem FillCode.runs {span index buffer : Nat} {slots : List Nat} {code : List Instr}
    (h : FillCode final span index slots code) (buffered : IsTemporary final buffer)
    (apart : span ≠ buffer) {front rest : List V} {store : S} (fine : good store)
    (isSpan : μ.read store span = Ω.span buffer)
    (holds : Ω.slots (μ.read store buffer) = front ++ rest) (reached : front.length = index)
    (room : rest.length = slots.length) (stack : List V) :
    ∃ store', μ.Strides (HasPlace final .exceptionSlot) code stack store stack store' ∧
      good store' ∧ Ω.slots (μ.read store' buffer) = front ++ slots.map μ.address ∧
      ∀ var, var ≠ buffer → μ.read store' var = μ.read store var := by
  induction h generalizing front rest store with
  | nil =>
    cases List.eq_nil_of_length_eq_zero room
    exact ⟨store, .nil, fine, holds, fun _ _ => rfl⟩
  | @cons index slot var slots codes isIndex later ih =>
    cases rest with
    | nil => cases room
    | cons x rest =>
      obtain ⟨v, there, place, -⟩ := isIndex
      have inside : index < (Ω.slots (μ.read store buffer)).length := by
        rw [holds, List.length_append, List.length_cons]
        omega
      obtain ⟨store₁, assigned, filled⟩ := laws.assign (μ.address slot) inside
      have same := laws.provenant.assign assigned (laws.inside_item buffer index)
      have fine₁ := eval.changed buffered fine same
      have filled' : Ω.slots (μ.read store₁ buffer) = (front ++ [μ.address slot]) ++ rest := by
        rw [filled, holds, ← reached, List.set_append_right _ _ (Nat.le_refl _), Nat.sub_self,
          List.set_cons_zero, List.append_assoc]
        rfl
      obtain ⟨store', strides, fine', holds', same'⟩ := ih fine₁
        (by rw [same span apart, isSpan]) filled' (by rw [List.length_append, reached]; rfl)
        (Nat.succ.inj room)
      refine ⟨store', ?_, fine', ?_, fun var other => ?_⟩
      · have indexed : μ.Strides (HasPlace final .exceptionSlot) [.load var]
            (μ.address span :: stack) store (Ω.num 32 index :: μ.address span :: stack) store := by
          rw [← (eval.holds fine).narrow there place]
          exact .load _ _ _
        have found : μ.Strides (HasPlace final .exceptionSlot) [routineCall .spanGetItem]
            (Ω.num 32 index :: μ.address span :: stack) store (Ω.item buffer index :: stack)
            store :=
          strides_routine [Ω.num 32 index, μ.address span] rfl (laws.getItem isSpan inside) stack
        have stored : μ.Strides (HasPlace final .exceptionSlot) [.storeIndirect .nativeInt]
            (μ.address slot :: Ω.item buffer index :: stack) store stack store₁ :=
          Machine.Strides.act (.storeIndirect .nativeInt) [μ.address slot, Ω.item buffer index] []
            rfl rfl (congrArg (Option.map fun store => ([], store)) assigned)
            (fun other inFlight => same other (buffered.ne inFlight)) stack
        exact (Machine.Strides.addressOf span stack store).append (indexed.append (found.append
          ((Machine.Strides.addressOf slot _ store).append (stored.append strides))))
      · rw [holds', List.append_assoc]
        rfl
      · rw [same' var other, same var other]

/-- The code of a pack leaves a view of the arguments in its variable, and it stays one as long as
the temporaries up to there are left alone. -/
theorem PackCode.runs {floor pack top : Nat} {args : List Nat} {code : List Instr}
    (h : PackCode c final floor args pack code top) (known : ∀ a ∈ args, a ∈ operands)
    (stack : List V) {store : S} (fine : good store) :
    ∃ store', μ.Strides (HasPlace final .exceptionSlot) code stack store stack store' ∧
      good store' ∧ ∀ later, SameBelow μ final top store' later →
        Packs μ Ω floor value args later (μ.read later pack) := by
  cases h with
  | empty new packed below =>
    obtain ⟨store', cleared, shown⟩ := laws.clear_view store packed
    have isPack : IsTemporary final pack := ⟨_, packed⟩
    refine ⟨store', laws.strides_clear isPack cleared stack,
      eval.changed isPack fine (laws.provenant.clear cleared), fun later unchanged => ⟨[], ?_⟩⟩
    rw [unchanged pack below isPack]
    exact ⟨shown later, rfl, List.nodup_nil, List.forall_mem_nil _⟩
  | @full buffer span _ next middle _ _ slots stored filled new buffered before spanned before'
      packed above stores below fills =>
    have isBuffer : IsTemporary final buffer := ⟨_, buffered⟩
    have isSpan : IsTemporary final span := ⟨_, spanned⟩
    have isPack : IsTemporary final pack := ⟨_, packed⟩
    -- The buffer is cleared, and the arguments are stored.
    obtain ⟨store₁, cleared, length⟩ := laws.clear_buffer store buffered
    have fine₁ := eval.changed isBuffer fine (laws.provenant.clear cleared)
    obtain ⟨store₂, strides₂, fine₂, values, same₂⟩ := stores.runs laws eval known stack fine₁
    have length₂ : (Ω.slots (μ.read store₂ buffer)).length = args.length := by
      rw [same₂ buffer (by omega) isBuffer, length]
    -- The buffer is filled through a view.
    have fine₃ := eval.written laws isSpan fine₂ (Ω.span buffer)
    have count : slots.length = args.length := by
      rw [← List.length_map (f := μ.read store₂), values, List.length_map]
    have room : (Ω.slots (μ.read (μ.write store₂ span (Ω.span buffer)) buffer)).length =
        slots.length := by
      rw [laws.read_write_of_ne (Nat.ne_of_lt before), length₂, count]
    obtain ⟨store₄, strides₄, fine₄, holds, same₄⟩ := fills.runs laws eval isBuffer
      (Nat.ne_of_gt before) fine₃ (laws.read_write _ _) (List.nil_append _).symm rfl room stack
    have isView : μ.read store₄ span = Ω.span buffer := by
      rw [same₄ span (Nat.ne_of_gt before), laws.read_write]
    refine ⟨_, ?_, eval.written laws isPack fine₄ (Ω.readOnly buffer), fun later unchanged => ?_⟩
    · have opens : μ.Strides (HasPlace final .exceptionSlot)
          [routineCall (.inlineArrayAsSpan args.length)] (μ.address buffer :: stack) store₂
          (Ω.span buffer :: stack) store₂ :=
        strides_routine [μ.address buffer] rfl (laws.asSpan length₂) stack
      have closes : μ.Strides (HasPlace final .exceptionSlot) [routineCall .spanAsReadOnly]
          (μ.read store₄ span :: stack) store₄ (Ω.readOnly buffer :: stack) store₄ := by
        rw [isView]
        exact strides_routine [Ω.span buffer] rfl (laws.asReadOnly buffer store₄) stack
      have opened := (Machine.Strides.addressOf buffer stack store₂).append
        (opens.append (laws.strides_store isSpan _ stack _))
      have closed := (Machine.Strides.load span stack store₄).append
        (closes.append (laws.strides_store isPack _ stack _))
      exact (laws.strides_clear isBuffer cleared stack).append
        (strides₂.append (opened.append (strides₄.append closed)))
    · have top_le := stores.le
      refine ⟨slots, ?_, ?_, stores.nodup, fun slot mem => ?_⟩
      · rw [unchanged pack (by omega) isPack, laws.read_write, laws.shows_readOnly,
          unchanged buffer (by omega) isBuffer, laws.read_write_of_ne (by omega), holds]
        rfl
      · rw [← values]
        refine List.map_congr_left fun slot mem => ?_
        obtain ⟨newer, inside, temporary⟩ := stores.mem_slots slot mem
        rw [unchanged slot (by omega) temporary, laws.read_write_of_ne (by omega),
          same₄ slot (by omega), laws.read_write_of_ne (by omega)]
      · have newer := (stores.mem_slots slot mem).1
        omega

end Running

end Semantics

end Stackwise.Lowering
