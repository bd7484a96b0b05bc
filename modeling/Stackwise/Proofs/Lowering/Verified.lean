import Stackwise.Proofs.Lowering.Bodies

/-!
# Lowered code is accepted

Whenever lowering under natural layout succeeds, what it gives is accepted by `verify`, for every
function of a module that can be built and for the initializer of every global.  The conditions are
on the source alone: blocks end where they first exit, calls have the type that their callee returns
(`Regular`), and neither a constant expression nor an element is of type `void` (`Solid`).

What is left to show here is that natural layout keeps `void` to itself (`naturalType_eq_void_iff`).
-/

namespace Stackwise.Lowering

open Source (Function Module TypePool)

variable {c : Context} {f : Function}

/-! ## Natural layout -/

/-- Whether a value is a constant expression. -/
def isExpr (v : Source.Value) : Bool :=
  match v.kind with
  | .expr _ _ => true
  | _ => false

/-- The type of the elements of an array or a vector. -/
def element? : Source.Ty → Option Nat
  | .array element _ | .vector element _ => some element
  | _ => none

/-- Neither a constant expression nor an element of an array or a vector is of type `void`. -/
structure Solid (m : Module) : Prop where
  exprs : ∀ v ∈ m.values, isExpr v = true → m.types.isVoid v.ty = false
  elements : ∀ ty ∈ m.types.types, (element? ty).any m.types.isVoid = false

/-- A type that is lowered to `void` is `void`. -/
theorem naturalTypeWithin_eq_void {p : TypePool} {depth id : Nat}
    (h : naturalTypeWithin p depth id = some .void) : p.isVoid id = true := by
  cases depth with
  | zero => cases h
  | succ depth =>
    rw [naturalTypeWithin] at h
    split at h <;> simp_all [TypePool.isVoid]

/-- In the natural conventions, no other type is lowered to `void`. -/
theorem naturalType_eq_void_iff {p : TypePool} {id : Nat} :
    naturalType p id = some .void ↔ p.isVoid id = true := by
  refine ⟨naturalTypeWithin_eq_void, fun void => ?_⟩
  have isVoid : p.get? id = some .void := by simpa [TypePool.isVoid] using void
  rw [naturalType, naturalTypeWithin, isVoid]

/-- A type that is lowered to an array in place is an array or a vector, of elements that are
lowered to those of the array. -/
theorem naturalTypeWithin_eq_inlineArray {p : TypePool} {depth id length : Nat}
    {element : Code.Ty} (h : naturalTypeWithin p depth id = some (.inlineArray element length)) :
    ∃ depth' id', naturalTypeWithin p depth' id' = some element ∧
      (p.get? id = some (.array id' length) ∨ p.get? id = some (.vector id' length)) := by
  cases depth with
  | zero => cases h
  | succ depth =>
    rw [naturalTypeWithin] at h
    split at h
    case h_11 inner count isArray =>
      obtain ⟨_, lowered, same⟩ := Option.map_eq_some_iff.1 h
      cases same
      exact ⟨depth, inner, lowered, .inl isArray⟩
    case h_12 inner count isVector =>
      obtain ⟨_, lowered, same⟩ := Option.map_eq_some_iff.1 h
      cases same
      exact ⟨depth, inner, lowered, .inr isVector⟩
    all_goals cases h

/-- Under natural layout, values of a solid module are pushed as one value. -/
theorem Solid.valued {m : Module} (solid : Solid m) {throwing : Throwing} {function : Option Nat}
    {name : String} {returns : Code.Ty} {homes : Homes} :
    Context.Valued ⟨m, .natural, throwing, function, name, returns, homes⟩ where
  usual := rfl
  expr := by
    intro id v opcode operands found kind lowered
    have void := naturalTypeWithin_eq_void lowered
    rw [solid.exprs v (Array.mem_of_getElem? found) (by rw [isExpr, kind])] at void
    cases void
  element := by
    rintro ty length element lowered rfl
    obtain ⟨depth, inner, isVoid, isArray⟩ := naturalTypeWithin_eq_inlineArray lowered
    have void := naturalTypeWithin_eq_void isVoid
    have notVoid : m.types.isVoid inner = false := by
      rcases isArray with array | vector
      · exact solid.elements _ (Array.mem_of_getElem? array)
      · exact solid.elements _ (Array.mem_of_getElem? vector)
    rw [notVoid] at void
    cases void

/-! ## Functions and initializers -/

/-- Before anything is lowered, all blocks are to be written. -/
theorem starts_closed (m : Module) (f : Function) (s : Ledger) :
    Draft.Closed m f (fun l => 0 ≤ l ∧ l < f.blocks.size) { startDraft f with storage := s } where
  origins := ⟨0, by simp [startDraft]⟩
  inside label waits := by
    show label < (f.blocks.map _).size
    rw [Array.size_map]
    exact waits.2
  waiting label b there _ := by
    change (f.blocks.map _)[label]? = some b at there
    rw [Array.getElem?_map] at there
    obtain ⟨_, -, rfl⟩ := Option.map_eq_some_iff.1 there
    rfl
  finished label b there done := by
    obtain ⟨inside, -⟩ := Array.getElem?_eq_some_iff.1 there
    change label < (f.blocks.map _).size at inside
    rw [Array.size_map] at inside
    exact absurd ⟨Nat.zero_le _, inside⟩ done

/-- At the end of a lowering every block is written. -/
theorem lowering_closes {function : Nat}
    (setting : ∀ homes, HasResults c.module f homes → ∀ block,
      Setting { c with homes } ⟨function, block⟩ f) (numbered : f.Numbered) :
    Lower.Ensures c (startDraft f) (lowerBody function f) fun _ d =>
      d.Closed c.module f fun _ => False := by
  have allocated : Lower.Ensures c (startDraft f)
      (Lower.emit (allocateAll {} (c.module.bodyOf f))) fun homes d =>
        HasResults c.module f homes ∧ d.Closed c.module f fun l =>
          ([] : List Source.Block).length ≤ l ∧ l < f.blocks.size := by
    refine Lower.emit_ensures fun b there => .imp (allocated_hasResults f) ?_
    rintro ⟨_, s, _⟩ ⟨rfl, results⟩
    rw [Draft.write_nil there]
    exact ⟨results, starts_closed c.module f s⟩
  refine .read Lower.module_reads fun _ same => ?_
  rw [same]
  refine .bind allocated fun homes d ⟨results, h⟩ => Lower.housed_ensures ?_
  exact lowerBlocks_closes (setting homes results) numbered rfl h

/-- A draft in which every block is finished is verified. -/
theorem Draft.Closed.verified {m : Module} {d : Draft} (h : d.Closed m f fun _ => False)
    (name : String) : Code.verify name d.finish = .ok () := by
  rw [Code.verify_eq_ok_iff]
  intro b mem
  rw [Draft.finish, List.length_map, List.length_zipIdx, Array.length_toList]
  obtain ⟨⟨b', label⟩, mem', rfl⟩ := List.mem_map.1 mem
  have there := List.mem_zipIdx_iff_getElem?.1 mem'
  rw [Array.getElem?_toList] at there
  exact h.finished there id

/-- The code of an initializer is a block that is accepted. -/
theorem storeInitial_closes (valued : c.Valued) (s : Ledger) (g : Source.Global)
    (target : Code.Ty) (initial : Nat) : Emit.Closes c s (storeInitial g target initial) 1 0 := by
  refine Emit.Settles.then_closes (Emit.shared_climbs rfl _ 0).settles fun storage s _ => ?_
  refine Emit.Settles.then_closes (push_climbs valued initial s).settles fun _ s _ => ?_
  intro spot e run
  cases run
  exact ⟨⟨Code.reaches_cons.2 ⟨0, rfl, Code.reaches_cons.2 ⟨0, rfl, by simp⟩⟩, rfl⟩, .refl _ _⟩

theorem map_id_of_numbered (numbered : f.Numbered) :
    f.blocks.toList.map (fun b => some b.id) = (List.range f.blocks.size).map some := by
  rw [← numbered.map_id, List.map_map]
  rfl

/-- Lowering under natural layout only gives accepted code.  The blocks of a lowered function are
labelled by their positions; those of the source come first, in their order, and the rest have no
source block.  Like the one block of an initializer, they pass `verify`. -/
theorem lowered_code_accepted {m : Module} (built : m.Built) (solid : Solid m) :
    (∀ function f body, m.function? function = some f → Regular m f →
      (lowerFunction .natural m (Throwing.analyze .natural m).1 function).1 = .ok body →
        body.blocks.map (·.label) = List.range body.blocks.length ∧
        (∃ made, body.blocks.map (·.origin) =
          (List.range f.blocks.size).map some ++ List.replicate made none) ∧
        Code.verify body.name body.blocks = .ok ()) ∧
    ∀ global initializer, (lowerInitializer .natural m global).1 = .ok initializer →
      Code.verify initializer.name [initializer.block] = .ok () := by
  constructor
  · intro function f body found regular lowered
    obtain ⟨f', returns, d, found', -, ran, -, same⟩ := lowerFunction_eq_ok lowered
    obtain rfl : f = f' := Option.some.inj (found.symm.trans found')
    have numbered : f.Numbered := Source.numbered_of_built built found
    have closed := lowering_closes (fun homes results block => ⟨solid.valued,
      fun ty => naturalType_eq_void_iff, found, regular, results⟩) numbered ran
    obtain ⟨made, origins⟩ := closed.origins
    rw [same]
    refine ⟨d.map_label_finish, ⟨made, ?_⟩, closed.verified _⟩
    rw [d.map_origin_finish, origins, map_id_of_numbered numbered]
  · intro global initializer lowered
    unfold lowerInitializer at lowered
    split at lowered
    · cases lowered
    dsimp only at lowered
    split at lowered
    · cases lowered
    · cases lowered
    split at lowered
    · cases lowered
    · -- All that is left is an initializer that was written to its end.
      rename_i initial target _ _ _ _ storage code ran
      cases lowered
      rw [Code.verify_eq_ok_iff]
      intro b mem
      obtain rfl := List.mem_singleton.1 mem
      obtain ⟨⟨balanced, ends⟩, -⟩ := storeInitial_closes solid.valued _ _ _ _ ran
      exact ⟨balanced, ends⟩

/-- A module with a function that counts up by calling another one, in a loop whose two ways on both
begin with a phi, and with an initialized global. -/
def countingSteps : List Source.Step :=
  [.intern (.int 32), .intern (.function 0 [0] false),
    .addFunction "next" 1, .appendBlock 0 "entry", .positionAt 0 0,
    .constInt 0 1, .binary .add 1 2, .ret (some 3),
    .addFunction "count" 1, .appendBlock 1 "entry", .appendBlock 1 "loop", .appendBlock 1 "done",
    .positionAt 1 0, .br 1,
    .positionAt 1 1, .phi 0 [(2, 0)], .call 1 0 [8], .icmp .slt 9 6, .addIncoming 8 9 1,
    .condBr 10 1 2,
    .positionAt 1 2, .phi 0 [(9, 1)], .ret (some 12),
    .addGlobal "start" 0 (some 2)]

/-- The module that they build. -/
def counting : Module := Source.build "counting" countingSteps

theorem counting_solid : Solid counting where
  exprs := by decide +kernel
  elements := by decide +kernel

/-- The function that counts. -/
def count : Function := (counting.function? 1).get (by decide +kernel)

theorem count_regular : Regular counting count where
  exits := by decide +kernel
  calls := by decide +kernel

/-- The loop has a block that the source does not have, and all blocks are accepted. -/
theorem lowered_code_accepted_counting : ∃ body initializer,
    (lowerFunction .natural counting (Throwing.analyze .natural counting).1 1).1 = .ok body ∧
    body.blocks.map (·.origin) = [some 0, some 1, some 2, none] ∧
    Code.verify body.name body.blocks = .ok () ∧
    (lowerInitializer .natural counting 0).1 = .ok initializer ∧
    Code.verify initializer.name [initializer.block] = .ok () := by
  have found : counting.function? 1 = some count := (Option.some_get _).symm
  have both := lowered_code_accepted ⟨_, countingSteps, rfl⟩ counting_solid
  have origins : ((lowerFunction .natural counting
      (Throwing.analyze .natural counting).1 1).1.map fun body =>
        body.blocks.map (·.origin)).toOption = some [some 0, some 1, some 2, none] := by
    decide +kernel
  have stored : (lowerInitializer .natural counting 0).1.toOption.isSome = true := by
    decide +kernel
  cases lowered : (lowerFunction .natural counting (Throwing.analyze .natural counting).1 1).1 with
  | error fault =>
    rw [lowered] at origins
    cases origins
  | ok body =>
    cases stored' : (lowerInitializer .natural counting 0).1 with
    | error fault =>
      rw [stored'] at stored
      cases stored
    | ok initializer =>
      rw [lowered] at origins
      exact ⟨body, initializer, rfl, Option.some.inj origins,
        (both.1 1 count body found count_regular lowered).2.2, rfl, both.2 0 initializer stored'⟩

end Stackwise.Lowering
