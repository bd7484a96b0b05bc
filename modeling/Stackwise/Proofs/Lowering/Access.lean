import Stackwise.Compile
import Stackwise.Proofs.Lowering.Moves
import Stackwise.Proofs.Peephole.Access

/-!
# Lowered code uses variables as they may be used

Whatever the source, lowered code names only variables of its table and uses each of them as the
table allows, before and after the optimizer (`lowered_code_disciplined`).

What a variable may be used for follows from where it lives, in every table that lowering makes
(`Storage.Orderly`).  So it is enough to know where the variables live that the code stores to or
pushes by address, which is what the shapes of straight-line code say (`AllTabled`).  Nothing is
assumed about the source, so the argument does not go through the shapes of blocks: a draft is
*tidy* if its table is orderly and the code of all its blocks is tabled as far as it is written
(`Draft.Tidy`), and all moves of lowering keep a draft tidy (`Draft.Becomes.tidy`).
-/

namespace Stackwise

open Source (Module)

/-! ## Orderly tables -/

namespace Code

/-- The index of a frame field. -/
def Variable.frameIndex? (v : Variable) : Option Nat :=
  match v.place with
  | .frameField index => some index
  | _ => none

theorem Variable.frameIndex?_eq_none {v : Variable} (unframed : v.isDurable = false) :
    v.frameIndex? = none := by
  obtain ⟨place, ty, access, origin⟩ := v
  cases place with
  | frameField => cases unframed
  | _ => rfl

/-- There is no place that must not be loaded from. -/
theorem Place.load_access (place : Place) : place.access.load = true := by
  cases place <;> rfl

/-- The variable of a frame field may be read, written and pointed to. -/
theorem Variable.access_of_isDurable {v : Variable} (durable : v.isDurable = true) :
    v.place.access = .pinned := by
  obtain ⟨place, ty, access, origin⟩ := v
  cases place with
  | frameField => rfl
  | _ => cases durable

/-- Kept from the peephole rules or not, a variable is loaded, stored to and pushed by address
exactly as its place allows. -/
theorem Variable.Furnished.access_eq {v : Variable} (h : v.Furnished) :
    v.access.load = v.place.access.load ∧ v.access.store = v.place.access.store ∧
      v.access.address = v.place.access.address := by
  rcases h with same | ⟨slot, same⟩
  · rw [same]
    exact ⟨rfl, rfl, rfl⟩
  · rw [same, slot]
    exact ⟨rfl, rfl, rfl⟩

/-- Only slots are candidates for the peephole rules. -/
theorem Variable.Furnished.slot {v : Variable} (h : v.Furnished)
    (candidate : v.access.temporary = true) : v.place = .slot := by
  obtain ⟨place, ty, access, origin⟩ := v
  rcases h with same | ⟨slot, -⟩
  · change access = place.access at same
    subst same
    cases place with
    | slot => rfl
    | _ => cases candidate
  · exact slot

/-- A table in which every variable may be used as its place allows, and in which the frame fields
are numbered in their order; without a frame there is none. -/
structure Storage.Orderly (framed : Bool) (s : Storage) : Prop where
  furnished : ∀ v ∈ s.entries, v.Furnished
  frames : s.entries.toList.filterMap Variable.frameIndex? = List.range s.frameSlots
  unframed : framed = false → s.frameSlots = 0

namespace Storage

variable {framed : Bool} {s s' : Storage}

theorem orderly_empty (framed : Bool) : Orderly framed {} where
  furnished v mem := absurd mem (Array.not_mem_empty v)
  frames := rfl
  unframed _ := rfl

/-- A table that grows by incidental variables stays orderly. -/
theorem Orderly.grows {m : Module} (h : s.Orderly framed) (grown : s.Grows m s') :
    s'.Orderly framed := by
  obtain ⟨added, same, incidental, slots⟩ := grown
  refine ⟨?_, ?_, ?_⟩
  · intro v mem
    rw [same] at mem
    rcases Array.mem_append.1 mem with old | new
    · exact h.furnished v old
    · exact (incidental v new).furnished
  · have none : added.toList.filterMap Variable.frameIndex? = [] := by
      rw [List.filterMap_eq_nil_iff]
      intro v mem
      exact Variable.frameIndex?_eq_none (incidental v (Array.mem_toList_iff.1 mem)).unframed
    rw [same, slots, Array.toList_append, List.filterMap_append, none, List.append_nil, h.frames]
  · rw [slots]
    exact h.unframed

/-- A variable of its own that is no frame field. -/
theorem Orderly.push (h : s.Orderly framed) {v : Variable} (furnished : v.Furnished)
    (unframed : v.isDurable = false) : (s.push v).2.Orderly framed := by
  refine ⟨?_, ?_, h.unframed⟩
  · intro u mem
    rcases Array.mem_push.1 mem with old | rfl
    · exact h.furnished u old
    · exact furnished
  · show (s.entries.push v).toList.filterMap _ = _
    rw [Array.toList_push, List.filterMap_append, List.filterMap_cons,
      Variable.frameIndex?_eq_none unframed, List.filterMap_nil, List.append_nil]
    exact h.frames

/-- The next frame field. -/
theorem Orderly.addFrameField (h : s.Orderly true) (ty : Ty) (origin : Option Nat) :
    (s.addFrameField ty origin).2.Orderly true := by
  refine ⟨?_, ?_, fun absurd => Bool.noConfusion absurd⟩
  · intro u mem
    rcases Array.mem_push.1 mem with old | rfl
    · exact h.furnished u old
    · exact .inl rfl
  · show (s.entries.push _).toList.filterMap _ = List.range (s.frameSlots + 1)
    rw [Array.toList_push, List.filterMap_append, h.frames, List.range_succ]
    rfl

/-- A frame field belongs to a frame. -/
theorem Orderly.framed_of_frameField (h : s.Orderly framed) {v : Variable} (mem : v ∈ s.entries)
    {index : Nat} (place : v.place = .frameField index) : framed = true := by
  have listed : index ∈ s.entries.toList.filterMap Variable.frameIndex? := by
    refine List.mem_filterMap.2 ⟨v, Array.mem_toList_iff.2 mem, ?_⟩
    rw [Variable.frameIndex?, place]
  rw [h.frames, List.mem_range] at listed
  cases framed with
  | true => rfl
  | false =>
    rw [h.unframed rfl] at listed
    exact absurd listed (Nat.not_lt_zero index)

section

variable (h : s.Orderly framed) {var : Nat} {v : Variable} (there : s.get? var = some v)

include h there

/-! What may be done with a variable in an orderly table depends on its place. -/

theorem Orderly.permits_load : s.permits (.load var) = v.place.access.load := by
  rw [permits, there, Option.any_some, (h.furnished v (Array.mem_of_getElem? there)).access_eq.1]

theorem Orderly.permits_store : s.permits (.store var) = v.place.access.store := by
  rw [permits, there, Option.any_some, (h.furnished v (Array.mem_of_getElem? there)).access_eq.2.1]

theorem Orderly.permits_addressOf : s.permits (.addressOf var) = v.place.access.address := by
  rw [permits, there, Option.any_some, (h.furnished v (Array.mem_of_getElem? there)).access_eq.2.2]

end

end Storage

end Code

namespace Lowering

open Code (Instr Storage Variable)
open Source (Function Instruction)

variable {c : Context}

/-! ## Code that the table permits -/

/-- In an orderly table, to be tabled is to be permitted. -/
theorem Tabled.permits {m : Module} {framed : Bool} {s : Storage} (orderly : s.Orderly framed)
    {i : Instr} (h : Tabled m s i) : s.permits i = true := by
  have listed {var : Nat} (named : i.var? = some var) : ∃ v, s.get? var = some v :=
    ⟨_, Array.getElem?_eq_getElem (h.inside var named)⟩
  cases i with
  | load var =>
    obtain ⟨v, there⟩ := listed rfl
    rw [orderly.permits_load there, Code.Place.load_access]
  | clear var =>
    obtain ⟨v, there⟩ := listed rfl
    rw [Storage.permits, there]
    rfl
  | store var =>
    obtain ⟨v, there, home⟩ := h.stored var rfl
    rw [orderly.permits_store there]
    rcases home with slot | durable | pending
    · rw [slot]
      rfl
    · rw [Variable.access_of_isDurable durable]
      rfl
    · rw [pending]
      rfl
  | addressOf var =>
    rcases h.addressed var rfl with ⟨v, there, slot | durable, -⟩ | ⟨v, global, there, place⟩
    · rw [orderly.permits_addressOf there, slot]
      rfl
    · rw [orderly.permits_addressOf there, Variable.access_of_isDurable durable]
      rfl
    · rw [orderly.permits_addressOf there, place]
      rfl
  | _ => rfl

/-! ## Tidy drafts -/

/-- The table of the draft is orderly, and all code in it is tabled. -/
structure Draft.Tidy (c : Context) (d : Draft) : Prop where
  housed : Housed c.module c.homes d.storage
  orderly : d.storage.Orderly c.needsFrame
  tabled : ∀ b ∈ d.blocks, AllTabled c.module d.storage b.code

/-- Writing tabled code keeps a draft tidy. -/
theorem Draft.Tidy.write {d : Draft} (h : d.Tidy c) {b : DraftBlock}
    (there : d.blocks[d.current]? = some b) {code : List Instr} {storage : Ledger}
    (grown : d.storage.Grows c.module storage) (tabled : AllTabled c.module storage code) :
    (d.write b code storage).Tidy c where
  housed := h.housed.grows grown
  orderly := h.orderly.grows grown
  tabled := by
    have old {b' : DraftBlock} (mem : b' ∈ d.blocks) : AllTabled c.module storage b'.code :=
      fun i here => (h.tabled b' mem i here).grows grown
    intro b' mem
    obtain ⟨label, found⟩ := Array.mem_iff_getElem?.1 mem
    rw [getElem?_write there] at found
    split at found
    · cases found
      exact (old (Array.mem_of_getElem? there)).append tabled
    · exact old (Array.mem_of_getElem? found)

/-- The moves of lowering keep drafts tidy. -/
theorem Draft.Becomes.tidy {start d : Draft} (h : start.Becomes c d) (tidy : start.Tidy c) :
    d.Tidy c := by
  induction h with
  | refl => exact tidy
  | write _ there grown piece ih => exact ih.write there grown piece.tabled
  | grow _ ih =>
    refine ⟨ih.housed, ih.orderly, fun b mem => ?_⟩
    rcases Array.mem_push.1 mem with old | rfl
    · exact ih.tabled b old
    · exact allTabled_nil
  | positionAt _ _ _ ih | note _ _ ih => exact ⟨ih.housed, ih.orderly, ih.tabled⟩

namespace Lower

variable {α β : Type}

/-- A step that keeps drafts tidy. -/
def Tidies (c : Context) (step : Lower α) : Prop :=
  ∀ ⦃d : Draft⦄, d.Tidy c → Ensures c d step fun _ d' => d'.Tidy c

theorem Tidies.pure (a : α) : Tidies c (pure a : Lower α) := fun _ h => Ensures.pure h

/-- Steps that keep drafts tidy can be chained. -/
theorem Tidies.bind {x : Lower α} {f : α → Lower β} (first : Tidies c x)
    (second : ∀ a, Tidies c (f a)) : Tidies c (x >>= f) :=
  fun _ h => Ensures.bind (first h) fun a _ h' => second a h'

/-- Whatever makes moves of lowering only keeps drafts tidy. -/
theorem Builds.tidies {step : Lower α} (h : Builds c step) : Tidies c step :=
  fun _ tidy _ _ run => (h (.refl tidy.housed) run).becomes.tidy tidy

end Lower

open Lower (Tidies)

/-- Lowering a block keeps drafts tidy. -/
theorem lowerBlock_tidies (source : SourceBlock) : Tidies c (lowerBlock source) := by
  have body : Tidies c (lowerBlockBody source) := (lowerBlockBody_builds source).tidies
  rw [lowerBlock_eq]
  refine .bind (fun _ h => Lower.positionAt_ensures ⟨h.housed, h.orderly, h.tabled⟩) fun _ d h => ?_
  refine .read Lower.context_reads fun _ _ => ?_
  split
  · refine .bind (Lower.emit_ensures fun b there => ?_) fun _ d h => body h
    exact Emit.Ensures.imp (Emit.instr_writes (Q := AllTabled c.module) fun _ _ =>
      allTabled_nil.behind rfl)
      fun e ⟨grown, tabled⟩ => h.write there grown (tabled _ (.refl _ _))
  · exact body h

theorem lowerBlocks_tidies (function : Nat) (blocks : List Source.Block) :
    Tidies c (lowerBlocks function blocks) := by
  induction blocks with
  | nil => exact .pure _
  | cons b rest ih => exact .bind (lowerBlock_tidies _) fun _ => ih

/-! ## Functions and initializers -/

/-- Making the variable of an instruction keeps the table orderly. -/
theorem Allocates.orderly {id : Nat} {i : Instruction} {homes homes' : Homes} {s s' : Ledger}
    (h : Allocates c id i homes s homes' s') (orderly : s.Orderly c.needsFrame) :
    s'.Orderly c.needsFrame := by
  cases h with
  | nothing => exact orderly
  | frameField ty _ framed =>
    rw [framed] at orderly ⊢
    exact orderly.addFrameField ty (some id)
  | slot | result => exact orderly.push (.inl rfl) rfl
  | pad => exact orderly.push (.inr ⟨rfl, rfl⟩) rfl

/-- The variables that are made before any code form an orderly table. -/
theorem allocateAll_orderly (code : List (Nat × Instruction)) :
    Emit.Ensures c .empty (allocateAll {} code) fun e =>
      e.code = [] ∧ e.storage.Orderly c.needsFrame :=
  allocateAll_ensures (P := fun _ _ s => s.Orderly c.needsFrame)
    (fun _ orderly allocates => allocates.orderly orderly) [] (Storage.orderly_empty c.needsFrame)

/-- The draft is tidy when the last block is written. -/
theorem lowering_tidies (function : Nat) (f : Function) :
    Lower.Ensures c (startDraft f) (lowerBody function f) fun _ d =>
      ∃ homes, d.Tidy { c with homes } := by
  refine .read Lower.module_reads fun _ same => ?_
  rw [same]
  refine .bind (P := fun homes d => d.Tidy { c with homes }) ?_ fun homes d tidy => ?_
  · refine Lower.emit_ensures fun b there spot e run => ?_
    obtain ⟨nothing, housed⟩ := allocated_housed f run
    rw [nothing, Draft.write_nil there]
    refine ⟨housed, (allocateAll_orderly _ run).2, fun b' mem => ?_⟩
    obtain ⟨_, -, rfl⟩ := Array.mem_map.1 mem
    exact allTabled_nil
  · exact Lower.housed_ensures fun _ d' run => ⟨homes, lowerBlocks_tidies _ _ tidy run⟩

/-- The table of a tidy draft permits all its code. -/
theorem Draft.Tidy.permitsAll {d : Draft} (h : d.Tidy c) :
    d.storage.permitsAll d.finish = true := by
  rw [Storage.permitsAll_iff]
  intro b mem i here
  obtain ⟨⟨b', label⟩, mem', rfl⟩ := List.mem_map.1 mem
  have inside : b' ∈ d.blocks := Array.mem_toList_iff.1 (List.fst_mem_of_mem_zipIdx mem')
  exact (h.tabled b' inside i here).permits h.orderly

/-- The code of an initializer, which alone stores to a global directly. -/
def InitialCode (m : Module) (global : Nat) (s : Storage) (code : List Instr) : Prop :=
  ∃ pushed var, code = pushed ++ [.store var, .ret false] ∧ AllQuiet m s pushed ∧
    HasPlace s (.global global) var

/-- The initial value of a global is pushed by code that only computes, and stored to the global. -/
theorem storeInitial_writes (unhoused : c.homes = {}) (g : Source.Global) (target : Code.Ty)
    (initial : Nat) :
    Emit.Writes c .empty (storeInitial g target initial) (InitialCode c.module g.id) := by
  have absorbs : Absorbs c.module (InitialCode c.module g.id) := by
    rintro s front _ quiet ⟨pushed, var, rfl, quiet', isGlobal⟩
    exact ⟨front ++ pushed, var, (List.append_assoc _ _ _).symm, quiet.append quiet', isGlobal⟩
  refine absorbs.bind (Emit.shared_yields rfl target) fun var s grown isGlobal => ?_
  have housed : Housed c.module c.homes s := by
    rw [unhoused]
    exact (housed_empty _).grows grown
  refine absorbs.bind (push_quietly initial housed) ?_
  intro _ s' grown' _
  refine Emit.code_writes fun final later => ⟨[], var, rfl, allQuiet_nil, ?_⟩
  exact HasPlace.grows isGlobal (grown'.trans later)

/-- An orderly table permits the code of an initializer. -/
theorem InitialCode.permits {m : Module} {global : Nat} {framed : Bool} {s : Storage}
    (orderly : s.Orderly framed) {code : List Instr} (h : InitialCode m global s code) :
    ∀ i ∈ code, s.permits i = true := by
  obtain ⟨pushed, var, rfl, quiet, v, there, place⟩ := h
  rw [List.forall_mem_append, List.forall_mem_cons, List.forall_mem_singleton]
  refine ⟨fun i mem => (quiet i mem).tabled.permits orderly, ?_, rfl⟩
  rw [orderly.permits_store there, place]
  rfl

/-! ## Disciplined code -/

/-- Code that uses the variables of its table as they may be used, where a frame field is only
allowed with a frame. -/
structure Disciplined (framed : Bool) (s : Storage) (blocks : List Code.Block) : Prop where
  permitted : s.permitsAll blocks = true
  listed : ∀ b ∈ blocks, ∀ i ∈ b.code, ∀ var, i.var? = some var → var < s.size
  /-- Neither the exception slot nor a constant or a function is pushed by address. -/
  addressed : ∀ b ∈ blocks, ∀ var v, .addressOf var ∈ b.code → s.get? var = some v →
    v.place ≠ .exceptionSlot ∧ (∀ value, v.place ≠ .constant value) ∧
      ∀ function, v.place ≠ .functionPointer function
  /-- No constant is stored to. -/
  stored : ∀ b ∈ blocks, ∀ var v, .store var ∈ b.code → s.get? var = some v →
    ∀ value, v.place ≠ .constant value
  /-- Only slots are candidates for the peephole rules. -/
  candidates : ∀ v ∈ s.entries, v.access.temporary = true → v.place = .slot
  /-- The frame fields are numbered from zero on, each index once. -/
  frames : s.entries.toList.filterMap Variable.frameIndex? = List.range s.frameSlots
  framed : ∀ v ∈ s.entries, ∀ index, v.place = .frameField index → framed = true

/-- Code that an orderly table permits is disciplined. -/
theorem disciplined_of_permitsAll {framed : Bool} {s : Storage} {blocks : List Code.Block}
    (orderly : s.Orderly framed) (permitted : s.permitsAll blocks = true) :
    Disciplined framed s blocks := by
  have uses := Storage.permitsAll_iff.1 permitted
  refine ⟨permitted, ?_, ?_, ?_, ?_, orderly.frames, ?_⟩
  · intro b mem i here var named
    exact Storage.lt_size_of_permits (uses b mem i here) named
  · intro b mem var v here there
    have allowed := uses b mem _ here
    rw [orderly.permits_addressOf there] at allowed
    refine ⟨?_, ?_, ?_⟩
    · intro place
      rw [place] at allowed
      cases allowed
    · intro value place
      rw [place] at allowed
      cases allowed
    · intro function place
      rw [place] at allowed
      cases allowed
  · intro b mem var v here there value place
    have allowed := uses b mem _ here
    rw [orderly.permits_store there, place] at allowed
    cases allowed
  · exact fun v mem candidate => (orderly.furnished v mem).slot candidate
  · exact fun v mem index place => orderly.framed_of_frameField mem place

/-- The table of a lowered function is orderly and permits all its code. -/
theorem lowerFunction_permits {conventions : Conventions} {throwing : Throwing} {m : Module}
    {function : Nat} {body : Code.Body}
    (lowered : (lowerFunction conventions m throwing function).1 = .ok body) :
    body.needsFrame = throwing.needsFrame function ∧ body.storage.Orderly body.needsFrame ∧
      body.storage.permitsAll body.blocks = true := by
  obtain ⟨f, returns, signature, d, -, -, ran, rfl⟩ := lowerFunction_eq_body lowered
  obtain ⟨homes, tidy⟩ := lowering_tidies function f ran
  exact ⟨rfl, tidy.orderly, tidy.permitsAll⟩

theorem lowerInitializer_permits {conventions : Conventions} {m : Module} {global : Nat}
    {initializer : Code.Initializer}
    (lowered : (lowerInitializer conventions m global).1 = .ok initializer) :
    initializer.storage.Orderly false ∧
      initializer.storage.permitsAll [initializer.block] = true := by
  unfold lowerInitializer at lowered
  split at lowered
  · cases lowered
  dsimp only at lowered
  split at lowered
  · cases lowered
  · cases lowered
  split at lowered
  · cases lowered
  · rename_i ran
    cases lowered
    obtain ⟨grown, written⟩ := storeInitial_writes rfl _ _ _ ran
    have orderly : Storage.Orderly false _ := (Storage.orderly_empty false).grows grown
    refine ⟨orderly, Storage.permitsAll_iff.2 (List.forall_mem_singleton.2 ?_)⟩
    exact (written _ (.refl _ _)).permits orderly

/-- Whatever is lowered, under whatever conventions, the optimizer gets to its end on it at every
level, and the code then uses its variables as they may be used.  The optimizer needs no more of
code than that: any code that its table permits stays permitted. -/
theorem lowered_code_disciplined (conventions : Conventions) (m : Module) (throwing : Throwing)
    (level : Peephole.Level) :
    (∀ function body, (lowerFunction conventions m throwing function).1 = .ok body →
      body.needsFrame = throwing.needsFrame function ∧
      (∃ stats, (optimizeBody level body).2 = .ok stats) ∧
      Disciplined body.needsFrame (optimizeBody level body).1.storage
        (optimizeBody level body).1.blocks) ∧
    (∀ global initializer, (lowerInitializer conventions m global).1 = .ok initializer →
      (∃ stats, (optimizeInitializer level initializer).2 = .ok stats) ∧
      Disciplined false (optimizeInitializer level initializer).1.storage
        [(optimizeInitializer level initializer).1.block]) ∧
    ∀ (s : Storage) (blocks : List Code.Block), s.permitsAll blocks = true →
      (∃ stats, (Peephole.optimize s level blocks).2 = .ok stats) ∧
      s.permitsAll (Peephole.optimize s level blocks).1 = true := by
  refine ⟨?_, ?_, fun s blocks permitted => Peephole.optimize_permits level permitted⟩
  · intro function body lowered
    obtain ⟨frame, orderly, permitted⟩ := lowerFunction_permits lowered
    obtain ⟨ends, permitted'⟩ := Peephole.optimize_permits level permitted
    exact ⟨frame, ends, disciplined_of_permitsAll orderly permitted'⟩
  · intro global initializer lowered
    obtain ⟨orderly, permitted⟩ := lowerInitializer_permits lowered
    obtain ⟨ends, permitted'⟩ := Peephole.optimize_permits level permitted
    refine ⟨ends, disciplined_of_permitsAll orderly ?_⟩
    show initializer.storage.permitsAll [(Peephole.optimize _ level _).1.headD _] = true
    cases blocks : (Peephole.optimize initializer.storage level [initializer.block]).1 with
    | nil => exact permitted
    | cons b rest =>
      rw [blocks, Storage.permitsAll, List.all_cons, Bool.and_eq_true] at permitted'
      rw [Storage.permitsAll, List.headD_cons, List.all_cons, permitted'.1]
      rfl

/-- A function that keeps two variables in its frame, hands out the address of one of them and
raises, with an initialized global. -/
def holdingSteps : List Source.Step :=
  [.intern .void, .intern (.function 0 [] false), .intern (.int 32),
    .addFunction "__cxa_throw" 1, .constInt 2 7, .addGlobal "limit" 2 (some 1),
    .addFunction "hold" 1, .appendBlock 1 "entry", .positionAt 1 0,
    .alloca 2 none, .alloca 2 none, .store 1 5, .gep 2 7 [4], .call 1 0 [], .load 2 9, .ret none]

/-- The module that they build. -/
def holding : Module := Source.build "holding" holdingSteps

/-- Two variables are kept in the frame, and the code is disciplined also behind the optimizer. -/
theorem lowered_code_disciplined_holding : ∃ body initializer,
    (lowerFunction .natural holding (Throwing.analyze .natural holding).1 1).1 = .ok body ∧
    body.needsFrame = true ∧ body.storage.frameSlots = 2 ∧
    Disciplined true body.storage (optimizeBody .aggressive body).1.blocks ∧
    (lowerInitializer .natural holding 0).1 = .ok initializer ∧
    Disciplined false initializer.storage
      [(optimizeInitializer .aggressive initializer).1.block] ∧
    (Storage.addSlot {} .int32 none).2.permitsAll
      [⟨0, none, [.addressOf 0, .loadIndirect .int32, .ret true]⟩] = true ∧
    (Storage.addSlot {} .int32 none).2.permitsAll (Peephole.optimize
      (Storage.addSlot {} .int32 none).2 .aggressive
      [⟨0, none, [.addressOf 0, .loadIndirect .int32, .ret true]⟩]).1 = true := by
  obtain ⟨functions, initializers, byHand⟩ := lowered_code_disciplined .natural holding
    (Throwing.analyze .natural holding).1 .aggressive
  have made : ((lowerFunction .natural holding (Throwing.analyze .natural holding).1 1).1.map
      fun body => (body.needsFrame, body.storage.frameSlots)).toOption = some (true, 2) := by
    decide +kernel
  have stored : (lowerInitializer .natural holding 0).1.toOption.isSome = true := by
    decide +kernel
  have permitted : (Storage.addSlot {} .int32 none).2.permitsAll
      [⟨0, none, [.addressOf 0, .loadIndirect .int32, .ret true]⟩] = true := by
    decide +kernel
  cases lowered : (lowerFunction .natural holding (Throwing.analyze .natural holding).1 1).1 with
  | error fault =>
    rw [lowered] at made
    cases made
  | ok body =>
    cases stored' : (lowerInitializer .natural holding 0).1 with
    | error fault =>
      rw [stored'] at stored
      cases stored
    | ok initializer =>
      rw [lowered] at made
      obtain ⟨frame, slots⟩ := Prod.mk.inj (Option.some.inj made)
      obtain ⟨-, -, disciplined⟩ := functions 1 body lowered
      rw [frame] at disciplined
      exact ⟨body, initializer, rfl, frame, slots, disciplined, rfl,
        (initializers 0 initializer stored').2, permitted, (byHand _ _ permitted).2⟩

end Lowering

end Stackwise
