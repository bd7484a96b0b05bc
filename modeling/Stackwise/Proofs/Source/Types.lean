import Stackwise.Source.Ty

/-!
# Type identity

A pool keeps types once each, and a type refers to its components by number, so the types of a pool
form a shared graph.  What a number means is the tree that one gets by writing out all components,
down to the types that have none: `TypePool.Unfolds`.

Interning asks the lookup of a pool and not its table.  That it never stores a type twice rests on
the two being in step (`InStep`): the lookup knows exactly the types of the table, each under its
number.  A lookup that had missed one entry would let the type in again.

Equality of stored types is equality of one layer of these trees only.  It extends to whole trees
because a pool is `Sound`: table and lookup are in step, and components have smaller numbers.  The
second part lets every number be unfolded (`Ordered.exists_unfolds`), the first makes numbers with
equal trees equal (`Sound.eq_of_unfolds`), by induction on the tree.

`TypePool.internAll` interns types one after another, and `TypePool.Sourced` says that each of them
is made of numbers that the pool had given out by then.
-/

namespace Stackwise.Source

/-! ## Types written out -/

/-- A type with its components written out. -/
inductive TypeTree where
  | void
  | int (bits : Nat)
  | float
  | double
  | ptr
  | array (element : TypeTree) (length : Nat)
  | vector (element : TypeTree) (length : Nat)
  | struct (name : Option String) (fields : List TypeTree)
  | function (ret : TypeTree) (params : List TypeTree) (variadic : Bool)
  | label
  | token
  | metadata

/-- The tree of a type, given those of its components. -/
def Ty.tree (trees : Nat → TypeTree) : Ty → TypeTree
  | void => .void
  | int bits => .int bits
  | float => .float
  | double => .double
  | ptr => .ptr
  | array element length => .array (trees element) length
  | vector element length => .vector (trees element) length
  | struct name fields => .struct name (fields.map trees)
  | function ret params variadic => .function (trees ret) (params.map trees) variadic
  | label => .label
  | token => .token
  | metadata => .metadata

/-- The tree of a type depends only on those of its components. -/
theorem Ty.tree_congr {trees trees' : Nat → TypeTree} {ty : Ty}
    (same : ∀ part ∈ ty.components, trees part = trees' part) : ty.tree trees = ty.tree trees' := by
  cases ty with
  | array | vector =>
    have element := same _ (List.mem_singleton.2 rfl)
    rw [tree, tree, element]
  | struct name fields =>
    have all : fields.map trees = fields.map trees' := List.map_congr_left same
    rw [tree, tree, all]
  | function ret params variadic =>
    obtain ⟨result, rest⟩ := List.forall_mem_cons.1 same
    rw [tree, tree, result, List.map_congr_left rest]
  | _ => rfl

/-- Lists with the same trees are the same, if different numbers have different trees. -/
theorem eq_of_map_tree_eq {trees trees' : Nat → TypeTree} {l l' : List Nat}
    (same : l.map trees = l'.map trees')
    (apart : ∀ a ∈ l, ∀ b ∈ l', trees a = trees' b → a = b) : l = l' := by
  induction l generalizing l' with
  | nil => exact (List.map_eq_nil_iff.1 same.symm).symm
  | cons a l ih =>
    cases l' with
    | nil => cases same
    | cons b l' =>
      rw [List.map_cons, List.map_cons, List.cons.injEq] at same
      rw [apart a List.mem_cons_self b List.mem_cons_self same.1]
      rw [ih same.2 fun a ha b hb => apart a (.tail _ ha) b (.tail _ hb)]

/-- Types with equal trees are equal, if components with equal trees are. -/
theorem Ty.eq_of_tree_eq {trees trees' : Nat → TypeTree} {ty ty' : Ty}
    (same : ty.tree trees = ty'.tree trees')
    (apart : ∀ a ∈ ty.components, ∀ b ∈ ty'.components, trees a = trees' b → a = b) :
    ty = ty' := by
  cases ty <;> cases ty' <;> injection same
  case int.int bits => rw [bits]
  case array.array inner length | vector.vector inner length =>
    rw [apart _ (List.mem_singleton.2 rfl) _ (List.mem_singleton.2 rfl) inner, length]
  case struct.struct name fields => rw [name, eq_of_map_tree_eq fields apart]
  case function.function result params variadic =>
    have ret := apart _ List.mem_cons_self _ List.mem_cons_self result
    have rest := eq_of_map_tree_eq params fun a ha b hb => apart a (.tail _ ha) b (.tail _ hb)
    rw [ret, rest, variadic]
  all_goals rfl

namespace TypePool

/-- The tree that one gets by unfolding a number, its components, their components and so on. -/
inductive Unfolds (p : TypePool) : (id : Nat) → TypeTree → Prop
  | intro {id : Nat} {ty : Ty} {trees : Nat → TypeTree} (found : p.get? id = some ty)
      (each : ∀ part ∈ ty.components, Unfolds p part (trees part)) : Unfolds p id (ty.tree trees)

/-- What a number unfolds to is the tree of its type, over what its components unfold to. -/
theorem Unfolds.layer {p : TypePool} {id : Nat} {tree : TypeTree} (h : p.Unfolds id tree) :
    ∃ ty trees, p.get? id = some ty ∧ (∀ part ∈ ty.components, p.Unfolds part (trees part)) ∧
      tree = ty.tree trees := by
  cases h with
  | intro found each => exact ⟨_, _, found, each, rfl⟩

/-! ## Sound pools -/

/-- Types are made of types with smaller numbers. -/
def Ordered (p : TypePool) : Prop :=
  ∀ id ty, p.get? id = some ty → ∀ part ∈ ty.components, part < id

/-- The lookup gives a number for a type exactly if the table holds the type there. -/
def InStep (p : TypePool) : Prop :=
  ∀ ty id, p.lookup.find? ty = some id ↔ p.get? id = some ty

/-- Table and lookup are in step, and every type is stored behind its components. -/
structure Sound (p : TypePool) : Prop where
  ordered : p.Ordered
  inStep : p.InStep

/-- The second pool has all types of the first one, under the same numbers. -/
def Extends (p p' : TypePool) : Prop := ∀ id ty, p.get? id = some ty → p'.get? id = some ty

theorem get?_eq_some_of_lt {p : TypePool} {id : Nat} (inside : id < p.size) :
    ∃ ty, p.get? id = some ty :=
  ⟨p.types[id], Array.getElem?_eq_getElem inside⟩

theorem lt_size_of_get? {p : TypePool} {id : Nat} {ty : Ty} (found : p.get? id = some ty) :
    id < p.size :=
  (Array.getElem?_eq_some_iff.1 found).1

/-- Whether a pool is ordered can be checked type by type. -/
theorem ordered_iff {p : TypePool} :
    p.Ordered ↔
      ∀ id, (inside : id < p.types.size) → ∀ part ∈ p.types[id].components, part < id := by
  constructor
  · intro ordered id inside
    exact ordered id _ (Array.getElem?_eq_getElem inside)
  · intro all id ty found
    obtain ⟨inside, rfl⟩ := Array.getElem?_eq_some_iff.1 found
    exact all id inside

instance (p : TypePool) : Decidable p.Ordered := decidable_of_iff _ ordered_iff.symm

variable {p p' : TypePool} {ty : Ty}

/-- More types do not change what a number unfolds to. -/
theorem Unfolds.extends {id : Nat} {tree : TypeTree} (h : p.Unfolds id tree)
    (more : p.Extends p') : p'.Unfolds id tree := by
  induction h with
  | intro found _ ih => exact .intro (more _ _ found) ih

/-- A number has only one tree. -/
theorem Unfolds.unique {id : Nat} {tree tree' : TypeTree} (h : p.Unfolds id tree)
    (h' : p.Unfolds id tree') : tree = tree' := by
  induction h generalizing tree' with
  | intro found _ ih =>
    obtain ⟨ty', trees', found', each', rfl⟩ := h'.layer
    cases found.symm.trans found'
    exact Ty.tree_congr fun part mem => ih part mem (each' part mem)

/-- Every number can be unfolded: its components come before it. -/
theorem Ordered.exists_unfolds (ordered : p.Ordered) {id : Nat} (inside : id < p.size) :
    ∃ tree, p.Unfolds id tree := by
  have upTo (count : Nat) (le : count ≤ p.size) :
      ∃ trees : Nat → TypeTree, ∀ id < count, p.Unfolds id (trees id) := by
    induction count with
    | zero => exact ⟨fun _ => .void, nofun⟩
    | succ count ih =>
      obtain ⟨trees, before⟩ := ih (Nat.le_of_succ_le le)
      obtain ⟨ty, found⟩ := get?_eq_some_of_lt le
      refine ⟨fun id => if id = count then ty.tree trees else trees id, fun id below => ?_⟩
      dsimp only
      split
      next last =>
        rw [last]
        exact .intro found fun part mem => before part (ordered count ty found part mem)
      next other => exact before id (by omega)
  obtain ⟨trees, each⟩ := upTo p.size (Nat.le_refl _)
  exact ⟨_, each id inside⟩

/-- A type has one number only, since the lookup gives one. -/
theorem InStep.eq_of_get? (inStep : p.InStep) {a b : Nat} (ha : p.get? a = some ty)
    (hb : p.get? b = some ty) : a = b :=
  Option.some.inj (((inStep ty a).2 ha).symm.trans ((inStep ty b).2 hb))

/-- No type is stored twice. -/
theorem InStep.nodup (inStep : p.InStep) : p.types.toList.Nodup := by
  refine List.pairwise_iff_getElem.2 fun i j hi hj less same => ?_
  have left : p.get? i = some p.types.toList[i] := by
    rw [get?, ← Array.getElem?_toList, List.getElem?_eq_getElem hi]
  have right : p.get? j = some p.types.toList[i] := by
    rw [get?, ← Array.getElem?_toList, List.getElem?_eq_getElem hj, same]
  exact Nat.ne_of_lt less (inStep.eq_of_get? left right)

/-- Numbers with equal trees are equal. -/
theorem Sound.eq_of_unfolds (sound : p.Sound) {a b : Nat} {tree : TypeTree}
    (ha : p.Unfolds a tree) (hb : p.Unfolds b tree) : a = b := by
  -- The layers at both roots agree once their components do, and a layer is stored only once.
  induction ha generalizing b with
  | intro found _ ih =>
    obtain ⟨ty', trees', found', each', same⟩ := hb.layer
    have layers := Ty.eq_of_tree_eq same fun part mem part' mem' equal => by
      refine ih part mem ?_
      rw [equal]
      exact each' part' mem'
    exact sound.inStep.eq_of_get? found (layers ▸ found')

/-! ## Interning -/

/-- A type either is known to the lookup, or it is entered. -/
theorem intern_cases (p : TypePool) (ty : Ty) :
    (∃ id, p.lookup.find? ty = some id ∧ p.intern ty = (id, p)) ∨
      p.lookup.find? ty = none ∧ p.intern ty = (p.size, p.enter ty) := by
  rw [intern]
  cases known : p.lookup.find? ty with
  | some id => exact .inl ⟨id, rfl, rfl⟩
  | none => exact .inr ⟨rfl, rfl⟩

/-- A type that is entered gets the next number. -/
theorem get?_enter (p : TypePool) (ty : Ty) (id : Nat) :
    (p.enter ty).get? id = if id = p.size then some ty else p.get? id :=
  Array.getElem?_push

/-- The number that interning gives stands for the type. -/
theorem InStep.get?_intern (inStep : p.InStep) (ty : Ty) :
    (p.intern ty).2.get? (p.intern ty).1 = some ty := by
  obtain ⟨id, known, interned⟩ | ⟨-, interned⟩ := p.intern_cases ty
  · rw [interned]
    exact (inStep ty id).1 known
  · rw [interned, get?_enter, if_pos rfl]

/-- Interning changes no number. -/
theorem intern_extends (p : TypePool) (ty : Ty) : p.Extends (p.intern ty).2 := by
  intro id old found
  obtain ⟨_, -, interned⟩ | ⟨-, interned⟩ := p.intern_cases ty
  · rwa [interned]
  · rw [interned, get?_enter, if_neg (Nat.ne_of_lt (lt_size_of_get? found))]
    exact found

/-- A number that is given out stands for the same type ever after. -/
theorem get?_intern_of_lt (ty : Ty) {id : Nat} (inside : id < p.size) :
    (p.intern ty).2.get? id = p.get? id := by
  obtain ⟨old, found⟩ := get?_eq_some_of_lt inside
  rw [p.intern_extends ty id old found, found]

theorem size_le_intern (p : TypePool) (ty : Ty) : p.size ≤ (p.intern ty).2.size := by
  obtain ⟨_, -, interned⟩ | ⟨-, interned⟩ := p.intern_cases ty
  · exact Nat.le_of_eq (by rw [interned])
  · rw [interned, enter, size, size, Array.size_push]
    exact Nat.le_succ _

/-- A new type is entered into the table and into the lookup under the same number. -/
theorem InStep.enter (inStep : p.InStep) (new : p.lookup.find? ty = none) :
    (p.enter ty).InStep := by
  intro other id
  rw [get?_enter, TypePool.enter, Lookup.find?_insert]
  by_cases same : other = ty
  · subst same
    rw [if_pos rfl]
    constructor
    · rintro ⟨⟩
      rw [if_pos rfl]
    · intro found
      split at found
      next last => rw [last]
      next =>
        -- The type is not in the table, for then the lookup would know it.
        rw [(inStep other id).2 found] at new
        cases new
  · rw [if_neg same, inStep other id]
    split
    next last =>
      subst last
      constructor
      · intro found
        exact absurd (lt_size_of_get? found) (Nat.lt_irrefl _)
      · rintro ⟨⟩
        exact absurd rfl same
    next => exact Iff.rfl

/-- Whatever is interned, table and lookup stay in step. -/
theorem InStep.intern (inStep : p.InStep) (ty : Ty) : (p.intern ty).2.InStep := by
  obtain ⟨_, -, interned⟩ | ⟨new, interned⟩ := p.intern_cases ty
  · rwa [interned]
  · rw [interned]
    exact inStep.enter new

/-- Components that are there keep an ordered pool ordered. -/
theorem Ordered.intern (ordered : p.Ordered) (known : ∀ part ∈ ty.components, part < p.size) :
    (p.intern ty).2.Ordered := by
  intro id stored found part mem
  obtain ⟨_, -, interned⟩ | ⟨-, interned⟩ := p.intern_cases ty
  · rw [interned] at found
    exact ordered id stored found part mem
  · rw [interned, get?_enter] at found
    split at found
    next last =>
      cases found
      rw [last]
      exact known part mem
    next => exact ordered id stored found part mem

/-- Interning keeps a pool sound, if the components are there. -/
theorem Sound.intern (sound : p.Sound) (known : ∀ part ∈ ty.components, part < p.size) :
    (p.intern ty).2.Sound :=
  ⟨sound.ordered.intern known, sound.inStep.intern ty⟩

theorem sound_empty : Sound {} := by
  refine ⟨fun _ _ found => by simp [get?] at found, fun ty id => ?_⟩
  rw [Lookup.find?_empty]
  simp [get?]

/-! ## Interning one type after another -/

/-- The numbers given out, and the pool, after types are interned one after another. -/
def internAll (p : TypePool) : List Ty → List Nat × TypePool
  | [] => ([], p)
  | ty :: rest =>
    let later := (p.intern ty).2.internAll rest
    ((p.intern ty).1 :: later.1, later.2)

/-- Each type is made of numbers that the pool has given out before. -/
def Sourced (given : List Nat) (p : TypePool) : List Ty → Prop
  | [] => True
  | ty :: rest =>
    (∀ part ∈ ty.components, part ∈ given) ∧
      Sourced ((p.intern ty).1 :: given) (p.intern ty).2 rest

instance decidableSourced (given : List Nat) (p : TypePool) :
    (types : List Ty) → Decidable (Sourced given p types)
  | [] => inferInstanceAs (Decidable True)
  | ty :: rest =>
    have := decidableSourced ((p.intern ty).1 :: given) (p.intern ty).2 rest
    inferInstanceAs (Decidable ((∀ part ∈ ty.components, part ∈ given) ∧ _))

/-- Interning one type after another changes no number. -/
theorem internAll_extends (p : TypePool) (types : List Ty) : p.Extends (p.internAll types).2 := by
  induction types generalizing p with
  | nil => exact fun _ _ found => found
  | cons ty rest ih => exact fun id old found => ih _ id old (p.intern_extends ty id old found)

/-- At the end of a run, every number given out stands for the type it was given out for. -/
theorem InStep.map_get?_internAll (inStep : p.InStep) (types : List Ty) :
    (p.internAll types).1.map (p.internAll types).2.get? = types.map some := by
  induction types generalizing p with
  | nil => rfl
  | cons ty rest ih =>
    rw [internAll, List.map_cons, List.map_cons, ih (inStep.intern ty)]
    rw [internAll_extends _ rest _ _ (inStep.get?_intern ty)]

/-- It keeps a pool sound, if each type is made of numbers that were given out before. -/
theorem Sound.internAll {types : List Ty} (sound : p.Sound) {given : List Nat}
    (there : ∀ id ∈ given, id < p.size) (sourced : Sourced given p types) :
    (p.internAll types).2.Sound := by
  induction types generalizing p given with
  | nil => exact sound
  | cons ty rest ih =>
    obtain ⟨known, later⟩ := sourced
    refine ih (sound.intern fun part mem => there part (known part mem)) ?_ later
    refine List.forall_mem_cons.2 ⟨lt_size_of_get? (sound.inStep.get?_intern ty), fun id mem => ?_⟩
    exact Nat.lt_of_lt_of_le (there id mem) (p.size_le_intern ty)

/-- Type identity is structural identity.  However types are interned from the empty pool on, each
made of numbers given out before: every number stands, from then on, for the type it was given out
for; interning one more type gives a number for it and changes the meaning of no other; the lookup
knows exactly the types of the table, so no type is stored twice, and components have smaller
numbers; and numbers are equal exactly if the trees they unfold to are. -/
theorem type_identity_structural {types : List Ty} (sourced : Sourced [] {} types) :
    let ids := (internAll {} types).1
    let p := (internAll {} types).2
    ids.map p.get? = types.map some ∧
    (∀ ty, (p.intern ty).2.get? (p.intern ty).1 = some ty ∧
      (∀ id < p.size, (p.intern ty).2.get? id = p.get? id) ∧
      ∀ id tree, p.Unfolds id tree → (p.intern ty).2.Unfolds id tree) ∧
    (∀ ty id, p.lookup.find? ty = some id ↔ p.get? id = some ty) ∧ p.types.toList.Nodup ∧
    (∀ id ty, p.get? id = some ty → ∀ part ∈ ty.components, part < id) ∧
    (∀ id < p.size, ∃ tree, p.Unfolds id tree) ∧
    ∀ a b s t, p.Unfolds a s → p.Unfolds b t → (a = b ↔ s = t) := by
  have sound := sound_empty.internAll (List.forall_mem_nil _) sourced
  refine ⟨sound_empty.inStep.map_get?_internAll types,
    fun ty => ⟨sound.inStep.get?_intern ty, ?_, ?_⟩, sound.inStep, sound.inStep.nodup,
    sound.ordered, fun id inside => sound.ordered.exists_unfolds inside, ?_⟩
  · exact fun id inside => get?_intern_of_lt ty inside
  · exact fun id tree unfolds => unfolds.extends (intern_extends _ ty)
  · intro a b s t ha hb
    constructor
    · rintro rfl
      exact ha.unique hb
    · rintro rfl
      exact sound.eq_of_unfolds ha hb

/-- Two structures that differ in their names only, the second of them interned twice. -/
def namesakes : List Ty :=
  [.int 32, .double, .struct (some "Point") [0, 1], .struct (some "Size") [0, 1],
    .array 3 4, .struct (some "Size") [0, 1], .function 4 [2, 3] true]

/-- The structures with two names have two numbers, and the one that is interned twice has one. -/
theorem type_identity_structural_namesakes :
    Sourced [] {} namesakes ∧ (internAll {} namesakes).1 = [0, 1, 2, 3, 4, 3, 5] ∧
      ∀ s t, (internAll {} namesakes).2.Unfolds 2 s → (internAll {} namesakes).2.Unfolds 3 t →
        s ≠ t := by
  have sourced : Sourced [] {} namesakes := by decide +kernel
  refine ⟨sourced, by decide +kernel, fun s t hs ht same => ?_⟩
  have equal := ((type_identity_structural sourced).2.2.2.2.2.2 2 3 s t hs ht).2 same
  cases equal

end TypePool

end Stackwise.Source
