import Stackwise.Peephole.Fold

/-!
# Removing temporaries

Two further rules for a block's code, applied after folding.

* **Initialization.**  Zeroing a temporary is dropped when the next mention of it, before any
  anchor, overwrites it.
* **Carried values.**  A temporary whose address is never taken and that is never zeroed only
  carries values from its stores to its loads.  If it is never loaded its stores become `pop`.  If
  it is stored once and loaded once, and the stack in between never falls below the stored value
  and is back at that value at the load, then the value can stay on the stack and both instructions
  go away.

`carry` works on code in which removed instructions leave a gap behind, because a pair is only
removed when no earlier removal lies between its two ends.  How the block uses its variables is
counted beforehand, in one pass; `getElem?_tally` says what the table holds.
-/

namespace Stackwise.Peephole

open Code

/-! ## Initializations -/

/-- Whether the first mention of the variable, before any anchor, overwrites it. -/
def overwritten (var : Nat) : List Instr → Bool
  | [] => false
  | i :: rest =>
    if i.isAnchor then false
    else if i.var? = some var then i == .store var
    else overwritten var rest

/-- Whether an instruction zeroes a temporary that the code behind it overwrites unread. -/
def isRedundant (temps : Marks) (i : Instr) (rest : List Instr) : Bool :=
  match i with
  | .clear var => temps.has var && overwritten var rest
  | _ => false

/-- Drops the redundant initializations of a block's code. -/
def dropClears (temps : Marks) : List Instr → List Instr
  | [] => []
  | i :: rest =>
    if isRedundant temps i rest then dropClears temps rest else i :: dropClears temps rest

/-- Counts the redundant initializations of a block's code. -/
def countRedundant (temps : Marks) : List Instr → Nat
  | [] => 0
  | i :: rest => countRedundant temps rest + (isRedundant temps i rest).toNat

/-- No instruction weighs less than two. -/
theorem weight_cons_le (i : Instr) (code : List Instr) :
    weight code + 2 ≤ weight (i :: code) := by
  cases i <;> simp only [weight] <;> omega

/-- What makes the rest of the code lighter makes all of it lighter. -/
theorem weight_cons_mono (i : Instr) {a b : List Instr} {n : Nat} (h : weight a + n ≤ weight b) :
    weight (i :: a) + n ≤ weight (i :: b) := by
  rw [weight_cons i a, weight_cons i b]
  omega

/-- Every initialization that is dropped makes the code lighter. -/
theorem weight_dropClears (temps : Marks) (code : List Instr) :
    weight (dropClears temps code) + countRedundant temps code ≤ weight code := by
  induction code with
  | nil => exact Nat.le_refl _
  | cons i rest ih =>
    rw [dropClears, countRedundant]
    cases isRedundant temps i rest with
    | true =>
      have dropped := weight_cons_le i rest
      rw [if_pos rfl, Bool.toNat_true]
      omega
    | false =>
      rw [if_neg Bool.false_ne_true, Bool.toNat_false]
      exact weight_cons_mono i ih

/-! ## Carried values -/

/-- Code with gaps where instructions have been removed. -/
abbrev Gapped := List (Option Instr)

/-- The instructions that are left. -/
def Gapped.toCode (code : Gapped) : List Instr := code.filterMap id

/-- How a block uses one variable. -/
structure Use where
  loads : Nat := 0
  stores : Nat := 0
  /-- Its address is taken or it is zeroed. -/
  exposed : Bool := false
deriving DecidableEq, Repr

/-- Whether an instruction takes the address of the variable or zeroes it. -/
def exposes (var : Nat) : Instr → Bool
  | .addressOf v | .clear v => v == var
  | _ => false

/-- The uses that a list of instructions makes of a variable. -/
def Use.of (var : Nat) (code : List Instr) : Use where
  loads := code.count (.load var)
  stores := code.count (.store var)
  exposed := code.any (exposes var)

/-- The uses of two pieces of code together. -/
def Use.add (a b : Use) : Use :=
  ⟨a.loads + b.loads, a.stores + b.stores, a.exposed || b.exposed⟩

/-- The uses of every variable of the body. -/
abbrev Uses := Array Use

/-- Counts the use that an instruction makes. -/
def Uses.note (uses : Uses) : Instr → Uses
  | .load var => uses.modify var fun u => { u with loads := u.loads + 1 }
  | .store var => uses.modify var fun u => { u with stores := u.stores + 1 }
  | .addressOf var => uses.modify var fun u => { u with exposed := true }
  | .clear var => uses.modify var fun u => { u with exposed := true }
  | _ => uses

/-- How a block's code uses the variables below `size`. -/
def tally (size : Nat) (code : List Instr) : Uses :=
  code.foldl Uses.note (Array.replicate size {})

/-- Whether a variable is used to carry values and for nothing else. -/
def Use.carries (use : Use) : Bool :=
  !use.exposed && (0 < use.loads || 0 < use.stores)

/-- Follows the code behind the store of a value that stays on the stack, with `height` values
above it, up to the load of the variable, and removes that load.  Fails at a gap, at an anchor,
when the value itself would be popped, and when there are values above it at the load. -/
def dropLoad (var : Nat) : (height : Nat) → Gapped → Option Gapped
  | _, [] => none
  | _, none :: _ => none
  | height, some i :: rest =>
    if i = .load var then
      if height = 0 then some (none :: rest) else none
    else if i.isAnchor || height < i.pops then none
    else (dropLoad var (height - i.pops + i.pushes) rest).map (some i :: ·)

/-- Removes the first store of the variable together with the load behind it. -/
def dropPair (var : Nat) : Gapped → Option Gapped
  | [] => none
  | some i :: rest =>
    if i = .store var then (dropLoad var 0 rest).map (none :: ·)
    else (dropPair var rest).map (some i :: ·)
  | none :: rest => (dropPair var rest).map (none :: ·)

/-- Turns every store of the variable into a `pop` and counts them. -/
def dropStores (var : Nat) : Gapped → Gapped × Nat
  | [] => ([], 0)
  | entry :: rest =>
    let (done, dropped) := dropStores var rest
    if entry = some (.store var) then (some .pop :: done, dropped + 1) else (entry :: done, dropped)

/-- Treats one variable that only carries values, used as `use` says. -/
def carryVar (use : Use) (code : Gapped) (var : Nat) : Gapped × Stats :=
  if use.loads = 0 then
    let (dropped, count) := dropStores var code
    (dropped, { storesDropped := count })
  else if use.loads = 1 ∧ use.stores = 1 then
    match dropPair var code with
    | some dropped => (dropped, { forwarded := 1 })
    | none => (code, {})
  else (code, {})

/-- Treats the given variables in order. -/
def carryVars : (code : Gapped) → List (Use × Nat) → Gapped × Stats
  | code, [] => (code, {})
  | code, (use, var) :: vars =>
    let (next, here) := carryVar use code var
    let (done, later) := carryVars next vars
    (done, here + later)

/-- The temporaries that a block's code uses to carry values and for nothing else, lowest first. -/
def carriers (temps : Marks) (code : List Instr) : List (Use × Nat) :=
  (tally temps.size code).toList.zipIdx.filter fun (use, var) => temps.has var && use.carries

/-- Removes the temporaries that only carry values from a block's code. -/
def carry (temps : Marks) (code : List Instr) : List Instr × Stats :=
  let (done, stats) := carryVars (code.map some) (carriers temps code)
  (done.toCode, stats)

/-! ## What the table of uses holds -/

/-- Uses of a variable add up. -/
theorem Use.of_cons (var : Nat) (i : Instr) (code : List Instr) :
    Use.of var (i :: code) = (Use.of var [i]).add (Use.of var code) := by
  simp [Use.of, Use.add, List.count_cons, Nat.add_comm]

/-- Noting an instruction adds its use of each variable. -/
theorem Uses.getElem?_note (uses : Uses) (i : Instr) (var : Nat) :
    (uses.note i)[var]? = uses[var]?.map fun u => u.add (Use.of var [i]) := by
  have kept (none : Use.of var [i] = {}) :
      (uses[var]?.map fun u => u.add (Use.of var [i])) = uses[var]? := by
    simp [none, Use.add]
  cases i with
  | load v | store v | addressOf v | clear v =>
    by_cases same : v = var
    · subst same
      simp [Uses.note, Use.of, Use.add, exposes, Array.getElem?_modify]
    · rw [kept (by simp [Use.of, exposes, same])]
      simp [Uses.note, Array.getElem?_modify, same]
  | _ =>
    rw [kept (by simp [Use.of, exposes])]
    rfl

/-- The table gives, for every variable in it, the uses that the code makes of it. -/
theorem getElem?_tally (size : Nat) (code : List Instr) (var : Nat) :
    (tally size code)[var]? = if var < size then some (Use.of var code) else none := by
  have run (uses : Uses) : (code.foldl Uses.note uses)[var]?
      = uses[var]?.map fun u => u.add (Use.of var code) := by
    induction code generalizing uses with
    | nil => simp [Use.of, Use.add]
    | cons i rest ih =>
      rw [List.foldl_cons, ih, Uses.getElem?_note, Option.map_map, Use.of_cons var i rest]
      simp [Function.comp_def, Use.add, Nat.add_assoc, Bool.or_assoc]
  rw [tally, run]
  by_cases inside : var < size <;> simp [inside, Use.add]

/-! ## Both rules make the code lighter -/

@[simp] theorem Gapped.toCode_nil : Gapped.toCode [] = [] := rfl

@[simp] theorem Gapped.toCode_none (code : Gapped) : Gapped.toCode (none :: code) = code.toCode :=
  rfl

@[simp] theorem Gapped.toCode_some (i : Instr) (code : Gapped) :
    Gapped.toCode (some i :: code) = i :: code.toCode := rfl

@[simp] theorem Gapped.toCode_map_some (code : List Instr) :
    Gapped.toCode (code.map some) = code := by
  simp [Gapped.toCode]

/-- A `pop` weighs one less than the store whose place it takes. -/
theorem weight_dropStores (var : Nat) (code : Gapped) :
    weight (dropStores var code).1.toCode + (dropStores var code).2 = weight code.toCode := by
  induction code with
  | nil => rfl
  | cons entry rest ih =>
    by_cases same : entry = some (.store var)
    · simp only [dropStores, same, if_true, Gapped.toCode_some, weight]
      omega
    · simp only [dropStores, if_neg same]
      cases entry with
      | none => exact ih
      | some i =>
        rw [Gapped.toCode_some, Gapped.toCode_some, weight_cons, weight_cons i (Gapped.toCode rest)]
        omega

/-- A load that is dropped makes the code lighter by its weight. -/
theorem weight_dropLoad {var height : Nat} {code dropped : Gapped}
    (h : dropLoad var height code = some dropped) :
    weight dropped.toCode + 2 ≤ weight code.toCode := by
  induction code generalizing height dropped with
  | nil => cases h
  | cons entry rest ih =>
    cases entry with
    | none => cases h
    | some i =>
      rw [dropLoad] at h
      split at h
      · split at h
        · cases h
          exact weight_cons_le i (Gapped.toCode rest)
        · cases h
      · split at h
        · cases h
        · obtain ⟨tail, found, rfl⟩ := Option.map_eq_some_iff.1 h
          exact weight_cons_mono i (ih found)

/-- So does a store that is dropped with its load. -/
theorem weight_dropPair {var : Nat} {code dropped : Gapped} (h : dropPair var code = some dropped) :
    weight dropped.toCode + 1 ≤ weight code.toCode := by
  induction code generalizing dropped with
  | nil => cases h
  | cons entry rest ih =>
    cases entry with
    | none =>
      obtain ⟨tail, found, rfl⟩ := Option.map_eq_some_iff.1 h
      rw [Gapped.toCode_none, Gapped.toCode_none]
      exact ih found
    | some i =>
      rw [dropPair] at h
      split at h
      · obtain ⟨tail, found, rfl⟩ := Option.map_eq_some_iff.1 h
        have loaded := weight_dropLoad found
        have stored := weight_cons_le i (Gapped.toCode rest)
        rw [Gapped.toCode_none, Gapped.toCode_some]
        omega
      · obtain ⟨tail, found, rfl⟩ := Option.map_eq_some_iff.1 h
        exact weight_cons_mono i (ih found)

/-- Treating a variable makes the code lighter by at least the number of changes. -/
theorem weight_carryVar (use : Use) (code : Gapped) (var : Nat) :
    weight (carryVar use code var).1.toCode + (carryVar use code var).2.changes
      ≤ weight code.toCode := by
  fun_cases carryVar use code var with
  | case1 _ dropped count run =>
    have lighter := weight_dropStores var code
    rw [run] at lighter
    simp only [Stats.changes, Nat.zero_add]
    exact Nat.le_of_eq lighter
  | case2 _ _ dropped found => exact weight_dropPair found
  | case3 | case4 => exact Nat.le_refl _

/-- So does treating one variable after another. -/
theorem weight_carryVars (code : Gapped) (vars : List (Use × Nat)) :
    weight (carryVars code vars).1.toCode + (carryVars code vars).2.changes
      ≤ weight code.toCode := by
  induction vars generalizing code with
  | nil => exact Nat.le_refl _
  | cons entry vars ih =>
    have here := weight_carryVar entry.1 code entry.2
    have later := ih (carryVar entry.1 code entry.2).1
    simp only [carryVars, Stats.changes_add]
    omega

/-- Removing the carriers of a block makes it lighter by at least as much as the number of changes.
-/
theorem weight_carry (temps : Marks) (code : List Instr) :
    weight (carry temps code).1 + (carry temps code).2.changes ≤ weight code := by
  have lighter := weight_carryVars (code.map some) (carriers temps code)
  rwa [Gapped.toCode_map_some] at lighter

end Stackwise.Peephole
