import Stackwise.Proofs.Code.Confined
import Stackwise.Proofs.Peephole.Windows

/-!
# Carried values stay on the stack

A temporary that is neither exposed nor loaded, or that is stored once and loaded once, goes away:
its stores become pops, or the value stays on the stack until it would have been loaded.  No machine
can tell, as long as nobody reaches the variable behind the code's back (`Machine.Confines`).  The
cell of the variable then holds something else than before, and so stores are compared with the
cells of the variables that have gone covered.

* `Machine.spares_store` and `Machine.spares_pair` compare the two kinds of windows.  For a pair,
  the code in between is level: it runs on any stack as on the empty one, so the value is on top of
  the stack when it would have been loaded.
* The uses of all variables are counted before the first one goes away.  Removing one does not
  change the uses of the others (`Tallied.next`), so pairs that are nested in each other, or around
  stores that become pops, go away one after the other (`carryVars_alike`).
* A temporary is named in one block only.  Every other block runs alike whatever its cell holds
  (`carry_alike`), and so do whole runs (`carryBlocks_alike`), also those that come back to the
  block.
-/

namespace Stackwise.Code.Machine

variable {V R : Type} (μ : Machine V (Memory V R)) (p : Pointers V R) (gone : Nat → Bool)

/-- Every run of the first code that does not underflow, from a stack and a store without an address
of the variable, is a run of the second but for the covered cells. -/
def Spares (var : Nat) (code code' : List Instr) : Prop :=
  ∀ stack s, p.Unseen var stack s → (μ.exec code stack s).ending ≠ .underflowed →
    (μ.exec code' stack s).map (Memory.hide gone) = (μ.exec code stack s).map (Memory.hide gone)

variable {μ p gone} {var : Nat}

/-- One more instruction in front, which takes no address of the variable. -/
theorem Spares.cons (confines : μ.Confines p var) {code code' : List Instr}
    (h : μ.Spares p gone var code code') {i : Instr} (taken : i ≠ .addressOf var) :
    μ.Spares p gone var (i :: code) (i :: code') := by
  intro stack s unseen runs
  refine exec_cons_congr fun stack' s' passes => ?_
  rw [passes.ending] at runs
  exact h stack' s' (confines.passes_unseen taken unseen passes) runs

/-- Code in front may be the same, if it does not take the address of the variable. -/
theorem Spares.append_left (confines : μ.Confines p var) {code code' : List Instr}
    (h : μ.Spares p gone var code code') {front : List Instr} (untaken : .addressOf var ∉ front) :
    μ.Spares p gone var (front ++ code) (front ++ code') := by
  induction front with
  | nil => exact h
  | cons i front ih =>
    rw [List.mem_cons, not_or] at untaken
    exact (ih untaken.2).cons confines (Ne.symm untaken.1)

/-- Code that pops a value first may be compared on stacks that hold one. -/
theorem Spares.of_pop {i : Instr} {code code' : List Instr} (pops : i.pops = 1)
    (h : ∀ x stack s, p.Unseen var (x :: stack) s →
      (μ.exec (i :: code) (x :: stack) s).ending ≠ .underflowed →
        (μ.exec code' (x :: stack) s).map (Memory.hide gone) =
          (μ.exec (i :: code) (x :: stack) s).map (Memory.hide gone)) :
    μ.Spares p gone var (i :: code) code' := by
  intro stack s unseen runs
  cases stack with
  | cons x stack => exact h x stack s unseen runs
  | nil =>
    rw [exec, pops] at runs
    exact absurd rfl runs

/-- A store that nothing reads may as well pop the value. -/
theorem spares_store (confines : μ.Confines p var) (covered : gone var = true)
    {code code' : List Instr} (stored : ∀ i ∈ code', i.var? = some var → i = .store var)
    (h : μ.Spares p gone var code code') :
    μ.Spares p gone var (.store var :: code) (.pop :: code') := by
  apply Spares.of_pop rfl
  intro x stack s unseen runs
  have harmless := unseen.stack x List.mem_cons_self
  have below : p.Unseen var stack s :=
    ⟨fun y mem => unseen.stack y (List.mem_cons_of_mem x mem), unseen.cells, unseen.rest⟩
  rw [μ.exec_step rfl (Nat.le_add_left 1 _) (confines.step_store x stack s)] at runs ⊢
  rw [μ.exec_step rfl (Nat.le_add_left 1 _) (μ.step_pop x stack s),
    ← h stack (s.set var x) (below.set var harmless) runs,
    confines.exec_set covered stored below harmless]

variable (μ) in
/-- Level code does the same to the store on every stack, and nothing to the stack. -/
theorem exec_level {code : List Instr} (level : climb 0 code = some 0) (rest : List Instr)
    (stack : List V) (s : Memory V R) :
    μ.exec (code ++ rest) stack s =
      match μ.steps code [] s with
      | some (_, after) => μ.exec rest stack after
      | none => { ending := .stuck } := by
  have alone := μ.exec_straight ([] ++ stack) (climb_add stack.length level) rest s
  rw [μ.steps_append [] level, List.nil_append] at alone
  rw [alone]
  cases passed : μ.steps code [] s with
  | none => rfl
  | some r =>
    have nothing := List.length_eq_zero_iff.1 (μ.length_steps [] level passed)
    show μ.exec rest (r.1 ++ stack) r.2 = μ.exec rest stack r.2
    rw [nothing, List.nil_append]

/-- A value that is stored and loaded again, with level code in between, may stay where it is. -/
theorem spares_pair (confines : μ.Confines p var) (covered : gone var = true)
    {between rest : List Instr} (level : climb 0 between = some 0)
    (others : ∀ i ∈ between, i.var? ≠ some var)
    (stored : ∀ i ∈ rest, i.var? = some var → i = .store var) :
    μ.Spares p gone var (.store var :: (between ++ .load var :: rest)) (between ++ rest) := by
  apply Spares.of_pop rfl
  intro x stack s unseen _
  have harmless := unseen.stack x List.mem_cons_self
  have bare : p.Unseen var [] s := ⟨nofun, unseen.cells, unseen.rest⟩
  rw [μ.exec_step rfl (Nat.le_add_left 1 _) (confines.step_store x stack s), μ.exec_level level,
    μ.exec_level level, confines.steps_set [] level others bare harmless]
  cases passed : μ.steps between [] s with
  | none => rfl
  | some r =>
    -- At the load the cell still holds `x`, which has stayed on top in the other run.
    have untaken : .addressOf var ∉ between := fun mem => others _ mem rfl
    have after := confines.steps_unseen [] level untaken bare passed
    show _ = (μ.exec (.load var :: rest) stack (r.2.set var x)).map _
    rw [μ.exec_step rfl (Nat.zero_le _) (confines.step_load stack (r.2.set var x)),
      Memory.cells_set_self]
    have unseen' : p.Unseen var (x :: stack) r.2 := ⟨unseen.stack, after.cells, after.rest⟩
    exact (confines.exec_set covered stored unseen' harmless).symm

/-! ## Bodies -/

/-- Bodies whose blocks have alike passes, from stores that are alike, have alike runs.  Neither
body takes the address of a covered variable, so none comes into sight on the way. -/
theorem run_alike (confines : ∀ var, gone var = true → μ.Confines p var)
    {blocks blocks' : List Block} (length : blocks'.length = blocks.length)
    (untaken : ∀ var, gone var = true → ∀ b ∈ blocks, .addressOf var ∉ b.code)
    (untaken' : ∀ var, gone var = true → ∀ b ∈ blocks', .addressOf var ∉ b.code)
    (alike : ∀ {k : Nat} {b b' : Block}, blocks[k]? = some b → blocks'[k]? = some b' →
      ∀ {stack : List V} {s s' : Memory V R}, s'.hide gone = s.hide gone →
        (∀ var, gone var = true → p.Unseen var stack s) →
        (∀ var, gone var = true → p.Unseen var stack s') →
        (μ.exec b.code stack s).ending ≠ .underflowed →
          (μ.exec b'.code stack s').map (Memory.hide gone) =
            (μ.exec b.code stack s).map (Memory.hide gone))
    (fuel label : Nat) (stack : List V) {s s' : Memory V R} (same : s'.hide gone = s.hide gone)
    (unseen : ∀ var, gone var = true → p.Unseen var stack s)
    (unseen' : ∀ var, gone var = true → p.Unseen var stack s')
    (runs : (μ.run blocks fuel label stack s).2 ≠ .underflowed) :
    mapRun (Memory.hide gone) (μ.run blocks' fuel label stack s') =
      mapRun (Memory.hide gone) (μ.run blocks fuel label stack s) := by
  induction fuel generalizing label stack s s' with
  | zero => exact congrArg (fun hidden => ([], Ending.jumped label stack hidden)) same
  | succ fuel ih =>
    cases found : blocks[label]? with
    | none =>
      have beyond : blocks'[label]? = none := by
        rw [List.getElem?_eq_none_iff] at found ⊢
        rwa [length]
      rw [run, run, found, beyond]
      exact congrArg (fun hidden => ([], Ending.jumped label stack hidden)) same
    | some b =>
      obtain ⟨b', found'⟩ : ∃ b', blocks'[label]? = some b' := by
        have inside := (List.getElem?_eq_some_iff.1 found).1
        rw [← length] at inside
        exact ⟨_, List.getElem?_eq_getElem inside⟩
      -- A block that underflows ends the run, so the block at hand does not.
      have pass := alike found found' same unseen unseen' fun underflowed => by
        rw [run_halts found (by rw [underflowed]; rfl)] at runs
        exact runs underflowed
      have onward := congrArg (fun q : Pass V _ => q.ending.onward label) pass
      simp only [Pass.map, Ending.onward_map] at onward
      cases goes : (μ.exec b.code stack s).ending.onward label with
      | none =>
        rw [goes, Option.map_none, Option.map_eq_none_iff] at onward
        rw [run_halts found goes, run_halts found' onward]
        simp only [mapRun, List.map_cons, List.map_nil, pass]
        exact congrArg (fun q : Pass V _ => ([(label, _)], q.ending)) pass
      | some target =>
        obtain ⟨next, stack₁, s₁⟩ := target
        rw [goes, Option.map_some, Option.map_eq_some_iff] at onward
        obtain ⟨⟨next', stack', s₂⟩, goes', there⟩ := onward
        simp only [Prod.mk.injEq] at there
        obtain ⟨rfl, rfl, same'⟩ := there
        have mem := List.mem_of_getElem? found
        have mem' := List.mem_of_getElem? found'
        rw [run_onward found goes] at runs ⊢
        rw [run_onward found' goes']
        have later := ih next' stack' same'
          (fun var covered => (confines var covered).exec_unseen (untaken var covered b mem)
            (unseen var covered) goes)
          (fun var covered => (confines var covered).exec_unseen (untaken' var covered b' mem')
            (unseen' var covered) goes') runs
        rw [mapRun, mapRun, Prod.mk.injEq] at later
        simp only [mapRun, List.map_cons, pass, later.1, later.2]

end Stackwise.Code.Machine

namespace Stackwise.Peephole

open Code
open Relation (ReflTransGen)

/-! ## How code uses a variable -/

/-- Uses of a variable add up. -/
theorem Use.of_append (var : Nat) (front rest : List Instr) :
    Use.of var (front ++ rest) = (Use.of var front).add (Use.of var rest) := by
  simp [Use.of, Use.add]

/-- An instruction that names a variable loads it, stores to it or exposes it. -/
theorem named_cases {i : Instr} {var : Nat} (named : i.var? = some var) :
    i = .load var ∨ i = .store var ∨ exposes var i = true := by
  cases i with
  | load v | store v => exact (by simp_all [Instr.var?])
  | addressOf v | clear v => exact .inr (.inr (by simpa [exposes, Instr.var?] using named))
  | _ => cases named

/-- An instruction that names another variable, or none, adds nothing to the uses of this one. -/
theorem Use.of_cons_of_ne {i : Instr} {var : Nat} (other : i.var? ≠ some var)
    (code : List Instr) : Use.of var (i :: code) = Use.of var code := by
  have load : i ≠ .load var := fun same => other (by rw [same]; rfl)
  have store : i ≠ .store var := fun same => other (by rw [same]; rfl)
  have hidden : exposes var i = false := by
    cases i with
    | addressOf v | clear v => simpa [exposes, Instr.var?] using other
    | _ => rfl
  simp [Use.of, load, store, hidden]

/-- A variable without uses is a variable that is not named. -/
theorem Use.of_eq_empty {var : Nat} {code : List Instr} :
    Use.of var code = {} ↔ ∀ i ∈ code, i.var? ≠ some var := by
  constructor
  · intro unused i mem named
    simp only [Use.of, Use.mk.injEq, List.count_eq_zero, List.any_eq_false] at unused
    obtain ⟨loads, stores, hidden⟩ := unused
    obtain rfl | rfl | exposing := named_cases named
    · exact loads mem
    · exact stores mem
    · exact hidden i mem exposing
  · intro unnamed
    induction code with
    | nil => rfl
    | cons i rest ih =>
      rw [List.forall_mem_cons] at unnamed
      rw [Use.of_cons_of_ne unnamed.1, ih unnamed.2]

/-- A variable that is neither exposed nor loaded is named only by stores. -/
theorem stores_only {var : Nat} {code : List Instr} (loads : (Use.of var code).loads = 0)
    (hidden : (Use.of var code).exposed = false) :
    ∀ i ∈ code, i.var? = some var → i = .store var := by
  intro i mem named
  obtain rfl | rfl | exposing := named_cases named
  · exact absurd mem (List.count_eq_zero.1 loads)
  · rfl
  · exact absurd exposing (List.any_eq_false.1 hidden i mem)

/-- Code in which a variable is not exposed does not take its address. -/
theorem untaken_of_hidden {var : Nat} {code : List Instr}
    (hidden : (Use.of var code).exposed = false) : .addressOf var ∉ code := by
  intro mem
  have exposing := List.any_eq_false.1 hidden _ mem
  exact exposing (by simp [exposes])

/-! ## Stores that nothing reads -/

/-- Dropping stores turns each of them into a `pop`. -/
theorem toCode_dropStores (var : Nat) (code : Gapped) :
    (dropStores var code).1.toCode =
      code.toCode.map fun i => if i = .store var then .pop else i := by
  induction code with
  | nil => rfl
  | cons entry code ih =>
    by_cases found : entry = some (.store var)
    · rw [found]
      simpa [dropStores] using ih
    · cases entry with
      | none => simpa [dropStores] using ih
      | some i =>
        have kept : i ≠ .store var := fun same => found (by rw [same])
        simpa [dropStores, found, kept] using ih

/-- Turning stores into pops leaves the uses of other variables alone. -/
theorem Use.of_map_pop {var other : Nat} (differ : other ≠ var) (code : List Instr) :
    Use.of other (code.map fun i => if i = .store var then .pop else i) = Use.of other code := by
  induction code with
  | nil => rfl
  | cons i rest ih =>
    rw [List.map_cons]
    by_cases found : i = .store var
    · have unnamed : Instr.var? (.store var) ≠ some other := fun same =>
        differ (Option.some.inj same).symm
      have popped : Instr.var? .pop ≠ some other := nofun
      rw [if_pos found, found, Use.of_cons_of_ne popped, Use.of_cons_of_ne unnamed, ih]
    · rw [if_neg found, Use.of_cons, Use.of_cons other i rest, ih]

variable {V R : Type} {μ : Machine V (Memory V R)} {p : Pointers V R} {gone : Nat → Bool}

/-- A variable that is only stored to is not named any more once the stores are pops. -/
theorem unnamed_of_map_pop {var : Nat} {code : List Instr}
    (stored : ∀ i ∈ code, i.var? = some var → i = .store var) :
    ∀ i ∈ code.map (fun i => if i = .store var then .pop else i), i.var? ≠ some var := by
  intro i mem named
  obtain ⟨j, before, rfl⟩ := List.mem_map.1 mem
  by_cases same : j = .store var
  · rw [if_pos same] at named
    cases named
  · rw [if_neg same] at named
    exact same (stored j before named)

/-- If a variable is only stored to, then its stores can be dropped. -/
theorem spares_map_pop {var : Nat} (confines : μ.Confines p var) (covered : gone var = true)
    {code : List Instr} (stored : ∀ i ∈ code, i.var? = some var → i = .store var) :
    μ.Spares p gone var code (code.map fun i => if i = .store var then .pop else i) := by
  induction code with
  | nil => exact fun _ _ _ _ => rfl
  | cons i rest ih =>
    rw [List.forall_mem_cons] at stored
    have later := ih stored.2
    rw [List.map_cons]
    by_cases found : i = .store var
    · rw [if_pos found, found]
      exact Machine.spares_store confines covered
        (fun i mem named => absurd named (unnamed_of_map_pop stored.2 i mem)) later
    · rw [if_neg found]
      have taken : i ≠ .addressOf var := fun same => found (stored.1 (by rw [same]; rfl))
      exact later.cons confines taken

/-! ## Values that are stored and loaded once -/

/-- The uses of another variable do not change when a store and a load go away. -/
theorem Use.of_pair {var other : Nat} (differ : other ≠ var) (front between rest : List Instr) :
    Use.of other (front ++ .store var :: (between ++ .load var :: rest)) =
      Use.of other (front ++ (between ++ rest)) := by
  have store : Instr.var? (.store var) ≠ some other := fun same =>
    differ (Option.some.inj same).symm
  have load : Instr.var? (.load var) ≠ some other := fun same => differ (Option.some.inj same).symm
  rw [Use.of_append, Use.of_cons_of_ne store, Use.of_append, Use.of_cons_of_ne load,
    Use.of_append, Use.of_append]

/-- If the store and the load were the only uses of a variable, none is left. -/
theorem unused_of_pair {var : Nat} {front between rest : List Instr}
    (used : Use.of var (front ++ .store var :: (between ++ .load var :: rest)) = ⟨1, 1, false⟩) :
    Use.of var (front ++ (between ++ rest)) = {} := by
  have store : Use.of var [.store var] = ⟨0, 1, false⟩ := by simp [Use.of, exposes]
  have load : Use.of var [.load var] = ⟨1, 0, false⟩ := by simp [Use.of, exposes]
  rw [Use.of_append, Use.of_cons, store, Use.of_append, Use.of_cons, load] at used
  rw [Use.of_append, Use.of_append]
  simp only [Use.add, Use.mk.injEq, Bool.or_eq_false_iff] at used ⊢
  obtain ⟨loads, stores, hidden⟩ := used
  exact ⟨by omega, by omega, hidden.1, hidden.2.2.1, hidden.2.2.2.2⟩

/-- A value that is stored and loaded once may stay on the stack. -/
theorem spares_dropPair {var : Nat} (confines : μ.Confines p var) (covered : gone var = true)
    {code dropped : Gapped} (h : dropPair var code = some dropped)
    (used : Use.of var code.toCode = ⟨1, 1, false⟩) :
    μ.Spares p gone var code.toCode dropped.toCode := by
  obtain ⟨front, between, rest, level, before, after⟩ := dropPair_eq_some h
  rw [before] at used
  have unnamed := Use.of_eq_empty.1 (unused_of_pair used)
  rw [List.forall_mem_append, List.forall_mem_append] at unnamed
  rw [before, after]
  refine (Machine.spares_pair confines covered level unnamed.2.1 ?_).append_left confines ?_
  · exact fun i mem named => absurd named (unnamed.2.2 i mem)
  · exact fun mem => unnamed.1 _ mem rfl

/-! ## Variable by variable -/

/-- What is done to one variable: nothing, or no use of it is left and no run can tell. -/
theorem carryVar_spares (μ : Machine V (Memory V R)) (p : Pointers V R) (gone : Nat → Bool)
    {var : Nat} (code : Gapped)
    (hidden : (Use.of var code.toCode).exposed = false) :
    (carryVar (Use.of var code.toCode) code var).1 = code ∨
      Use.of var (carryVar (Use.of var code.toCode) code var).1.toCode = {} ∧
      (μ.Confines p var → gone var = true →
        μ.Spares p gone var code.toCode
          (carryVar (Use.of var code.toCode) code var).1.toCode) := by
  fun_cases carryVar (Use.of var code.toCode) code var with
  | case1 loads dropped count run =>
    have stored := stores_only loads hidden
    have popped := toCode_dropStores var code
    rw [run] at popped
    rw [popped]
    exact .inr ⟨Use.of_eq_empty.2 (unnamed_of_map_pop stored), fun confines covered =>
      spares_map_pop confines covered stored⟩
  | case2 _ once dropped found =>
    have used : Use.of var code.toCode = ⟨1, 1, false⟩ := by
      show Use.mk (Use.of var code.toCode).loads (Use.of var code.toCode).stores
        (Use.of var code.toCode).exposed = _
      rw [once.1, once.2, hidden]
    refine .inr ⟨?_, fun confines covered => spares_dropPair confines covered found used⟩
    obtain ⟨front, between, rest, -, before, after⟩ := dropPair_eq_some found
    rw [before] at used
    rw [after, unused_of_pair used]
  | case3 | case4 => exact .inl rfl

/-- The uses of the other variables stay as they are. -/
theorem Use.of_carryVar {var other : Nat} (differ : other ≠ var) (use : Use) (code : Gapped) :
    Use.of other (carryVar use code var).1.toCode = Use.of other code.toCode := by
  fun_cases carryVar use code var with
  | case1 _ dropped count run =>
    have popped := toCode_dropStores var code
    rw [run] at popped
    rw [popped, Use.of_map_pop differ]
  | case2 _ _ dropped found =>
    obtain ⟨front, between, rest, -, before, after⟩ := dropPair_eq_some found
    rw [before, after, Use.of_pair differ]
  | case3 | case4 => rfl

/-- Removing carriers does not change how other variables are used. -/
theorem Use.of_carryVars {other : Nat} (code : Gapped) {vars : List (Use × Nat)}
    (others : ∀ entry ∈ vars, other ≠ entry.2) :
    Use.of other (carryVars code vars).1.toCode = Use.of other code.toCode := by
  induction vars generalizing code with
  | nil => rfl
  | cons entry vars ih =>
    rw [List.forall_mem_cons] at others
    exact (ih _ others.2).trans (Use.of_carryVar others.1 entry.1 code)

/-- Variables that a block uses in the stated way, each once. -/
structure Tallied (code : List Instr) (vars : List (Use × Nat)) : Prop where
  distinct : (vars.map Prod.snd).Nodup
  counted : ∀ entry ∈ vars, entry.1 = Use.of entry.2 code
  hidden : ∀ entry ∈ vars, entry.1.exposed = false

theorem Tallied.others {use : Use} {var : Nat} {vars : List (Use × Nat)} {code : List Instr}
    (h : Tallied code ((use, var) :: vars)) : ∀ entry ∈ vars, var ≠ entry.2 := by
  intro entry mem same
  have fresh : var ∉ vars.map Prod.snd := (List.nodup_cons.1 h.distinct).1
  rw [same] at fresh
  exact fresh (List.mem_map_of_mem mem)

/-- When one carrier has been removed, the others are used as before. -/
theorem Tallied.next {use : Use} {var : Nat} {vars : List (Use × Nat)} {code : Gapped}
    (h : Tallied code.toCode ((use, var) :: vars)) :
    Tallied (carryVar use code var).1.toCode vars := by
  refine ⟨(List.nodup_cons.1 h.distinct).2, fun entry mem => ?_, fun entry mem =>
    h.hidden entry (List.mem_cons_of_mem _ mem)⟩
  rw [Use.of_carryVar (Ne.symm (h.others entry mem)),
    h.counted entry (List.mem_cons_of_mem _ mem)]

/-- No run can tell what is done to all of them. -/
theorem carryVars_alike {vars : List (Use × Nat)} {code : Gapped} (h : Tallied code.toCode vars)
    (covers : ∀ entry ∈ vars,
      Use.of entry.2 (carryVars code vars).1.toCode = {} → gone entry.2 = true)
    (confines : ∀ var, gone var = true → μ.Confines p var) {stack : List V} {s : Memory V R}
    (unseen : ∀ var, gone var = true → p.Unseen var stack s)
    (runs : (μ.exec code.toCode stack s).ending ≠ .underflowed) :
    (μ.exec (carryVars code vars).1.toCode stack s).map (Memory.hide gone) =
      (μ.exec code.toCode stack s).map (Memory.hide gone) := by
  induction vars generalizing code with
  | nil => rfl
  | cons entry vars ih =>
    obtain ⟨use, var⟩ := entry
    rw [List.forall_mem_cons] at covers
    show (μ.exec (carryVars (carryVar use code var).1 vars).1.toCode stack s).map _ = _
    have first : (μ.exec (carryVar use code var).1.toCode stack s).map (Memory.hide gone) =
        (μ.exec code.toCode stack s).map (Memory.hide gone) := by
      have counted : use = Use.of var code.toCode := h.counted _ List.mem_cons_self
      have hidden : use.exposed = false := h.hidden _ List.mem_cons_self
      have kept := Use.of_carryVars (carryVar use code var).1 h.others
      subst counted
      obtain same | ⟨unused, spares⟩ := carryVar_spares μ p gone code hidden
      · rw [same]
      · have covered : gone var = true := covers.1 (kept.trans unused)
        exact spares (confines var covered) covered stack s (unseen var covered) runs
    rw [← first]
    exact ih h.next covers.2 (Pass.underflowed_of_map_eq first runs)

/-! ## Blocks -/

theorem Marks.lt_size {temps : Marks} {var : Nat} (marked : temps.has var = true) :
    var < temps.size := by
  refine Classical.byContradiction fun outside => ?_
  rw [Marks.has, Array.getElem?_eq_none (Nat.le_of_not_lt outside)] at marked
  cases marked

/-- A carrier is a marked variable that the code uses to carry values. -/
theorem mem_carriers {temps : Marks} {code : List Instr} {entry : Use × Nat} :
    entry ∈ carriers temps code ↔
      temps.has entry.2 = true ∧ entry.1 = Use.of entry.2 code ∧ entry.1.carries = true := by
  rw [carriers, List.mem_filter, List.mem_zipIdx_iff_getElem?, Array.getElem?_toList,
    getElem?_tally, Bool.and_eq_true]
  constructor
  · rintro ⟨found, marked, carries⟩
    rw [if_pos (Marks.lt_size marked)] at found
    exact ⟨marked, (Option.some.inj found).symm, carries⟩
  · rintro ⟨marked, counted, carries⟩
    rw [if_pos (Marks.lt_size marked), ← counted]
    exact ⟨rfl, marked, carries⟩

/-- Each carrier is listed once, with how the code uses it. -/
theorem carriers_tallied (temps : Marks) (code : List Instr) :
    Tallied code (carriers temps code) := by
  refine ⟨?_, fun entry mem => (mem_carriers.1 mem).2.1, fun entry mem => ?_⟩
  · refine List.Nodup.sublist ((List.filter_sublist).map Prod.snd) ?_
    rw [List.zipIdx_map_snd]
    exact List.nodup_range' 1
  · have carries := (mem_carriers.1 mem).2.2
    rw [Use.carries, Bool.and_eq_true] at carries
    simpa using carries.1

/-- A variable that a block does not use is not used afterwards. -/
theorem Use.of_carry {var : Nat} {code : List Instr} (unused : Use.of var code = {})
    (temps : Marks) : Use.of var (carry temps code).1 = {} := by
  have others : ∀ entry ∈ carriers temps code, var ≠ entry.2 := by
    intro entry mem same
    obtain ⟨-, counted, carries⟩ := mem_carriers.1 mem
    rw [counted, ← same, unused] at carries
    cases carries
  have kept := Use.of_carryVars (code.map some) others
  rw [Gapped.toCode_map_some, unused] at kept
  exact kept

/-- Removing a carrier exposes nothing. -/
theorem exposed_carryVar (other : Nat) (use : Use) (code : Gapped) (var : Nat) :
    (Use.of other (carryVar use code var).1.toCode).exposed =
      (Use.of other code.toCode).exposed := by
  fun_cases carryVar use code var with
  | case1 _ dropped count run =>
    have popped := toCode_dropStores var code
    rw [run] at popped
    rw [popped]
    show List.any _ _ = List.any _ _
    rw [List.any_map]
    congr 1
    funext i
    by_cases same : i = .store var
    · rw [Function.comp_apply, if_pos same, same]
      rfl
    · rw [Function.comp_apply, if_neg same]
  | case2 _ _ dropped found =>
    obtain ⟨front, between, rest, -, before, after⟩ := dropPair_eq_some found
    rw [before, after]
    simp [Use.of, exposes]
  | case3 | case4 => rfl

/-- No address is taken that was not taken before, nor one less. -/
theorem exposed_carry (other : Nat) (temps : Marks) (code : List Instr) :
    (Use.of other (carry temps code).1).exposed = (Use.of other code).exposed := by
  have run (vars : List (Use × Nat)) (code : Gapped) :
      (Use.of other (carryVars code vars).1.toCode).exposed =
        (Use.of other code.toCode).exposed := by
    induction vars generalizing code with
    | nil => rfl
    | cons entry vars ih => exact (ih _).trans (exposed_carryVar other entry.1 code entry.2)
  have done := run (carriers temps code) (code.map some)
  rwa [Gapped.toCode_map_some] at done

/-- A variable that is not mentioned is not used. -/
theorem mentions_eq_false {var : Nat} {code : List Instr} :
    mentions var code = false ↔ Use.of var code = {} := by
  rw [Use.of_eq_empty, mentions, List.any_eq_false]
  simp only [beq_iff_eq]

/-! ## Bodies -/

/-- Removes the temporaries that only carry values from every block. -/
def carryBlocks (temps : Marks) (blocks : List Block) : List Block :=
  blocks.map fun b => { b with code := (carry temps b.code).1 }

/-- The temporaries that no block names any more. -/
def vanished (temps : Marks) (blocks : List Block) (var : Nat) : Bool :=
  temps.has var && !blocks.any fun b => mentions var b.code

/-- No two blocks name the same marked variable. -/
def Marks.Lone (temps : Marks) (blocks : List Block) : Prop :=
  ∀ ⦃var k k' : Nat⦄ ⦃b b' : Block⦄, temps.has var = true → blocks[k]? = some b →
    blocks[k']? = some b' → mentions var b.code = true → mentions var b'.code = true → k = k'

theorem getElem?_unique {α : Type} {p : α → Bool} {l : List α} (once : l.countP p ≤ 1)
    {k k' : Nat} {a a' : α} (found : l[k]? = some a) (found' : l[k']? = some a')
    (holds : p a = true) (holds' : p a' = true) : k = k' := by
  induction l generalizing k k' with
  | nil => cases found
  | cons first rest ih =>
    rw [List.countP_cons] at once
    -- If the first has the property, none of the others has.
    have alone : p first = true → ∀ {j : Nat} {c : α}, rest[j]? = some c → ¬ p c = true := by
      intro here j c there
      rw [here, if_pos rfl] at once
      exact List.countP_eq_zero.1 (Nat.le_zero.1 (Nat.le_of_succ_le_succ once)) c
        (List.mem_of_getElem? there)
    cases k with
    | zero =>
      cases found
      cases k' with
      | zero => rfl
      | succ k' => exact absurd holds' (alone holds found')
    | succ k =>
      cases k' with
      | zero =>
        cases found'
        exact absurd holds (alone holds' found)
      | succ k' => exact congrArg (· + 1) (ih (Nat.le_of_add_right_le once) found found')

/-- A temporary is named in one block only. -/
theorem temporaries_lone (storage : Storage) (blocks : List Block) :
    (temporaries storage blocks).Lone blocks := by
  intro var k k' b b' marked found found' named named'
  rw [has_temporaries, Option.any_eq_true] at marked
  obtain ⟨v, -, kept⟩ := marked
  have once := (Bool.and_eq_true_iff.1 kept).2
  exact getElem?_unique (Nat.le_of_eq (beq_iff_eq.1 once)) found found' named named'

/-- No block uses a variable that has vanished. -/
theorem vanished_unnamed {temps : Marks} {blocks : List Block} {var : Nat}
    (h : vanished temps blocks var = true) {b : Block} (mem : b ∈ blocks) :
    Use.of var b.code = {} := by
  rw [vanished, Bool.and_eq_true, Bool.not_eq_true', List.any_eq_false] at h
  rw [← mentions_eq_false]
  simpa using h.2 b mem

/-- A variable that vanishes is not exposed before. -/
theorem vanished_hidden {temps : Marks} {blocks : List Block} {var : Nat}
    (h : vanished temps (carryBlocks temps blocks) var = true) {b : Block} (mem : b ∈ blocks) :
    (Use.of var b.code).exposed = false := by
  have unused := vanished_unnamed h (List.mem_map_of_mem mem)
  rw [← exposed_carry var temps, unused]

/-- A carrier that its block does not use any more has vanished. -/
theorem vanished_of_carrier {temps : Marks} {blocks : List Block} (lone : temps.Lone blocks)
    {k : Nat} {b : Block} (found : blocks[k]? = some b) {entry : Use × Nat}
    (mem : entry ∈ carriers temps b.code) (unused : Use.of entry.2 (carry temps b.code).1 = {}) :
    vanished temps (carryBlocks temps blocks) entry.2 = true := by
  obtain ⟨marked, counted, carries⟩ := mem_carriers.1 mem
  have named : mentions entry.2 b.code = true := by
    refine Classical.byContradiction fun unnamed => ?_
    rw [Bool.not_eq_true, mentions_eq_false] at unnamed
    rw [counted, unnamed] at carries
    cases carries
  rw [vanished, marked, Bool.true_and, Bool.not_eq_true', List.any_eq_false]
  intro b' mem'
  rw [Bool.not_eq_true, mentions_eq_false]
  obtain ⟨k', found'⟩ := List.getElem?_of_mem mem'
  rw [carryBlocks, List.getElem?_map, Option.map_eq_some_iff] at found'
  obtain ⟨original, found', rfl⟩ := found'
  by_cases same : k = k'
  · rw [same, found'] at found
    cases found
    exact unused
  · refine Use.of_carry (mentions_eq_false.1 ?_) temps
    rw [← Bool.not_eq_true]
    exact fun named' => same (lone marked found found' named named')

section

variable {temps : Marks} {blocks : List Block}
  (gone_eq : gone = vanished temps (carryBlocks temps blocks))
  (confines : ∀ var, gone var = true → μ.Confines p var)
include gone_eq confines

/-- A block does the same as before, but for the cells of the variables that vanish. -/
theorem carry_alike (lone : temps.Lone blocks) {k : Nat} {b : Block} (found : blocks[k]? = some b)
    {stack : List V} {s s' : Memory V R} (same : s'.hide gone = s.hide gone)
    (unseen : ∀ var, gone var = true → p.Unseen var stack s)
    (unseen' : ∀ var, gone var = true → p.Unseen var stack s')
    (runs : (μ.exec b.code stack s).ending ≠ .underflowed) :
    (μ.exec (carry temps b.code).1 stack s').map (Memory.hide gone) =
      (μ.exec b.code stack s).map (Memory.hide gone) := by
  have whole : Gapped.toCode (b.code.map some) = b.code := Gapped.toCode_map_some b.code
  have mem : b ∈ blocks := List.mem_of_getElem? found
  -- From the same store, the carriers go away one by one.
  have first : (μ.exec (carry temps b.code).1 stack s).map (Memory.hide gone) =
      (μ.exec b.code stack s).map (Memory.hide gone) := by
    have tallied := carriers_tallied temps b.code
    rw [← whole] at tallied runs
    have alike := carryVars_alike tallied (fun entry mem unused => ?_) confines unseen runs
    · rw [whole] at alike
      exact alike
    · rw [gone_eq]
      rw [whole] at mem unused
      exact vanished_of_carrier lone found mem unused
  -- What is left of the code does not name what has vanished.
  have second : (μ.exec (carry temps b.code).1 stack s').map (Memory.hide gone) =
      (μ.exec (carry temps b.code).1 stack s).map (Memory.hide gone) := by
    have bounded : ∀ var, gone var = true → var < temps.size := by
      intro var covered
      rw [gone_eq, vanished, Bool.and_eq_true] at covered
      exact Marks.lt_size covered.1
    refine Machine.exec_covered bounded confines (fun i mem' var named => ?_) same unseen unseen'
    rw [← Bool.not_eq_true, gone_eq]
    intro covered
    have unused := vanished_unnamed covered (List.mem_map_of_mem mem)
    exact Use.of_eq_empty.1 unused i mem' named
  rw [second, first]

/-- The same for runs through the whole body. -/
theorem carryBlocks_alike (lone : temps.Lone blocks) (fuel label : Nat) {stack : List V}
    {s : Memory V R} (unseen : ∀ var, gone var = true → p.Unseen var stack s)
    (runs : (μ.run blocks fuel label stack s).2 ≠ .underflowed) :
    mapRun (Memory.hide gone) (μ.run (carryBlocks temps blocks) fuel label stack s) =
      mapRun (Memory.hide gone) (μ.run blocks fuel label stack s) := by
  have length : (carryBlocks temps blocks).length = blocks.length := List.length_map _
  refine Machine.run_alike confines length ?_ ?_ ?_ fuel label stack rfl unseen unseen runs
  · intro var covered b mem
    rw [gone_eq] at covered
    exact untaken_of_hidden (vanished_hidden covered mem)
  · intro var covered b mem
    rw [gone_eq] at covered
    have unused := vanished_unnamed covered mem
    exact fun taken => Use.of_eq_empty.1 unused _ taken rfl
  · intro k b b' found found' stack s s' same unseen unseen' runs
    rw [carryBlocks, List.getElem?_map, found] at found'
    cases found'
    exact carry_alike gone_eq confines lone found same unseen unseen' runs

end

/-- A body without the temporaries that only carry values. -/
def carried (storage : Storage) (blocks : List Block) : List Block :=
  carryBlocks (temporaries storage blocks) blocks

/-- The temporaries that have gone from the body altogether. -/
def carriedOff (storage : Storage) (blocks : List Block) : Nat → Bool :=
  vanished (temporaries storage blocks) (carried storage blocks)

/-- The variable is a slot of the method, and the body never takes its address. -/
def IsPrivate (storage : Storage) (blocks : List Block) (var : Nat) : Prop :=
  (∃ v, storage.get? var = some v ∧ v.place = .slot) ∧ ∀ b ∈ blocks, .addressOf var ∉ b.code

/-- There is no address of a private variable on the stack or in the store. -/
def Secluded (p : Pointers V R) (storage : Storage) (blocks : List Block) (stack : List V)
    (s : Memory V R) : Prop :=
  ∀ var, IsPrivate storage blocks var → p.Unseen var stack s

/-- Removing the temporaries that only carry values keeps the behaviour of every body, on every
machine that reaches the slots of the method only by name or through an address that `addressOf`
has pushed.  The blocks stay where they are.  A block that does not underflow reaches the same
anchors with the same stacks and ends in the same way, from whatever stack and store it starts, and
its stores are the same but for the cells of the temporaries that are gone from the code.  So does
every run through the body, from whatever label: it takes the same branches and returns the same
value.

An address of a slot can only be there if the body takes it.  If the machine tells addresses from
other values, that is what `Secluded` asks of the stack and the store at the start; if nothing
counts as an address, it asks nothing. -/
theorem carrying_keeps_behaviour {V R : Type} (μ : Machine V (Memory V R)) (p : Pointers V R)
    (storage : Storage) (blocks : List Block)
    (confines : ∀ var, IsPrivate storage blocks var → μ.Confines p var)
    (candidates : ∀ var v, storage.get? var = some v → v.access.temporary = true →
      v.place = .slot) :
    (carried storage blocks).length = blocks.length ∧
    (∀ (k : Nat) (b : Block), blocks[k]? = some b →
      ∃ code, (carried storage blocks)[k]? = some { b with code } ∧
        ∀ (stack : List V) (s : Memory V R), Secluded p storage blocks stack s →
          (μ.exec b.code stack s).ending ≠ .underflowed →
            (μ.exec code stack s).map (Memory.hide (carriedOff storage blocks)) =
              (μ.exec b.code stack s).map (Memory.hide (carriedOff storage blocks))) ∧
    ∀ (fuel label : Nat) (stack : List V) (s : Memory V R), Secluded p storage blocks stack s →
      (μ.run blocks fuel label stack s).2 ≠ .underflowed →
        mapRun (Memory.hide (carriedOff storage blocks))
            (μ.run (carried storage blocks) fuel label stack s) =
          mapRun (Memory.hide (carriedOff storage blocks))
            (μ.run blocks fuel label stack s) := by
  have lone := temporaries_lone storage blocks
  have hidden : ∀ var, carriedOff storage blocks var = true → IsPrivate storage blocks var := by
    intro var covered
    refine ⟨?_, fun b mem => untaken_of_hidden (vanished_hidden covered mem)⟩
    rw [carriedOff, vanished, Bool.and_eq_true] at covered
    obtain ⟨v, listed, candidate⟩ := temporaries_within storage blocks var covered.1
    exact ⟨v, listed, candidates var v listed candidate⟩
  have confined (var : Nat) (covered : carriedOff storage blocks var = true) :=
    confines var (hidden var covered)
  have unseen {stack : List V} {s : Memory V R} (secluded : Secluded p storage blocks stack s)
      (var : Nat) (covered : carriedOff storage blocks var = true) :=
    secluded var (hidden var covered)
  refine ⟨List.length_map _, fun k b found => ?_, fun fuel label stack s secluded runs => ?_⟩
  · refine ⟨(carry (temporaries storage blocks) b.code).1, ?_, ?_⟩
    · rw [carried, carryBlocks, List.getElem?_map, found]
      rfl
    · intro stack s secluded runs
      exact carry_alike rfl confined lone found rfl (unseen secluded) (unseen secluded) runs
  · exact carryBlocks_alike rfl confined lone fuel label (unseen secluded) runs

/-- A block that counts up to zero and jumps back to itself until it gets there.  On the way it
stores two values that it loads again, one inside the other, one that it never loads, and one
through an address. -/
def countingUp : List Block :=
  [⟨0, some 0, [.load 4, .load 5, .binary .add, .store 0, .addressOf 3, .load 5, .store 1, .load 1,
    .storeIndirect .int32, .load 3, .store 2, .load 0, .store 4, .load 4, .branchIfTrue 0, .load 4,
    .ret true]⟩]

/-- Its variables: four slots, the counter and the step. -/
def countingUpStorage : Storage :=
  { entries := #[⟨.slot, .int32, .free, none⟩, ⟨.slot, .int32, .free, none⟩,
      ⟨.slot, .int32, .free, none⟩, ⟨.slot, .int32, .free, none⟩,
      ⟨.slot, .int32, .pinned, none⟩, ⟨.constant (.i4 1), .int32, .loadOnly, none⟩] }

/-- Cells that hold numbers, the counter at minus two. -/
def countingUpStore : Memory Datum Unit :=
  ⟨fun var => .number (if var = 4 then -2 else if var = 5 then 1 else 0), ()⟩

theorem countingUpStore_secluded :
    Secluded pointers countingUpStorage countingUp [] countingUpStore :=
  fun _ _ => ⟨nofun, nofun, nofun⟩

/-- The block keeps the store through an address and loses the other carriers, and it still counts
to the end. -/
theorem carrying_keeps_behaviour_countingUp :
    carried countingUpStorage countingUp =
      [⟨0, some 0, [.load 4, .load 5, .binary .add, .addressOf 3, .load 5, .storeIndirect .int32,
        .load 3, .pop, .store 4, .load 4, .branchIfTrue 0, .load 4, .ret true]⟩] ∧
    (∃ store, (pointing.run countingUp 3 0 [] countingUpStore).2 =
      .left (some (.number 0)) store) ∧
    mapRun (Memory.hide (carriedOff countingUpStorage countingUp))
        (pointing.run (carried countingUpStorage countingUp) 3 0 [] countingUpStore) =
      mapRun (Memory.hide (carriedOff countingUpStorage countingUp))
        (pointing.run countingUp 3 0 [] countingUpStore) := by
  have candidates : ∀ v ∈ countingUpStorage.entries, v.access.temporary = true →
      v.place = .slot := by decide
  refine ⟨by decide +kernel, ⟨_, rfl⟩, ?_⟩
  exact (carrying_keeps_behaviour pointing pointers countingUpStorage countingUp
    (fun var _ => pointing_confines var)
    (fun _ v listed => candidates v (Array.mem_of_getElem? listed))).2.2 3 0 [] countingUpStore
    countingUpStore_secluded nofun

end Stackwise.Peephole
