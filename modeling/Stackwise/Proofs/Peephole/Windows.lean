import Mathlib.Logic.Relation
import Stackwise.Peephole.Rounds
import Stackwise.Proofs.Code.Height

/-!
# Every rule rewrites a window

A peephole rule leaves the code in front of a window and behind it alone.  What happens to a body as
a whole is a long chain of such steps, block by block and round by round, so a property of code that
is kept by rewriting a single window is kept by the optimizer (`optimize_rewrites`).

* `Folds` lists the windows of folding.  A store may stand far behind the address that it writes
  to: the instructions between them are passed over by the search, which knows of them only that
  they push one value and touch nothing below (`climb_producer`).
* `Cleans` lists the windows of the two rules that remove temporaries.

Both say of a variable that is no longer read or written through its address, or no longer at all,
that it is marked as a temporary.  In a run of the optimizer the marks are those of a body, and
every marked variable is a candidate (`Marks.Within`).
-/

namespace Stackwise.Peephole

open Code
open Relation (ReflTransGen)

/-- Rewriting one window, given which windows may be rewritten. -/
def Rewrites (window : List Instr → List Instr → Prop) (code code' : List Instr) : Prop :=
  ∃ front old new rest, window old new ∧ code = front ++ old ++ rest ∧ code' = front ++ new ++ rest

/-- Code in front of a window stays where it is. -/
theorem Rewrites.cons {window : List Instr → List Instr → Prop} {code code' : List Instr}
    (h : Rewrites window code code') (i : Instr) : Rewrites window (i :: code) (i :: code') := by
  obtain ⟨front, old, new, rest, rewritten, rfl, rfl⟩ := h
  exact ⟨i :: front, old, new, rest, rewritten, rfl, rfl⟩

theorem cons_rewrites {window : List Instr → List Instr → Prop} {code code' : List Instr}
    (i : Instr) (h : ReflTransGen (Rewrites window) code code') :
    ReflTransGen (Rewrites window) (i :: code) (i :: code') :=
  h.lift (i :: ·) fun _ _ step => step.cons i

/-- More windows may be allowed. -/
theorem Rewrites.mono {window window' : List Instr → List Instr → Prop}
    (wider : ∀ {old new}, window old new → window' old new) {code code' : List Instr}
    (h : Rewrites window code code') : Rewrites window' code code' := by
  obtain ⟨front, old, new, rest, rewritten, rfl, rfl⟩ := h
  exact ⟨front, old, new, rest, wider rewritten, rfl, rfl⟩

/-- What holds of every instruction and stays so in every window stays so. -/
theorem Rewrites.forall_mem {window : List Instr → List Instr → Prop} {P : Instr → Prop}
    (kept : ∀ {old new}, window old new → (∀ i ∈ old, P i) → ∀ i ∈ new, P i)
    {code code' : List Instr} (h : Rewrites window code code') (all : ∀ i ∈ code, P i) :
    ∀ i ∈ code', P i := by
  obtain ⟨front, old, new, rest, rewritten, rfl, rfl⟩ := h
  rw [List.forall_mem_append, List.forall_mem_append] at all ⊢
  exact ⟨⟨all.1.1, kept rewritten all.1.2⟩, all.2⟩

/-- The second code names no variable that the first does not name. -/
def Narrows (code code' : List Instr) : Prop :=
  ∀ var, mentions var code' = true → mentions var code = true

/-- Joined code mentions what one of its parts does. -/
theorem mentions_append (var : Nat) (a b : List Instr) :
    mentions var (a ++ b) = (mentions var a || mentions var b) :=
  List.any_append

/-- Code names no new variable if no window does. -/
theorem Rewrites.narrows {window : List Instr → List Instr → Prop}
    (narrow : ∀ {old new}, window old new → Narrows old new) {code code' : List Instr}
    (h : Rewrites window code code') : Narrows code code' := by
  obtain ⟨front, old, new, rest, rewritten, rfl, rfl⟩ := h
  intro var
  simp only [mentions_append, Bool.or_eq_true]
  rintro ((before | here) | behind)
  · exact .inl (.inl before)
  · exact .inl (.inr (narrow rewritten var here))
  · exact .inr behind

/-! ## Folding -/

/-- The windows of folding. -/
inductive Folds (storage : Storage) (temps : Marks) : List Instr → List Instr → Prop
  | load {var : Nat} {v : Variable} (listed : storage.get? var = some v)
      (marked : temps.has var = true) (allowed : v.access.load = true) :
    Folds storage temps [.addressOf var, .loadIndirect v.ty] [.load var]
  | loadField (field : Field) :
    Folds storage temps [.fieldAddress field, .loadIndirect field.ty] [.loadField field]
  | deadLoad (var : Nat) : Folds storage temps [.load var, .pop] []
  | deadAddress (var : Nat) : Folds storage temps [.addressOf var, .pop] []
  | deadSize (ty : Ty) : Folds storage temps [.sizeOf ty, .pop] []
  | store {var : Nat} {v : Variable} {passed : List Instr} (listed : storage.get? var = some v)
      (pushesOne : climb 0 passed = some 1) (marked : temps.has var = true)
      (allowed : v.access.store = true) :
    Folds storage temps (.addressOf var :: passed ++ [.storeIndirect v.ty])
      (passed ++ [.store var])
  | storeField (field : Field) {passed : List Instr} (pushesOne : climb 0 passed = some 1) :
    Folds storage temps (.fieldAddress field :: passed ++ [.storeIndirect field.ty])
      (passed ++ [.storeField field])

/-- Folding names no new variable. -/
theorem Folds.narrows {storage : Storage} {temps : Marks} {old new : List Instr}
    (h : Folds storage temps old new) : Narrows old new := by
  intro var
  cases h with
  | load => simp [mentions, Instr.var?]
  | loadField | storeField => simp [mentions, Instr.var?]
  | deadLoad | deadAddress | deadSize => simp [mentions]
  | store => simp [mentions, Instr.var?, or_comm]

/-- The rule that a window of folding belongs to, by its last instruction. -/
def ruleOf (window : List Instr) : FoldKind :=
  match window.getLast? with
  | some (.loadIndirect _) => .load
  | some (.storeIndirect _) => .store
  | _ => .deadPush

theorem ruleOf_store (front : List Instr) (ty : Ty) :
    ruleOf (front ++ [.storeIndirect ty]) = .store := by
  rw [ruleOf, List.getLast?_concat]

/-- No instruction pushes more than one value. -/
theorem Instr.pushes_le_one (i : Instr) : i.pushes ≤ 1 := by
  cases i with
  | call callee sig | callIndirect sig => simp [Instr.pushes, Bool.toNat_le]
  | _ => simp [Instr.pushes]

/-- What the backward search passes over, from the instruction that it finds: straight-line code
that starts right above the value sought and leaves one value there. -/
theorem climb_producer {depth : Nat} {passed before skipped front : List Instr} {i : Instr}
    (positive : 0 < depth) (climbs : climb (depth - 1) passed = some 1)
    (h : producer depth passed before = some (skipped, i, front)) :
    climb 0 skipped = some 1 ∧ before.reverse ++ passed = front.reverse ++ i :: skipped := by
  induction before generalizing depth passed with
  | nil => cases h
  | cons j before ih =>
    have single := Instr.pushes_le_one j
    rw [producer] at h
    split at h
    · cases h
    rename_i plain
    split at h
    · -- The value sought is the only one that `j` pushes, so nothing was left above it.
      rename_i found
      cases h
      have one : depth - 1 = 0 := by omega
      rw [one] at climbs
      exact ⟨climbs, by simp⟩
    split at h
    · cases h
    · have step : climb (depth - j.pushes + j.pops - 1) (j :: passed) = some 1 := by
        rw [climb_cons_eq_some]
        refine ⟨by simpa using plain, by omega, ?_⟩
        rwa [show depth - j.pushes + j.pops - 1 - j.pops + j.pushes = depth - 1 by omega]
      obtain ⟨pushesOne, same⟩ := ih (by omega) step h
      refine ⟨pushesOne, ?_⟩
      rw [← same, List.reverse_cons, List.append_assoc]
      rfl

/-- What is asked about a variable before a load or a store through its address is folded. -/
theorem get?_of_may {storage : Storage} {var : Nat} {ty : Ty} {marked : Bool}
    {allowed : Variable → Bool}
    (h : (match storage.get? var with
      | some v => .ok (marked && allowed v && v.ty.compatible ty)
      | none => .error ⟨var⟩ : Except Unlisted Bool) = .ok true) :
    marked = true ∧ ∃ v, storage.get? var = some v ∧ allowed v = true ∧ v.ty = ty := by
  split at h
  · rename_i v listed
    simp only [Except.ok.injEq, Bool.and_eq_true] at h
    exact ⟨h.1.1, v, listed, h.1.2, Ty.compatible_iff_eq.1 h.2⟩
  · cases h

/-- What is folded at an instruction is a window of folding, of the rule that is reported. -/
theorem foldAt_folds {storage : Storage} {temps : Marks} {before rest folded : List Instr}
    {i : Instr} {kind : FoldKind}
    (h : foldAt storage temps before i rest = .ok (some (kind, folded))) :
    Rewrites (fun old new => Folds storage temps old new ∧ kind = ruleOf old)
      (before.reverse ++ i :: rest) folded := by
  unfold foldAt at h
  split at h
  · -- A load through the address of a variable.
    rename_i var front ty
    split at h
    · cases h
    · rename_i may asked
      cases may with
      | false => cases h
      | true =>
        cases h
        obtain ⟨marked, v, listed, allowed, rfl⟩ := get?_of_may asked
        exact ⟨front.reverse, _, _, rest, ⟨.load listed marked allowed, rfl⟩, by simp, by simp⟩
  · -- A load through the address of a field.
    rename_i field front ty
    split at h
    · rename_i compatible
      cases h
      obtain rfl := Ty.compatible_iff_eq.1 compatible
      exact ⟨front.reverse, _, _, rest, ⟨.loadField field, rfl⟩, by simp, by simp⟩
    · cases h
  · rename_i var front
    cases h
    exact ⟨front.reverse, _, _, rest, ⟨.deadLoad var, rfl⟩, by simp, by simp⟩
  · rename_i var front
    cases h
    exact ⟨front.reverse, _, _, rest, ⟨.deadAddress var, rfl⟩, by simp, by simp⟩
  · rename_i ty front
    cases h
    exact ⟨front.reverse, _, _, rest, ⟨.deadSize ty, rfl⟩, by simp, by simp⟩
  · -- A store, whose address is sought backwards.
    rename_i ty
    split at h
    · rename_i passed var front found
      obtain ⟨pushesOne, same⟩ := climb_producer (by decide) rfl found
      rw [List.append_nil] at same
      split at h
      · cases h
      · rename_i may asked
        cases may with
        | false => cases h
        | true =>
          cases h
          obtain ⟨marked, v, listed, allowed, rfl⟩ := get?_of_may asked
          refine ⟨front.reverse, _, _, rest,
            ⟨.store listed pushesOne marked allowed, (ruleOf_store _ _).symm⟩, ?_, by simp⟩
          rw [same]
          simp
    · rename_i passed field front found
      obtain ⟨pushesOne, same⟩ := climb_producer (by decide) rfl found
      rw [List.append_nil] at same
      split at h
      · rename_i compatible
        cases h
        obtain rfl := Ty.compatible_iff_eq.1 compatible
        refine ⟨front.reverse, _, _, rest, ⟨.storeField field pushesOne, (ruleOf_store _ _).symm⟩,
          ?_, by simp⟩
        rw [same]
        simp
      · cases h
    · cases h
  · cases h

/-- Folding from an instruction on rewrites the first window that it meets. -/
theorem foldFrom_folds {storage : Storage} {temps : Marks} {before rest folded : List Instr}
    {kind : FoldKind} (h : foldFrom storage temps before rest = .ok (some (kind, folded))) :
    Rewrites (fun old new => Folds storage temps old new ∧ kind = ruleOf old)
      (before.reverse ++ rest) folded := by
  induction rest generalizing before with
  | nil => cases h
  | cons i rest ih =>
    rw [foldFrom] at h
    split at h
    · have later := ih h
      rwa [List.reverse_cons, List.append_assoc] at later
    · exact foldAt_folds h

/-- A fold rewrites one window, by the rule that it says. -/
theorem foldStep_folds {storage : Storage} {temps : Marks} {code folded : List Instr}
    {kind : FoldKind} (h : foldStep storage temps code = .ok (some (kind, folded))) :
    Rewrites (fun old new => Folds storage temps old new ∧ kind = ruleOf old) code folded :=
  foldFrom_folds h

/-- A step of folding rewrites one window. -/
theorem foldStep_rewrites {storage : Storage} {temps : Marks} {code folded : List Instr}
    {kind : FoldKind} (h : foldStep storage temps code = .ok (some (kind, folded))) :
    Rewrites (Folds storage temps) code folded :=
  (foldStep_folds h).mono And.left

/-- Folding rewrites windows one after another. -/
theorem foldCode_rewrites (storage : Storage) (temps : Marks) (code : List Instr) :
    ReflTransGen (Rewrites (Folds storage temps)) code (foldCode storage temps code).1 := by
  fun_induction foldCode storage temps code with
  | case1 | case2 => exact .refl
  | case3 code kind folded found done stats run ih =>
    rw [run] at ih
    exact .head (foldStep_rewrites found) ih

/-! ## Removing temporaries -/

/-- The windows of the rules that remove temporaries. -/
inductive Cleans (temps : Marks) : List Instr → List Instr → Prop
  | clear (var : Nat) (marked : temps.has var = true) : Cleans temps [.clear var] []
  | store (var : Nat) (marked : temps.has var = true) : Cleans temps [.store var] [.pop]
  | pair (var : Nat) {between : List Instr} (level : climb 0 between = some 0)
      (marked : temps.has var = true) :
    Cleans temps (.store var :: between ++ [.load var]) between

/-- Removing temporaries names no new variable. -/
theorem Cleans.narrows {temps : Marks} {old new : List Instr} (h : Cleans temps old new) :
    Narrows old new := by
  intro var
  cases h with
  | clear | store => simp [mentions, Instr.var?]
  | pair carried =>
    intro named
    simp only [mentions_append, Bool.or_eq_true]
    refine .inl ?_
    rw [mentions, List.any_cons, Bool.or_eq_true]
    exact .inr named

/-- Between the store of a carried value and its load, nothing falls below the value, and nothing is
left above it. -/
theorem dropLoad_eq_some {var height : Nat} {code dropped : Gapped}
    (h : dropLoad var height code = some dropped) :
    ∃ between rest, climb height between = some 0 ∧
      code.toCode = between ++ .load var :: rest ∧ dropped.toCode = between ++ rest := by
  induction code generalizing height dropped with
  | nil => cases h
  | cons entry code ih =>
    cases entry with
    | none => cases h
    | some i =>
      rw [dropLoad] at h
      split at h
      · rename_i found
        split at h
        · rename_i level
          cases h
          exact ⟨[], Gapped.toCode code, by rw [level]; rfl, by rw [found]; rfl, rfl⟩
        · cases h
      split at h
      · cases h
      · rename_i plain
        obtain ⟨tail, later, rfl⟩ := Option.map_eq_some_iff.1 h
        obtain ⟨between, rest, climbs, before, after⟩ := ih later
        simp only [Bool.or_eq_true, decide_eq_true_eq, not_or, Bool.not_eq_true,
          Nat.not_lt] at plain
        refine ⟨i :: between, rest, climb_cons_eq_some.2 ⟨plain.1, plain.2, climbs⟩, ?_, ?_⟩
        · rw [Gapped.toCode_some, before]
          rfl
        · rw [Gapped.toCode_some, after]
          rfl

/-- A store and the load behind it go away together. -/
theorem dropPair_eq_some {var : Nat} {code dropped : Gapped}
    (h : dropPair var code = some dropped) :
    ∃ front between rest, climb 0 between = some 0 ∧
      code.toCode = front ++ .store var :: (between ++ .load var :: rest) ∧
      dropped.toCode = front ++ (between ++ rest) := by
  induction code generalizing dropped with
  | nil => cases h
  | cons entry code ih =>
    cases entry with
    | none =>
      obtain ⟨tail, later, rfl⟩ := Option.map_eq_some_iff.1 h
      rw [Gapped.toCode_none, Gapped.toCode_none]
      exact ih later
    | some i =>
      rw [dropPair] at h
      split at h
      · rename_i found
        obtain ⟨tail, later, rfl⟩ := Option.map_eq_some_iff.1 h
        obtain ⟨between, rest, level, before, after⟩ := dropLoad_eq_some later
        refine ⟨[], between, rest, level, ?_, ?_⟩
        · rw [Gapped.toCode_some, before, found]
          rfl
        · rw [Gapped.toCode_none, after]
          rfl
      · obtain ⟨tail, later, rfl⟩ := Option.map_eq_some_iff.1 h
        obtain ⟨front, between, rest, level, before, after⟩ := ih later
        refine ⟨i :: front, between, rest, level, ?_, ?_⟩
        · rw [Gapped.toCode_some, before]
          rfl
        · rw [Gapped.toCode_some, after]
          rfl

/-- Dropping a store together with its load rewrites a window. -/
theorem dropPair_rewrites {temps : Marks} {var : Nat} (marked : temps.has var = true)
    {code dropped : Gapped} (h : dropPair var code = some dropped) :
    Rewrites (Cleans temps) code.toCode dropped.toCode := by
  obtain ⟨front, between, rest, level, before, after⟩ := dropPair_eq_some h
  refine ⟨front, _, between, rest, .pair var level marked, ?_, ?_⟩
  · rw [before]
    simp
  · rw [after, List.append_assoc]

/-- Dropping the stores of a variable rewrites windows one after another. -/
theorem dropStores_rewrites {temps : Marks} {var : Nat} (marked : temps.has var = true)
    (code : Gapped) :
    ReflTransGen (Rewrites (Cleans temps)) code.toCode (dropStores var code).1.toCode := by
  induction code with
  | nil => exact .refl
  | cons entry code ih =>
    by_cases found : entry = some (.store var)
    · -- The rest of the code first, then the store in front of it.
      rw [found]
      simp only [dropStores, if_true, Gapped.toCode_some]
      refine (cons_rewrites _ ih).tail ?_
      exact ⟨[], _, _, _, .store var marked, rfl, rfl⟩
    · cases entry with
      | none => simpa [dropStores] using ih
      | some i =>
        simp only [dropStores, found, if_false, Gapped.toCode_some]
        exact cons_rewrites i ih

/-- A variable that carries a value to one place is removed by rewriting windows. -/
theorem carryVar_rewrites {temps : Marks} (use : Use) (code : Gapped) {var : Nat}
    (marked : temps.has var = true) :
    ReflTransGen (Rewrites (Cleans temps)) code.toCode (carryVar use code var).1.toCode := by
  fun_cases carryVar use code var with
  | case1 _ dropped count run =>
    have dropped := dropStores_rewrites marked code
    rwa [run] at dropped
  | case2 _ _ dropped found => exact .single (dropPair_rewrites marked found)
  | case3 | case4 => exact .refl

theorem carryVars_rewrites {temps : Marks} (code : Gapped) {vars : List (Use × Nat)}
    (marked : ∀ entry ∈ vars, temps.has entry.2 = true) :
    ReflTransGen (Rewrites (Cleans temps)) code.toCode (carryVars code vars).1.toCode := by
  induction vars generalizing code with
  | nil => exact .refl
  | cons entry vars ih =>
    rw [List.forall_mem_cons] at marked
    exact (carryVar_rewrites entry.1 code marked.1).trans (ih _ marked.2)

/-- The variables that are looked at are marked. -/
theorem carriers_marked (temps : Marks) (code : List Instr) :
    ∀ entry ∈ carriers temps code, temps.has entry.2 = true := by
  intro entry mem
  have kept := (List.mem_filter.1 mem).2
  rw [Bool.and_eq_true] at kept
  exact kept.1

/-- Clearing stores to marked variables are dropped one after another. -/
theorem dropClears_rewrites (temps : Marks) (code : List Instr) :
    ReflTransGen (Rewrites (Cleans temps)) code (dropClears temps code) := by
  induction code with
  | nil => exact .refl
  | cons i rest ih =>
    rw [dropClears]
    split
    · rename_i redundant
      cases i with
      | clear var =>
        have marked := (Bool.and_eq_true_iff.1 redundant).1
        exact .head ⟨[], _, _, rest, .clear var marked, rfl, rfl⟩ ih
      | _ => simp [isRedundant] at redundant
    · exact cons_rewrites i ih

/-- What the removal of temporaries does to a block's code. -/
theorem cleanCode_rewrites (temps : Marks) (code : List Instr) :
    ReflTransGen (Rewrites (Cleans temps)) code (cleanCode temps code).1 := by
  have carried := carryVars_rewrites ((dropClears temps code).map some)
    (carriers_marked temps (dropClears temps code))
  rw [Gapped.toCode_map_some] at carried
  exact (dropClears_rewrites temps code).trans carried

/-! ## Bodies -/

/-- Every marked variable is a candidate for the peephole rules. -/
def Marks.Within (temps : Marks) (storage : Storage) : Prop :=
  ∀ var, temps.has var = true → ∃ v, storage.get? var = some v ∧ v.access.temporary = true

/-- Temporaries are candidates. -/
theorem temporaries_within (storage : Storage) (blocks : List Block) :
    (temporaries storage blocks).Within storage := by
  intro var marked
  rw [has_temporaries, Option.any_eq_true] at marked
  obtain ⟨v, listed, kept⟩ := marked
  exact ⟨v, listed, (Bool.and_eq_true_iff.1 kept).1⟩

/-- What is classified as a temporary is a candidate. -/
theorem classify_within {storage : Storage} {blocks : List Block} {temps : Marks}
    (h : classify storage blocks = .ok temps) : temps.Within storage := by
  rw [classify] at h
  split at h
  · cases h
  · cases h
    exact temporaries_within storage blocks

/-- The windows that the optimizer rewrites on a level. -/
inductive Windows (storage : Storage) (level : Level) : List Instr → List Instr → Prop
  | fold {temps : Marks} {old new : List Instr} (h : Folds storage temps old new)
      (within : temps.Within storage) : Windows storage level old new
  | clean {temps : Marks} {old new : List Instr} (allowed : level = .aggressive)
      (h : Cleans temps old new) (within : temps.Within storage) : Windows storage level old new

/-- No window of the optimizer names a new variable. -/
theorem Windows.narrows {storage : Storage} {level : Level} {old new : List Instr}
    (h : Windows storage level old new) : Narrows old new := by
  cases h with
  | fold folds => exact folds.narrows
  | clean _ cleans => exact cleans.narrows

/-- Rewriting one window of one block. -/
def BodyRewrites (window : List Instr → List Instr → Prop) (blocks blocks' : List Block) : Prop :=
  ∃ front b rest code, Rewrites window b.code code ∧
    blocks = front ++ b :: rest ∧ blocks' = front ++ { b with code } :: rest

variable {window : List Instr → List Instr → Prop}

/-- Blocks in front stay as they are. -/
theorem BodyRewrites.cons {blocks blocks' : List Block} (h : BodyRewrites window blocks blocks')
    (b : Block) : BodyRewrites window (b :: blocks) (b :: blocks') := by
  obtain ⟨front, c, rest, code, rewritten, rfl, rfl⟩ := h
  exact ⟨b :: front, c, rest, code, rewritten, rfl, rfl⟩

/-- Rewriting the first block and the others. -/
theorem cons_bodyRewrites {b : Block} {code : List Instr} {blocks blocks' : List Block}
    (first : ReflTransGen (Rewrites window) b.code code)
    (others : ReflTransGen (BodyRewrites window) blocks blocks') :
    ReflTransGen (BodyRewrites window) (b :: blocks) ({ b with code } :: blocks') := by
  have head : ReflTransGen (BodyRewrites window) (b :: blocks) ({ b with code } :: blocks) :=
    first.lift (fun code => { b with code } :: blocks) fun before after step =>
      ⟨[], { b with code := before }, blocks, after, step, rfl, rfl⟩
  exact head.trans (others.lift _ fun _ _ step => step.cons _)

/-- What each window keeps of all its instructions is kept of all instructions of the body. -/
theorem BodyRewrites.forall_mem {P : Instr → Prop}
    (kept : ∀ {old new}, window old new → (∀ i ∈ old, P i) → ∀ i ∈ new, P i)
    {blocks blocks' : List Block} (h : BodyRewrites window blocks blocks')
    (all : ∀ b ∈ blocks, ∀ i ∈ b.code, P i) : ∀ b ∈ blocks', ∀ i ∈ b.code, P i := by
  obtain ⟨front, b, rest, code, rewritten, rfl, rfl⟩ := h
  rw [List.forall_mem_append, List.forall_mem_cons] at all ⊢
  exact ⟨all.1, rewritten.forall_mem kept all.2.1, all.2.2⟩

/-- The same for many steps. -/
theorem forall_mem_of_bodyRewrites {P : Instr → Prop}
    (kept : ∀ {old new}, window old new → (∀ i ∈ old, P i) → ∀ i ∈ new, P i)
    {blocks blocks' : List Block} (chain : ReflTransGen (BodyRewrites window) blocks blocks')
    (all : ∀ b ∈ blocks, ∀ i ∈ b.code, P i) : ∀ b ∈ blocks', ∀ i ∈ b.code, P i := by
  induction chain with
  | refl => exact all
  | tail _ step ih => exact step.forall_mem kept ih

/-- Folding a body rewrites windows of its blocks. -/
theorem foldBlocks_rewrites (storage : Storage) (temps : Marks) (blocks : List Block) :
    ReflTransGen (BodyRewrites (Folds storage temps)) blocks
      (foldBlocks storage temps blocks).1 := by
  fun_induction foldBlocks storage temps blocks with
  | case1 => exact .refl
  | case2 b blocks code unlisted folded =>
    have first := foldCode_rewrites storage temps b.code
    rw [folded] at first
    exact cons_bodyRewrites first .refl
  | case3 b blocks code here folded rest later run ih =>
    have first := foldCode_rewrites storage temps b.code
    rw [folded] at first
    rw [run] at ih
    exact cons_bodyRewrites first ih

/-- Removing temporaries from a body rewrites windows of its blocks. -/
theorem cleanBlocks_rewrites (temps : Marks) (blocks : List Block) :
    ReflTransGen (BodyRewrites (Cleans temps)) blocks (cleanBlocks temps blocks).1 := by
  induction blocks with
  | nil => exact .refl
  | cons b blocks ih => exact cons_bodyRewrites (cleanCode_rewrites temps b.code) ih

/-- More windows may be allowed in a body. -/
theorem BodyRewrites.mono {window' : List Instr → List Instr → Prop}
    (wider : ∀ {old new}, window old new → window' old new) {blocks blocks' : List Block}
    (h : BodyRewrites window blocks blocks') : BodyRewrites window' blocks blocks' := by
  obtain ⟨front, b, rest, code, rewritten, rfl, rfl⟩ := h
  exact ⟨front, b, rest, code, rewritten.mono wider, rfl, rfl⟩

/-- On each level, cleaning up rewrites the windows of that level. -/
theorem cleanAt_rewrites {storage : Storage} (level : Level) {temps : Marks}
    (within : temps.Within storage) (blocks : List Block) :
    ReflTransGen (BodyRewrites (Windows storage level)) blocks
      (cleanAt level temps blocks).1 := by
  cases level with
  | aggressive =>
    exact ReflTransGen.mono (fun _ _ step => step.mono fun h => .clean rfl h within) _ _
      (cleanBlocks_rewrites temps blocks)
  | off | fold => exact .refl

/-- A round rewrites windows of its level. -/
theorem round_rewrites (storage : Storage) (level : Level) (blocks : List Block) :
    ReflTransGen (BodyRewrites (Windows storage level)) blocks
      (round storage level blocks).1 := by
  unfold round
  split
  · exact .refl
  · rename_i temps classified
    have within := classify_within classified
    have folds : ReflTransGen (BodyRewrites (Windows storage level)) blocks
        (foldBlocks storage temps blocks).1 :=
      ReflTransGen.mono (fun _ _ step => step.mono fun h => .fold h within) _ _
        (foldBlocks_rewrites storage temps blocks)
    split
    · rename_i folded unlisted run
      rwa [run] at folds
    · rename_i folded stats run
      rw [run] at folds
      exact folds.trans (cleanAt_rewrites level within folded)

theorem settle_rewrites (storage : Storage) (level : Level) (blocks : List Block) :
    ReflTransGen (BodyRewrites (Windows storage level)) blocks
      (settle storage level blocks).1 := by
  fun_induction settle storage level blocks with
  | case1 blocks next unlisted ran =>
    have first := round_rewrites storage level blocks
    rwa [ran] at first
  | case2 blocks next stats ran unchanged =>
    have first := round_rewrites storage level blocks
    rwa [ran] at first
  | case3 blocks next stats ran changed done later run ih =>
    have first := round_rewrites storage level blocks
    rw [ran] at first
    rw [run] at ih
    exact first.trans ih

/-- Whatever the optimizer does to a body, it does by rewriting one window after another. -/
theorem optimize_rewrites (storage : Storage) (level : Level) (blocks : List Block) :
    ReflTransGen (BodyRewrites (Windows storage level)) blocks
      (optimize storage level blocks).1 := by
  cases level with
  | off => exact .refl
  | fold | aggressive => exact settle_rewrites storage _ blocks

end Stackwise.Peephole
