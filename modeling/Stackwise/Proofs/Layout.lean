import Mathlib.Order.Bounds.Basic
import Mathlib.Order.MinMax
import Stackwise.Proofs.Source.Recursion

/-!
# Natural layout without a bound

`Natural p ty x` says what natural layout gives a type when numbers have no bound: each field at the
next multiple of its alignment, a structure padded to its largest one, an array as long as its
elements together.  It speaks of least numbers only, and the computation is not used in it.

What `extent?` gives is natural (`extent?_natural`): no size is ever wrong.  Where a number does not
fit, an array has no size, but a structure stops the computation.  `Outcome` says once how the
fields of a structure can turn out, and `RowOutcome` how an array can; from this follows that only
offsets that do not fit stop the computation (`bursts_of_error`), and that they always do
(`Natural.extent?_cases`), so that there are types on which it stops (`wide_overflows`).
-/

namespace Stackwise

open Source

/-! ## Natural layout -/

/-- The numbers of the types of the fields or of the elements. -/
def Source.Ty.held : Ty → List Nat
  | array element _ | vector element _ => [element]
  | struct _ fields => fields
  | _ => []

/-- The type `part` is the type itself, or is met on the way from it through fields and elements. -/
inductive Source.TypePool.Holds (p : TypePool) : (ty part : Ty) → Prop
  | self {ty : Ty} : Holds p ty ty
  | inner {id : Nat} {ty inner part : Ty} (mem : id ∈ ty.held) (found : p.get? id = some inner)
      (within : Holds p inner part) : Holds p ty part

/-- Whether a type is a number of elements in a row. -/
def Source.Ty.isRow : Ty → Bool
  | array _ _ | vector _ _ => true
  | _ => false

/-- Whether a type is a structure. -/
def Source.Ty.isStruct : Ty → Bool
  | struct _ _ => true
  | _ => false

/-- Whether a type is a pointer or has no data. -/
def Source.Ty.isUnsized : Ty → Bool
  | ptr | void | function _ _ _ | label | token | metadata => true
  | _ => false

/-- What a type holds is among its components; a pointer holds nothing. -/
theorem Source.Ty.held_subset_components (ty : Ty) :
    ∀ part ∈ ty.held, part ∈ ty.components := by
  cases ty <;> simp [Ty.held, Ty.components]

namespace Layout

/-- The least multiple of `align` from `offset` on. -/
def NextMultiple (offset align next : Nat) : Prop := IsLeast {m | align ∣ m ∧ offset ≤ m} next

/-- Fields placed behind `soFar`, each at the next multiple of its alignment, reach up to `last`. -/
inductive Placed : (soFar : Extent) → (fields : List Extent) → (last : Extent) → Prop
  | nil {soFar : Extent} : Placed soFar [] soFar
  | cons {soFar field last : Extent} {fields : List Extent} {start : Nat}
      (aligned : NextMultiple soFar.size field.align start)
      (later : Placed ⟨start + field.size, max soFar.align field.align⟩ fields last) :
      Placed soFar (field :: fields) last

/-- The extent of a type in natural layout, in numbers without a bound. -/
inductive Natural (p : TypePool) : Ty → Extent → Prop
  | int {bits power : Nat} (least : IsLeast {k | bits ≤ 8 * Word.count k} power) :
      Natural p (.int bits) ⟨Word.count power, min (Word.count power) 16⟩
  | float : Natural p .float ⟨4, 4⟩
  | double : Natural p .double ⟨8, 8⟩
  | array {element length : Nat} {ty : Ty} {x : Extent} (found : p.get? element = some ty)
      (inner : Natural p ty x) : Natural p (.array element length) ⟨x.size * length, x.align⟩
  | vector {element length : Nat} {ty : Ty} {x : Extent} (found : p.get? element = some ty)
      (inner : Natural p ty x) : Natural p (.vector element length) ⟨x.size * length, x.align⟩
  | struct {name : Option String} {fields : List Nat} {types : Nat → Ty} {layout : Nat → Extent}
      {last : Extent} {size : Nat} (found : ∀ field ∈ fields, p.get? field = some (types field))
      (each : ∀ field ∈ fields, Natural p (types field) (layout field))
      (placed : Placed ⟨0, 1⟩ (fields.map layout) last)
      (padded : NextMultiple last.size last.align size) :
      Natural p (.struct name fields) ⟨size, last.align⟩

/-- The natural sizes of all types of a kind that are met within a type are below the bound. -/
def Fits (p : TypePool) (kind : Ty → Bool) (ty : Ty) : Prop :=
  ∀ part y, p.Holds ty part → kind part = true → Natural p part y → y.size < sizeLimit

/-- A structure one of whose fields ends at the bound or beyond, in numbers without a bound.  The
fields behind that one do not matter. -/
def RunsOver (p : TypePool) (ty : Ty) : Prop :=
  ∃ name taken rest, ∃ types : Nat → Ty, ∃ layout : Nat → Extent, ∃ last,
    ty = .struct name (taken ++ rest) ∧
    (∀ field ∈ taken, p.get? field = some (types field) ∧
      Natural p (types field) (layout field)) ∧
    Placed ⟨0, 1⟩ (taken.map layout) last ∧ sizeLimit ≤ last.size

/-- A structure that ends at the bound or beyond once it is padded. -/
def PadsOver (p : TypePool) (ty : Ty) : Prop :=
  ty.isStruct = true ∧ ∃ x, Natural p ty x ∧ sizeLimit ≤ x.size

/-- An array or a vector whose elements together do not fit below the bound. -/
def Overflows (p : TypePool) (ty : Ty) : Prop :=
  ∃ element length x, (ty = .array element length ∨ ty = .vector element length) ∧
    extent? p element = .ok (some x) ∧ sizeLimit ≤ x.size * length

/-! ## Least multiples and powers -/

/-- Rounding up gives the next multiple. -/
theorem nextMultiple_roundUp {align : Nat} (offset : Nat) (pos : 0 < align) :
    NextMultiple offset align (roundUp offset align) := by
  rw [roundUp]
  split
  next whole => exact ⟨⟨Nat.dvd_of_mod_eq_zero whole, le_rfl⟩, fun m hm => hm.2⟩
  next rest =>
    have below := Nat.mod_lt offset pos
    have parts := Nat.div_add_mod offset align
    refine ⟨⟨⟨offset / align + 1, ?_⟩, Nat.le_add_right ..⟩, ?_⟩
    · rw [Nat.mul_add]
      omega
    · rintro m ⟨⟨k, rfl⟩, above⟩
      -- A multiple that is not below `offset` lies above the last one that is.
      have more : offset / align < k := by
        by_contra less
        have := Nat.mul_le_mul_left align (Nat.le_of_not_lt less)
        omega
      have := Nat.mul_le_mul_left align more
      rw [Nat.succ_eq_add_one, Nat.mul_add] at this
      omega

/-- A number is at most a power of two if the logarithm of its predecessor is below the exponent. -/
theorem le_count_iff {n k : Nat} (h : 1 < n) : n ≤ Word.count k ↔ Nat.log2 (n - 1) < k := by
  rw [Nat.log2_lt (by omega)]
  change n ≤ Word.count k ↔ n - 1 < Word.count k
  omega

/-- `powerFrom` gives the least power of two from a number on. -/
theorem powerFrom_least (n : Nat) :
    ∃ power, powerFrom n = Word.count power ∧ IsLeast {k | n ≤ Word.count k} power := by
  rw [powerFrom]
  split
  next small => exact ⟨0, rfl, small, fun k _ => Nat.zero_le k⟩
  next large =>
    refine ⟨_, rfl, (le_count_iff (by omega)).2 (Nat.lt_succ_self _), fun k enough => ?_⟩
    exact (le_count_iff (by omega)).1 enough

/-- The size and the alignment of a number are natural. -/
theorem ofInt_natural (p : TypePool) (bits : Nat) : Natural p (.int bits) (ofInt bits) := by
  obtain ⟨power, same, least⟩ := powerFrom_least ((bits + 7) / 8)
  have bytes (k : Nat) : (bits + 7) / 8 ≤ Word.count k ↔ bits ≤ 8 * Word.count k := by omega
  simp only [bytes] at least
  rw [ofInt, same]
  exact .int least

/-- Alignments are positive, as they divide 16. -/
theorem pos_of_dvd_sixteen {a : Nat} (h : a ∣ 16) : 0 < a := Nat.pos_of_dvd_of_pos h (by decide)

theorem max_dvd {a b n : Nat} (ha : a ∣ n) (hb : b ∣ n) : max a b ∣ n := by
  rcases max_choice a b with h | h <;> rw [h] <;> assumption

theorem count_monotone : Monotone Word.count :=
  fun _ _ le => Nat.pow_le_pow_right Nat.zero_lt_two le

/-- A power of two divides every larger one. -/
theorem count_dvd_count {i j : Nat} (le : i ≤ j) : Word.count i ∣ Word.count j :=
  Nat.pow_dvd_pow 2 le

/-- The alignment of a number divides 16. -/
theorem ofInt_align_dvd (bits : Nat) : (ofInt bits).align ∣ 16 := by
  obtain ⟨power, same, -⟩ := powerFrom_least ((bits + 7) / 8)
  rw [ofInt, same]
  change min (Word.count power) (Word.count 4) ∣ Word.count 4
  rw [← count_monotone.map_min]
  exact count_dvd_count (min_le_right power 4)

/-! ## One extent for each type -/

/-- The fields determine how far they reach. -/
theorem Placed.unique {soFar last last' : Extent} {fields : List Extent}
    (h : Placed soFar fields last) (h' : Placed soFar fields last') : last = last' := by
  induction h with
  | nil =>
    cases h'
    rfl
  | cons aligned _ ih =>
    obtain _ | ⟨aligned', later'⟩ := h'
    rw [← aligned.unique aligned'] at later'
    exact ih later'

/-- Natural layout leaves no choice. -/
theorem Natural.unique {p : TypePool} {ty : Ty} {x y : Extent} (h : Natural p ty x)
    (h' : Natural p ty y) : x = y := by
  induction h generalizing y with
  | int least =>
    obtain ⟨least'⟩ := h'
    rw [least.unique least']
  | float | double =>
    cases h'
    rfl
  | array found _ ih | vector found _ ih =>
    obtain _ | _ | _ | ⟨found', inner'⟩ | ⟨found', inner'⟩ := h'
    cases found.symm.trans found'
    rw [ih inner']
  | @struct name fields types layout last size found each placed padded ih =>
    obtain _ | _ | _ | _ | _ | ⟨found', each', placed', padded'⟩ := h'
    rename_i types' layout' last' size'
    have same : fields.map layout = fields.map layout' := by
      refine List.map_congr_left fun field mem => ih field mem ?_
      rw [Option.some.inj ((found field mem).symm.trans (found' field mem))]
      exact each' field mem
    rw [← same] at placed'
    cases placed.unique placed'
    rw [padded.unique padded']

/-- A type that has a natural extent holds nothing without data. -/
theorem Natural.not_isUnsized {p : TypePool} {ty part : Ty} {x : Extent} (h : Natural p ty x)
    (within : p.Holds ty part) : part.isUnsized = false := by
  induction within generalizing x with
  | self => cases h <;> rfl
  | inner mem found _ ih =>
    cases h with
    | int | float | double => cases mem
    | array found' inner | vector found' inner =>
      cases List.mem_singleton.1 mem
      cases found.symm.trans found'
      exact ih inner
    | struct found' each =>
      cases found.symm.trans (found' _ mem)
      exact ih (each _ mem)

/-! ## Structures -/

/-- An extent is accepted, as it is, if it ends below the bound. -/
theorem fitting_eq_ok_iff {e f : Extent} : fitting e = .ok f ↔ e.size < sizeLimit ∧ f = e := by
  rw [fitting]
  split
  next fits => simp [fits, eq_comm]
  next large => simp [large]

/-- An extent that ends at the bound or beyond stops the computation. -/
theorem fitting_eq_error {e : Extent} (large : sizeLimit ≤ e.size) :
    fitting e = .error .offset := if_neg (Nat.not_lt.2 large)

/-- How the extent of fields behind an offset can turn out. -/
inductive Outcome (extent : Nat → Except Overflow (Option Extent)) (soFar : Extent)
    (fields : List Nat) : Except Overflow (Option Extent) → Prop
  /-- All fields are known, and with the padding they fit. -/
  | known (es : List Extent) (each : fields.map extent = es.map fun e => .ok (some e))
      (fits : (pad (es.foldl place soFar)).size < sizeLimit) :
      Outcome extent soFar fields (.ok (some (pad (es.foldl place soFar))))
  /-- A field is not known. -/
  | unknown {field : Nat} (mem : field ∈ fields) (here : extent field = .ok none) :
      Outcome extent soFar fields (.ok none)
  /-- A field stops the computation. -/
  | stops {field : Nat} {overflow : Overflow} (mem : field ∈ fields)
      (here : extent field = .error overflow) : Outcome extent soFar fields (.error overflow)
  /-- The fields up to some point do not fit, or all of them with the padding. -/
  | exceeds (taken rest : List Nat) (es : List Extent) (split : fields = taken ++ rest)
      (each : taken.map extent = es.map fun e => .ok (some e))
      (large : sizeLimit ≤ (es.foldl place soFar).size ∨
        rest = [] ∧ sizeLimit ≤ (pad (es.foldl place soFar)).size) :
      Outcome extent soFar fields (.error .offset)

/-- A field whose extent is known is placed, and the others behind it. -/
theorem ofFields_cons {extent : Nat → Except Overflow (Option Extent)} {field : Nat} {e : Extent}
    (here : extent field = .ok (some e)) (soFar : Extent) (fields : List Nat) :
    ofFields extent soFar (field :: fields) =
      (fitting (place soFar e) >>= fun next => ofFields extent next fields) := by
  rw [ofFields, here]
  rfl

/-- How the fields behind the first one turn out is how all of them do. -/
theorem Outcome.cons {extent : Nat → Except Overflow (Option Extent)} {soFar e : Extent}
    {field : Nat} {fields : List Nat} {outcome : Except Overflow (Option Extent)}
    (here : extent field = .ok (some e)) (h : Outcome extent (place soFar e) fields outcome) :
    Outcome extent soFar (field :: fields) outcome := by
  cases h with
  | known es each fits =>
    refine .known (e :: es) ?_ fits
    rw [List.map_cons, List.map_cons, here, each]
  | unknown mem none => exact .unknown (List.mem_cons_of_mem _ mem) none
  | stops mem error => exact .stops (List.mem_cons_of_mem _ mem) error
  | exceeds taken rest es split each large =>
    refine .exceeds (field :: taken) rest (e :: es) (congrArg (field :: ·) split) ?_ large
    rw [List.map_cons, List.map_cons, here, each]

/-- There are no other outcomes. -/
theorem ofFields_outcome (extent : Nat → Except Overflow (Option Extent)) (soFar : Extent)
    (fields : List Nat) : Outcome extent soFar fields (ofFields extent soFar fields) := by
  induction fields generalizing soFar with
  | nil =>
    rw [ofFields]
    rcases Nat.lt_or_ge (pad soFar).size sizeLimit with fits | large
    · rw [fitting_eq_ok_iff.2 ⟨fits, rfl⟩]
      exact .known [] rfl fits
    · rw [fitting_eq_error large]
      exact .exceeds [] [] [] rfl rfl (.inr ⟨rfl, large⟩)
  | cons field fields ih =>
    cases here : extent field with
    | error overflow =>
      rw [ofFields, here]
      exact .stops List.mem_cons_self here
    | ok known =>
      cases known with
      | none =>
        rw [ofFields, here]
        exact .unknown List.mem_cons_self here
      | some e =>
        rw [ofFields_cons here]
        rcases Nat.lt_or_ge (place soFar e).size sizeLimit with fits | large
        · rw [fitting_eq_ok_iff.2 ⟨fits, rfl⟩]
          exact (ih (place soFar e)).cons here
        · rw [fitting_eq_error large]
          refine .exceeds [field] fields [e] rfl ?_ (.inl large)
          rw [List.map_singleton, List.map_singleton, here]

/-- If fields have an extent together, then each has one, and theirs is what placing them one after
another and padding gives, below the bound. -/
theorem ofFields_eq_some {extent : Nat → Except Overflow (Option Extent)} {soFar e : Extent}
    {fields : List Nat} (h : ofFields extent soFar fields = .ok (some e)) :
    ∃ es : List Extent, fields.map extent = (es.map fun e => .ok (some e)) ∧
      (pad (es.foldl place soFar)).size < sizeLimit ∧ e = pad (es.foldl place soFar) := by
  have outcome := ofFields_outcome extent soFar fields
  rw [h] at outcome
  cases outcome with
  | known es each fits => exact ⟨es, each, fits, rfl⟩

/-! ## Extents are natural -/

/-- Placing extents one behind another is what natural layout asks for. -/
theorem placed_foldl (soFar : Extent) {es : List Extent} (divides : ∀ e ∈ es, e.align ∣ 16) :
    Placed soFar es (es.foldl place soFar) := by
  induction es generalizing soFar with
  | nil => exact .nil
  | cons e es ih =>
    obtain ⟨here, later⟩ := List.forall_mem_cons.1 divides
    exact .cons (nextMultiple_roundUp _ (pos_of_dvd_sixteen here)) (ih (place soFar e) later)

/-- The alignment of fields together divides 16 if that of each does. -/
theorem align_foldl_dvd {soFar : Extent} {es : List Extent} (before : soFar.align ∣ 16)
    (divides : ∀ e ∈ es, e.align ∣ 16) : (es.foldl place soFar).align ∣ 16 := by
  induction es generalizing soFar with
  | nil => exact before
  | cons e es ih =>
    obtain ⟨here, later⟩ := List.forall_mem_cons.1 divides
    exact ih (max_dvd before here) later

/-- How the extent of elements in a row can turn out. -/
inductive RowOutcome (known : Except Overflow (Option Extent)) (length : Nat) :
    Except Overflow (Option Extent) → Prop
  | fits (x : Extent) (here : known = .ok (some x)) (fits : x.size * length < sizeLimit) :
      RowOutcome known length (.ok (some ⟨x.size * length, x.align⟩))
  | large (x : Extent) (here : known = .ok (some x)) (large : sizeLimit ≤ x.size * length) :
      RowOutcome known length (.ok none)
  | unknown (here : known = .ok none) : RowOutcome known length (.ok none)
  | stops {overflow : Overflow} (here : known = .error overflow) :
      RowOutcome known length (.error overflow)

/-- The extent of elements in a row turns out in one of the ways that `RowOutcome` lists. -/
theorem row_outcome (known : Except Overflow (Option Extent)) (length : Nat) :
    RowOutcome known length (do return (← known).bind (repeated · length)) := by
  cases known with
  | error overflow => exact .stops rfl
  | ok known =>
    cases known with
    | none => exact .unknown rfl
    | some x =>
      change RowOutcome _ _ (.ok (repeated x length))
      rw [repeated]
      split
      next fits => exact .fits x rfl fits
      next large => exact .large x rfl (Nat.not_lt.1 large)

/-- If elements in a row have an extent, then the element has one, and the row takes as many times
its size, below the bound. -/
theorem row_eq_some {known : Except Overflow (Option Extent)} {length : Nat} {e : Extent}
    (h : (do return (← known).bind (repeated · length)) = Except.ok (some e)) :
    ∃ x, known = .ok (some x) ∧ x.size * length < sizeLimit ∧ e = ⟨x.size * length, x.align⟩ := by
  have outcome := row_outcome known length
  rw [h] at outcome
  cases outcome with
  | fits x here fits => exact ⟨x, here, fits, rfl⟩

/-- The extent that was found, or that of nothing. -/
def extentIn : Except Overflow (Option Extent) → Extent
  | .ok (some e) => e
  | _ => ⟨0, 1⟩

section Known

variable {extent : Nat → Except Overflow (Option Extent)} {fields : List Nat} {es : List Extent}
  (each : fields.map extent = es.map fun e => .ok (some e))

include each

/-- Extents that are all known are those that were found. -/
theorem eq_map_extentIn : es = fields.map fun field => extentIn (extent field) := by
  have same := congrArg (List.map extentIn) each
  rw [List.map_map, List.map_map] at same
  exact (List.map_id es).symm.trans same.symm

/-- Each of the fields has the extent that was found for it. -/
theorem known_of_mem {field : Nat} (mem : field ∈ fields) :
    extent field = .ok (some (extentIn (extent field))) := by
  obtain ⟨e, -, same⟩ := List.mem_map.1 (each ▸ List.mem_map_of_mem mem)
  rw [← same, extentIn]

end Known

section Types

variable {p : TypePool} {depth id : Nat} {ty : Ty} {e x : Extent}

/-- What is computed for some fields of a structure is where natural layout places them, if each of
them has its natural extent. -/
theorem placed_of_natural {extent : Nat → Except Overflow (Option Extent)} {fields : List Nat}
    {es : List Extent} (each : fields.map extent = es.map fun e => .ok (some e))
    (natural : ∀ field e, extent field = .ok (some e) →
      ∃ ty, p.get? field = some ty ∧ Natural p ty e ∧ e.align ∣ 16) :
    ∃ types : Nat → Ty, ∃ layout : Nat → Extent,
      (∀ field ∈ fields, p.get? field = some (types field) ∧
        Natural p (types field) (layout field)) ∧
      Placed ⟨0, 1⟩ (fields.map layout) (es.foldl place ⟨0, 1⟩) ∧
      (es.foldl place ⟨0, 1⟩).align ∣ 16 := by
  have known (field : Nat) (mem : field ∈ fields) :=
    natural field _ (known_of_mem each mem)
  have divides : ∀ e ∈ es, e.align ∣ 16 := by
    rw [eq_map_extentIn each]
    refine List.forall_mem_map.2 fun field mem => ?_
    obtain ⟨_, _, _, divides⟩ := known field mem
    exact divides
  refine ⟨fun field => (p.get? field).getD .void, fun field => extentIn (extent field), ?_, ?_,
    align_foldl_dvd (Nat.one_dvd 16) divides⟩
  · intro field mem
    obtain ⟨ty, found, isNatural, -⟩ := known field mem
    dsimp only
    rw [found]
    exact ⟨rfl, isNatural⟩
  · rw [← eq_map_extentIn each]
    exact placed_foldl _ divides

/-- Whatever extent is computed for a type is its natural one. -/
theorem extentWithin_natural (h : extentWithin p depth id = .ok (some e)) :
    ∃ ty, p.get? id = some ty ∧ Natural p ty e ∧ e.align ∣ 16 := by
  induction depth generalizing id e with
  | zero => cases h
  | succ depth ih =>
    rw [extentWithin] at h
    cases here : p.get? id with
    | none =>
      rw [here] at h
      cases h
    | some ty =>
      rw [here] at h
      refine ⟨ty, rfl, ?_⟩
      cases ty with
      | void | ptr | function | label | token | metadata => cases h
      | int bits =>
        cases h
        exact ⟨ofInt_natural p bits, ofInt_align_dvd bits⟩
      | float =>
        cases h
        exact ⟨.float, by decide⟩
      | double =>
        cases h
        exact ⟨.double, by decide⟩
      | array element length =>
        obtain ⟨x, given, -, rfl⟩ := row_eq_some h
        obtain ⟨ty, found, natural, divides⟩ := ih given
        exact ⟨.array found natural, divides⟩
      | vector element length =>
        obtain ⟨x, given, -, rfl⟩ := row_eq_some h
        obtain ⟨ty, found, natural, divides⟩ := ih given
        exact ⟨.vector found natural, divides⟩
      | struct name fields =>
        obtain ⟨es, each, -, rfl⟩ := ofFields_eq_some h
        obtain ⟨types, layout, known, placed, divides⟩ :=
          placed_of_natural each fun _ _ => ih
        have padded := nextMultiple_roundUp (es.foldl place ⟨0, 1⟩).size
          (pos_of_dvd_sixteen divides)
        exact ⟨.struct (fun field mem => (known field mem).1) (fun field mem => (known field mem).2)
          placed padded, divides⟩

/-! ## Why the computation stops -/

/-- Known fields that do not fit run over, or do once they are padded. -/
theorem runsOver_or_padsOver {extent : Nat → Except Overflow (Option Extent)}
    {name : Option String} {taken rest : List Nat} {es : List Extent}
    (each : taken.map extent = es.map fun e => .ok (some e))
    (large : sizeLimit ≤ (es.foldl place ⟨0, 1⟩).size ∨
      rest = [] ∧ sizeLimit ≤ (pad (es.foldl place ⟨0, 1⟩)).size)
    (natural : ∀ field e, extent field = .ok (some e) →
      ∃ ty, p.get? field = some ty ∧ Natural p ty e ∧ e.align ∣ 16) :
    RunsOver p (.struct name (taken ++ rest)) ∨ PadsOver p (.struct name (taken ++ rest)) := by
  obtain ⟨types, layout, known, placed, divides⟩ := placed_of_natural each natural
  rcases large with runs | ⟨rfl, pads⟩
  · exact .inl ⟨name, taken, rest, types, layout, _, rfl, known, placed, runs⟩
  · rw [List.append_nil]
    have padded := nextMultiple_roundUp (es.foldl place ⟨0, 1⟩).size (pos_of_dvd_sixteen divides)
    exact .inr ⟨rfl, _, .struct (fun field mem => (known field mem).1)
      (fun field mem => (known field mem).2) placed padded, pads⟩

/-- Only a structure that runs over, with or without its padding, stops the computation. -/
theorem bursts_of_error {overflow : Overflow} (h : extentWithin p depth id = .error overflow) :
    ∃ ty part, p.get? id = some ty ∧ p.Holds ty part ∧ (RunsOver p part ∨ PadsOver p part) := by
  induction depth generalizing id with
  | zero => cases h
  | succ depth ih =>
    rw [extentWithin] at h
    cases here : p.get? id with
    | none =>
      rw [here] at h
      cases h
    | some ty =>
      rw [here] at h
      cases ty with
      | void | ptr | function | label | token | metadata | int | float | double => cases h
      | array element length | vector element length =>
        have outcome := row_outcome (extentWithin p depth element) length
        dsimp only at h
        rw [h] at outcome
        obtain _ | _ | _ | ⟨inner⟩ := outcome
        obtain ⟨ty, part, found, within, why⟩ := ih inner
        exact ⟨_, part, rfl, .inner (List.mem_singleton_self _) found within, why⟩
      | struct name fields =>
        have outcome := ofFields_outcome (extentWithin p depth) ⟨0, 1⟩ fields
        dsimp only at h
        rw [h] at outcome
        cases outcome with
        | stops mem inner =>
          obtain ⟨ty, part, found, within, why⟩ := ih inner
          exact ⟨_, part, rfl, .inner mem found within, why⟩
        | exceeds taken rest es split each large =>
          cases split
          exact ⟨_, _, rfl, .self,
            runsOver_or_padsOver each large fun _ _ => extentWithin_natural⟩

/-! ## Natural sizes at the bound -/

/-- What is met within a type in natural layout has an extent itself. -/
theorem Natural.exists_of_holds {part : Ty} (h : Natural p ty x) (within : p.Holds ty part) :
    ∃ y, Natural p part y := by
  induction within generalizing x with
  | self => exact ⟨x, h⟩
  | inner mem found _ ih =>
    cases h with
    | int | float | double => cases mem
    | array found' inner | vector found' inner =>
      cases List.mem_singleton.1 mem
      cases found.symm.trans found'
      exact ih inner
    | struct found' each =>
      cases found.symm.trans (found' _ mem)
      exact ih (each _ mem)

/-- Fields reach at least as far as what they are placed behind. -/
theorem Placed.size_le {soFar last : Extent} {fields : List Extent}
    (h : Placed soFar fields last) : soFar.size ≤ last.size := by
  induction h with
  | nil => exact le_rfl
  | cons aligned _ ih => exact aligned.1.2.trans ((Nat.le_add_right ..).trans ih)

/-- Fields can be placed in two parts. -/
theorem Placed.of_append {soFar last : Extent} {front back : List Extent}
    (h : Placed soFar (front ++ back) last) :
    ∃ middle, Placed soFar front middle ∧ Placed middle back last := by
  induction front generalizing soFar with
  | nil => exact ⟨soFar, .nil, h⟩
  | cons field front ih =>
    obtain _ | ⟨aligned, later⟩ := h
    obtain ⟨middle, first, second⟩ := ih later
    exact ⟨middle, .cons aligned first, second⟩

/-- The size of a structure reaches as far as any of its fields. -/
theorem RunsOver.le_size (h : RunsOver p ty) (natural : Natural p ty x) : sizeLimit ≤ x.size := by
  obtain ⟨name, taken, rest, types, layout, last, rfl, known, placed, large⟩ := h
  obtain _ | _ | _ | _ | _ | @⟨_, _, types', layout', last', size, found, each, all, padded⟩ :=
    natural
  rw [List.map_append] at all
  obtain ⟨middle, first, second⟩ := all.of_append
  have same : taken.map layout' = taken.map layout := by
    refine List.map_congr_left fun field mem => ?_
    have inside := List.mem_append_left rest mem
    obtain ⟨there, natural⟩ := known field mem
    rw [← Option.some.inj ((found field inside).symm.trans there)] at natural
    exact (each field inside).unique natural
  rw [same] at first
  cases first.unique placed
  exact large.trans (second.size_le.trans padded.1.2)

/-- A structure that ends at the bound once it is padded has a size at or beyond it. -/
theorem PadsOver.le_size (h : PadsOver p ty) (natural : Natural p ty x) : sizeLimit ≤ x.size := by
  obtain ⟨-, y, other, large⟩ := h
  rwa [natural.unique other]

theorem RunsOver.isStruct (h : RunsOver p ty) : ty.isStruct = true := by
  obtain ⟨name, taken, rest, types, layout, last, rfl, -⟩ := h
  rfl

/-- An extent that is given is natural, and its alignment divides 16. -/
theorem extent?_natural (here : p.get? id = some ty) (given : extent? p id = .ok (some e)) :
    Natural p ty e ∧ e.align ∣ 16 := by
  obtain ⟨_, here', natural⟩ := extentWithin_natural given
  cases here.symm.trans here'
  exact natural

theorem Overflows.isRow (h : Overflows p ty) : ty.isRow = true := by
  obtain ⟨element, length, x, rfl | rfl, -⟩ := h <;> rfl

/-- Elements that do not fit below the bound have a size at or beyond it together. -/
theorem Overflows.le_size (h : Overflows p ty) (natural : Natural p ty x) :
    sizeLimit ≤ x.size := by
  obtain ⟨element, length, y, rfl | rfl, given, large⟩ := h
  all_goals
    obtain _ | _ | _ | ⟨found, inner⟩ | ⟨found, inner⟩ := natural
    rwa [inner.unique (extent?_natural found given).1]

/-- A type that holds a structure that runs over holds one that does not fit. -/
theorem Natural.not_fits_isStruct {part : Ty} (h : Natural p ty x) (within : p.Holds ty part)
    (why : RunsOver p part ∨ PadsOver p part) : ¬ Fits p Ty.isStruct ty := by
  intro fits
  obtain ⟨y, natural⟩ := h.exists_of_holds within
  rcases why with runs | pads
  · exact Nat.not_lt.2 (runs.le_size natural) (fits part y within runs.isStruct natural)
  · exact Nat.not_lt.2 (pads.le_size natural) (fits part y within pads.1 natural)

/-! ## Types with and without a size -/

section Ordered

variable (ordered : p.Ordered) (here : p.get? id = some ty)

include ordered here

/-- All that a type with an extent holds has one. -/
theorem extent?_of_held (given : extent? p id = .ok (some e)) {part : Nat}
    (mem : part ∈ ty.held) : ∃ x, extent? p part = .ok (some x) := by
  rw [(extent?_ends ordered).equation, extentLevel, here] at given
  cases ty with
  | array element length | vector element length =>
    cases List.mem_singleton.1 mem
    obtain ⟨x, known, -⟩ := row_eq_some given
    exact ⟨x, known⟩
  | struct name fields =>
    obtain ⟨es, each, -⟩ := ofFields_eq_some given
    exact ⟨_, known_of_mem each mem⟩
  | _ => cases mem

/-- The sizes of rows and structures are below the bound. -/
theorem extent?_size_lt (given : extent? p id = .ok (some e))
    (kind : ty.isRow = true ∨ ty.isStruct = true) : e.size < sizeLimit := by
  rw [(extent?_ends ordered).equation, extentLevel, here] at given
  cases ty with
  | array element length | vector element length =>
    obtain ⟨x, -, fits, rfl⟩ := row_eq_some given
    exact fits
  | struct name fields =>
    obtain ⟨es, -, fits, rfl⟩ := ofFields_eq_some given
    exact fits
  | _ => rcases kind with no | no <;> cases no

/-- Whatever rows or structures a type with an extent holds, they fit. -/
theorem fits_of_extent? (given : extent? p id = .ok (some e)) {kind : Ty → Bool}
    (narrow : ∀ ty, kind ty = true → ty.isRow = true ∨ ty.isStruct = true) : Fits p kind ty := by
  intro part y within isKind natural
  induction within generalizing id e with
  | self =>
    rw [natural.unique (extent?_natural here given).1]
    exact extent?_size_lt ordered here given (narrow _ isKind)
  | inner mem found _ ih =>
    obtain ⟨x, known⟩ := extent?_of_held ordered here given mem
    exact ih found known isKind natural

/-- A type has no extent because of something without a size that it holds, or because of a row that
does not fit. -/
theorem reason_of_none (lacks : extent? p id = .ok none) :
    ∃ part, p.Holds ty part ∧ (part.isUnsized = true ∨ Overflows p part) := by
  induction id using Nat.strong_induction_on generalizing ty with
  | _ id ih =>
    have inner {part : Nat} (mem : part ∈ ty.held) (lacks : extent? p part = .ok none) :
        ∃ part, p.Holds ty part ∧ (part.isUnsized = true ∨ Overflows p part) := by
      have less := ordered id ty here part (ty.held_subset_components part mem)
      obtain ⟨inner, found⟩ :=
        TypePool.get?_eq_some_of_lt (less.trans (TypePool.lt_size_of_get? here))
      obtain ⟨reason, within, why⟩ := ih part less found lacks
      exact ⟨reason, .inner mem found within, why⟩
    rw [(extent?_ends ordered).equation, extentLevel, here] at lacks
    cases ty with
    | ptr | void | function | label | token | metadata => exact ⟨_, .self, .inl rfl⟩
    | int | float | double => cases lacks
    | array element length | vector element length =>
      have outcome := row_outcome (extent? p element) length
      dsimp only at lacks
      rw [lacks] at outcome
      cases outcome with
      | large x given large =>
        exact ⟨_, .self, .inr ⟨element, length, x, by simp, given, large⟩⟩
      | unknown given => exact inner (List.mem_singleton_self _) given
    | struct name fields =>
      have outcome := ofFields_outcome (extent? p) ⟨0, 1⟩ fields
      dsimp only at lacks
      rw [lacks] at outcome
      cases outcome with
      | unknown mem given => exact inner mem given

/-- A type whose rows fit has its natural extent, or one of its structures does not fit and the
computation stops. -/
theorem Natural.extent?_cases (natural : Natural p ty x) (rows : Fits p Ty.isRow ty) :
    extent? p id = .ok (some x) ∧ Fits p Ty.isStruct ty ∨
      extent? p id = .error .offset ∧ ¬ Fits p Ty.isStruct ty := by
  cases given : extent? p id with
  | error overflow =>
    obtain ⟨_, part, here', within, why⟩ := bursts_of_error given
    cases here.symm.trans here'
    cases overflow
    exact .inr ⟨rfl, natural.not_fits_isStruct within why⟩
  | ok known =>
    cases known with
    | none =>
      obtain ⟨part, within, why⟩ := reason_of_none ordered here given
      obtain ⟨y, inner⟩ := natural.exists_of_holds within
      rcases why with unsized | large
      · rw [natural.not_isUnsized within] at unsized
        cases unsized
      · have fits := rows part y within large.isRow inner
        exact absurd (large.le_size inner) (Nat.not_le.2 fits)
    | some e =>
      cases natural.unique (extent?_natural here given).1
      exact .inl ⟨rfl, fits_of_extent? ordered here given fun _ => .inr⟩

end Ordered

end Types

/-- The size that the natural conventions give is that of the extent. -/
theorem natural_sizeOf_eq_some {m : Module} {id size : Nat}
    (h : Conventions.natural.sizeOf m id = .ok (some size)) :
    ∃ e, extent? m.types id = .ok (some e) ∧ size = e.size := by
  change (do return (← extent? m.types id).map (·.size)) = Except.ok (some size) at h
  cases given : extent? m.types id with
  | error =>
    rw [given] at h
    cases h
  | ok known =>
    rw [given] at h
    obtain ⟨e, rfl, same⟩ := Option.map_eq_some_iff.1 (Except.ok.inj h)
    exact ⟨e, rfl, same.symm⟩

/-- They stop where the extent does. -/
theorem natural_sizeOf_eq_error {m : Module} {id : Nat} {overflow : Overflow}
    (h : Conventions.natural.sizeOf m id = .error overflow) :
    extent? m.types id = .error overflow := by
  change (do return (← extent? m.types id).map (·.size)) = Except.error overflow at h
  cases given : extent? m.types id with
  | error other =>
    cases other
    cases overflow
    rfl
  | ok known =>
    rw [given] at h
    cases h

/-- **Sizes are natural.**  A size that is given is exactly that of natural layout in numbers
without a bound, and every type with a size has one natural extent only, whose alignment is not
zero, so that there is always a next multiple.

The computation does not always give an answer.  It stops only at a type that holds a structure one
of whose fields ends at the bound or beyond, or which does once it is padded.  A type of a pool in
which types come behind their components, with a natural extent and with arrays below the bound, has
its natural size if all structures within it are below the bound; otherwise the computation stops.
-/
theorem sizeOf_natural (m : Module) (id : Nat) (ty : Ty) (here : m.types.get? id = some ty) :
    (∀ size, Conventions.natural.sizeOf m id = .ok (some size) →
      ∃ x, Natural m.types ty x ∧ (∀ y, Natural m.types ty y → y = x) ∧ 0 < x.align ∧
        size = x.size) ∧
    (∀ overflow, Conventions.natural.sizeOf m id = .error overflow →
      ∃ part, m.types.Holds ty part ∧ (RunsOver m.types part ∨ PadsOver m.types part)) ∧
    (m.types.Ordered → Fits m.types Ty.isRow ty → ∀ x, Natural m.types ty x →
      Fits m.types Ty.isStruct ty ∧ Conventions.natural.sizeOf m id = .ok (some x.size) ∨
      ¬ Fits m.types Ty.isStruct ty ∧ Conventions.natural.sizeOf m id = .error .offset) := by
  refine ⟨fun size sized => ?_, fun overflow stops => ?_, fun ordered rows x natural => ?_⟩
  · obtain ⟨e, given, rfl⟩ := natural_sizeOf_eq_some sized
    obtain ⟨natural, divides⟩ := extent?_natural here given
    exact ⟨e, natural, fun y other => other.unique natural, pos_of_dvd_sixteen divides, rfl⟩
  · obtain ⟨_, part, here', within, why⟩ := bursts_of_error (natural_sizeOf_eq_error stops)
    cases here.symm.trans here'
    exact ⟨part, within, why⟩
  · rcases natural.extent?_cases ordered here rows with ⟨given, fits⟩ | ⟨stops, large⟩
    · refine .inl ⟨fits, ?_⟩
      change (do return (← extent? m.types id).map (·.size)) = Except.ok (some x.size)
      rw [given]
      rfl
    · refine .inr ⟨large, ?_⟩
      change (do return (← extent? m.types id).map (·.size)) = Except.error Overflow.offset
      rw [stops]
      rfl

/-- A structure of three numbers of 24 bits each and a `double`. -/
def mixed : Module where
  name := "mixed"
  types := (TypePool.internAll {} [.int 24, .array 0 3, .double, .struct none [1, 2]]).2

theorem mixed_ordered : mixed.types.Ordered := by decide +kernel

theorem mixed_row : Natural mixed.types (.array 0 3) ⟨12, 4⟩ :=
  .array (show mixed.types.get? 0 = some (.int 24) by decide +kernel)
    (ofInt_natural mixed.types 24)

/-- The structure takes 24 bytes: 12 for the numbers, padding up to 16, and the `double`. -/
theorem mixed_natural : Natural mixed.types (.struct none [1, 2]) ⟨24, 8⟩ := by
  let types (field : Nat) : Ty := if field = 1 then .array 0 3 else .double
  let layout (field : Nat) : Extent := if field = 1 then ⟨12, 4⟩ else ⟨8, 8⟩
  have found : ∀ field ∈ [1, 2], mixed.types.get? field = some (types field) := by decide +kernel
  have each : ∀ field ∈ [1, 2], Natural mixed.types (types field) (layout field) := by
    intro field mem
    rcases List.mem_cons.1 mem with rfl | mem
    · exact mixed_row
    · cases List.mem_singleton.1 mem
      exact .double
  have behind : Placed ⟨12, 4⟩ [⟨8, 8⟩] ⟨24, 8⟩ :=
    .cons (nextMultiple_roundUp 12 (Nat.succ_pos 7)) .nil
  have placed : Placed ⟨0, 1⟩ [⟨12, 4⟩, ⟨8, 8⟩] ⟨24, 8⟩ :=
    .cons (nextMultiple_roundUp 0 (Nat.succ_pos 3)) behind
  exact .struct found each placed (nextMultiple_roundUp 24 (Nat.succ_pos 7))

theorem mixed_fits {kind : Ty → Bool}
    (narrow : ∀ ty, kind ty = true → ty.isRow = true ∨ ty.isStruct = true) :
    Fits mixed.types kind (.struct none [1, 2]) := by
  have here : mixed.types.get? 3 = some (.struct none [1, 2]) := by decide +kernel
  have given : extent? mixed.types 3 = .ok (some ⟨24, 8⟩) := by decide +kernel
  exact fits_of_extent? mixed_ordered here given narrow

/-- The three numbers take twelve bytes, and four more keep the `double` aligned. -/
theorem sizeOf_natural_mixed :
    mixed.types.get? 3 = some (.struct none [1, 2]) ∧
      Natural mixed.types (.struct none [1, 2]) ⟨24, 8⟩ ∧
      Conventions.natural.sizeOf mixed 3 = .ok (some 24) := by
  have here : mixed.types.get? 3 = some (.struct none [1, 2]) := by decide +kernel
  obtain ⟨-, -, cases⟩ := sizeOf_natural mixed 3 (.struct none [1, 2]) here
  rcases cases mixed_ordered (mixed_fits fun _ => .inl) _ mixed_natural with ⟨-, sized⟩ | ⟨no, -⟩
  · exact ⟨here, mixed_natural, sized⟩
  · exact absurd (mixed_fits fun _ => .inr) no

/-- A structure of two arrays that take half of all addresses each. -/
def wide : Module where
  name := "wide"
  types := (TypePool.internAll {} [.int 64, .array 0 (Word.count 60), .struct none [1, 1]]).2

/-- The offset behind the second array does not fit, and the computation stops: there is neither a
size nor the answer that there is none. -/
theorem wide_overflows :
    Conventions.natural.sizeOf wide 2 = .error .offset ∧
      Natural wide.types (.struct none [1, 1]) ⟨Word.count 64, 8⟩ := by
  refine ⟨by decide +kernel, ?_⟩
  let types (_ : Nat) : Ty := .array 0 (Word.count 60)
  let layout (_ : Nat) : Extent := ⟨Word.count 63, 8⟩
  have found : ∀ field ∈ [1, 1], wide.types.get? field = some (types field) := by decide +kernel
  have each : ∀ field ∈ [1, 1], Natural wide.types (types field) (layout field) :=
    fun _ _ => .array (show wide.types.get? 0 = some (.int 64) by decide +kernel)
      (ofInt_natural wide.types 64)
  have behind : Placed ⟨Word.count 63, 8⟩ [⟨Word.count 63, 8⟩] ⟨Word.count 64, 8⟩ :=
    .cons (nextMultiple_roundUp _ (Nat.succ_pos 7)) .nil
  have placed : Placed ⟨0, 1⟩ [⟨Word.count 63, 8⟩, ⟨Word.count 63, 8⟩] ⟨Word.count 64, 8⟩ :=
    .cons (nextMultiple_roundUp 0 (Nat.succ_pos 7)) behind
  exact .struct found each placed (nextMultiple_roundUp (Word.count 64) (Nat.succ_pos 7))

end Layout

end Stackwise
