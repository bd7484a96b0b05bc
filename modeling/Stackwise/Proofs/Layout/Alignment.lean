import Mathlib.Data.Nat.Prime.Basic
import Stackwise.Proofs.Layout

/-!
# Layouts are well aligned

Every alignment is a power of two up to sixteen, and so of two alignments the larger is a multiple
of the smaller.  This carries most of what is said here: sizes are multiples of alignments
(`Extent.Aligned`), through arrays of any length and through structures.

Where the fields of a structure stand is told apart from the computation: `Slots` places them one
behind another, and a structure that has a size has it from there (`Slots.foldl_place`).

A type has no extent for two reasons only, which are found by going through fields and elements:
something without a size, or an array that does not fit.  Where such a reason is, there is never an
extent (`extent?_ne_some_of_reason`).  But there need not be the answer that there is none, because
an offset can grow too large before the reason is met: the padding of a structure is enough for that
(`padding_overflows_brim`).
-/

namespace Stackwise

open Source

namespace Layout

/-- A field and where it starts. -/
structure Slot where
  start : Nat
  field : Extent

/-- Where the field ends. -/
def Slot.stop (s : Slot) : Nat := s.start + s.field.size

/-- Fields placed one behind another, each at the next multiple of its alignment. -/
inductive Slots : (offset : Nat) → List Slot → (stop : Nat) → Prop
  | nil {offset : Nat} : Slots offset [] offset
  | cons {offset stop : Nat} {s : Slot} {rest : List Slot}
      (aligned : NextMultiple offset s.field.align s.start) (later : Slots s.stop rest stop) :
      Slots offset (s :: rest) stop

/-- The sizes of all fields together. -/
def fieldBytes : List Slot → Nat
  | [] => 0
  | s :: rest => s.field.size + fieldBytes rest

/-! ## Powers of two up to sixteen -/

/-- The divisors of 16 are the first five powers of two. -/
theorem dvd_sixteen_iff {a : Nat} : a ∣ 16 ↔ ∃ k ≤ 4, a = Word.count k :=
  Nat.dvd_prime_pow Nat.prime_two (m := 4)

/-- Of two of them, each divides the larger one. -/
theorem dvd_max_left {a b : Nat} (ha : a ∣ 16) (hb : b ∣ 16) : a ∣ max a b := by
  obtain ⟨i, -, rfl⟩ := dvd_sixteen_iff.1 ha
  obtain ⟨j, -, rfl⟩ := dvd_sixteen_iff.1 hb
  rw [← count_monotone.map_max]
  exact count_dvd_count (le_max_left i j)

theorem dvd_max_right {a b : Nat} (ha : a ∣ 16) (hb : b ∣ 16) : b ∣ max a b := by
  rw [max_comm]
  exact dvd_max_left hb ha

/-- The alignment is a power of two up to sixteen, and the size is a multiple of it. -/
structure Extent.Aligned (e : Extent) : Prop where
  divides : e.align ∣ 16
  whole : e.align ∣ e.size

theorem Extent.Aligned.pos {e : Extent} (h : e.Aligned) : 0 < e.align :=
  pos_of_dvd_sixteen h.divides

/-- The size of a number is a multiple of its alignment. -/
theorem ofInt_aligned (bits : Nat) : (ofInt bits).Aligned := by
  refine ⟨ofInt_align_dvd bits, ?_⟩
  obtain ⟨power, same, -⟩ := powerFrom_least ((bits + 7) / 8)
  rw [ofInt, same]
  change min (Word.count power) (Word.count 4) ∣ Word.count power
  rw [← count_monotone.map_min]
  exact count_dvd_count (min_le_left power 4)

theorem Extent.Aligned.repeated {e : Extent} (h : e.Aligned) (length : Nat) :
    Extent.Aligned ⟨e.size * length, e.align⟩ :=
  ⟨h.divides, h.whole.mul_right length⟩

/-- The largest alignment so far is a multiple of every one that has been met. -/
theorem align_foldl_place (soFar : Extent) {es : List Extent} (before : soFar.align ∣ 16)
    (fields : ∀ e ∈ es, e.align ∣ 16) :
    (es.foldl place soFar).align ∣ 16 ∧ soFar.align ∣ (es.foldl place soFar).align ∧
      ∀ e ∈ es, e.align ∣ (es.foldl place soFar).align := by
  induction es generalizing soFar with
  | nil => exact ⟨before, dvd_rfl, List.forall_mem_nil _⟩
  | cons e es ih =>
    obtain ⟨here, others⟩ := List.forall_mem_cons.1 fields
    obtain ⟨divides, larger, each⟩ := ih (place soFar e) (max_dvd before here) others
    refine ⟨divides, (dvd_max_left before here).trans larger, List.forall_mem_cons.2 ⟨?_, each⟩⟩
    exact (dvd_max_right before here).trans larger

theorem pad_aligned {last : Extent} (divides : last.align ∣ 16) : (pad last).Aligned :=
  ⟨divides, (nextMultiple_roundUp last.size (pos_of_dvd_sixteen divides)).1.1⟩

/-! ## Slots -/

/-- The next multiple is less than one alignment away. -/
theorem NextMultiple.lt {offset align next : Nat} (pos : 0 < align)
    (h : NextMultiple offset align next) : next < offset + align := by
  have below := Nat.mod_lt offset pos
  rw [h.unique (nextMultiple_roundUp offset pos), roundUp]
  split <;> omega

theorem NextMultiple.le_stop {offset : Nat} {s : Slot}
    (h : NextMultiple offset s.field.align s.start) : offset ≤ s.stop :=
  h.1.2.trans (Nat.le_add_right ..)

/-- Every list of fields can be placed. -/
theorem exists_slots (offset : Nat) {es : List Extent} (pos : ∀ e ∈ es, 0 < e.align) :
    ∃ slots stop, slots.map Slot.field = es ∧ Slots offset slots stop := by
  induction es generalizing offset with
  | nil => exact ⟨[], offset, rfl, .nil⟩
  | cons e es ih =>
    obtain ⟨here, others⟩ := List.forall_mem_cons.1 pos
    obtain ⟨slots, stop, same, placed⟩ := ih (roundUp offset e.align + e.size) others
    refine ⟨⟨roundUp offset e.align, e⟩ :: slots, stop, ?_, ?_⟩
    · rw [List.map_cons, same]
    · exact .cons (nextMultiple_roundUp offset here) placed

namespace Slots

variable {offset stop : Nat} {slots : List Slot}

theorem aligned (h : Slots offset slots stop) : ∀ s ∈ slots, s.field.align ∣ s.start := by
  induction h with
  | nil => exact List.forall_mem_nil _
  | cons aligned _ ih => exact List.forall_mem_cons.2 ⟨aligned.1.1, ih⟩

theorem offset_le (h : Slots offset slots stop) : ∀ s ∈ slots, offset ≤ s.start := by
  induction h with
  | nil => exact List.forall_mem_nil _
  | cons aligned _ ih =>
    exact List.forall_mem_cons.2 ⟨aligned.1.2, fun t mem => aligned.le_stop.trans (ih t mem)⟩

/-- The fields determine where they are placed. -/
theorem unique {slots' : List Slot} {stop' : Nat} (h : Slots offset slots stop)
    (h' : Slots offset slots' stop') (same : slots.map Slot.field = slots'.map Slot.field) :
    slots = slots' ∧ stop = stop' := by
  induction h generalizing slots' with
  | nil =>
    cases List.map_eq_nil_iff.1 same.symm
    cases h'
    exact ⟨rfl, rfl⟩
  | @cons offset stop s rest aligned _ ih =>
    obtain _ | @⟨_, _, s', rest', aligned', later'⟩ := h'
    · cases same
    obtain ⟨start, field⟩ := s
    obtain ⟨start', field'⟩ := s'
    rw [List.map_cons, List.map_cons, List.cons.injEq] at same
    obtain ⟨rfl, others⟩ := same
    cases aligned.unique aligned'
    obtain ⟨rfl, rfl⟩ := ih later' others
    exact ⟨rfl, rfl⟩

/-- A field ends before the next one starts. -/
theorem pairwise (h : Slots offset slots stop) : slots.Pairwise fun s t => s.stop ≤ t.start := by
  induction h with
  | nil => exact .nil
  | cons _ later ih => exact .cons later.offset_le ih

/-- Every field ends before or where the last one does. -/
theorem stop_le (h : Slots offset slots stop) : offset ≤ stop ∧ ∀ s ∈ slots, s.stop ≤ stop := by
  induction h with
  | nil => exact ⟨le_rfl, List.forall_mem_nil _⟩
  | cons aligned _ ih => exact ⟨aligned.le_stop.trans ih.1, List.forall_mem_cons.2 ⟨ih.1, ih.2⟩⟩

/-- In front of a field there is less than its alignment to skip. -/
theorem stop_add_length_le (h : Slots offset slots stop) {align : Nat}
    (pos : ∀ s ∈ slots, 0 < s.field.align) (most : ∀ s ∈ slots, s.field.align ≤ align) :
    stop + slots.length ≤ offset + fieldBytes slots + slots.length * align := by
  induction h with
  | nil => exact Nat.le_add_right ..
  | @cons offset stop s rest aligned _ ih =>
    obtain ⟨pos, posLater⟩ := List.forall_mem_cons.1 pos
    obtain ⟨most, mostLater⟩ := List.forall_mem_cons.1 most
    have skipped := aligned.lt pos
    have later := ih posLater mostLater
    rw [List.length_cons, fieldBytes, Nat.succ_mul]
    rw [Slot.stop] at later
    omega

/-- The computed offset is the end of the last field. -/
theorem size_foldl_place (soFar : Extent) (h : Slots soFar.size slots stop)
    (pos : ∀ s ∈ slots, 0 < s.field.align) :
    ((slots.map Slot.field).foldl place soFar).size = stop := by
  induction slots generalizing soFar with
  | nil =>
    cases h
    rfl
  | cons s rest ih =>
    obtain _ | ⟨aligned, later⟩ := h
    obtain ⟨pos, posLater⟩ := List.forall_mem_cons.1 pos
    have placed : (place soFar s.field).size = s.stop := by
      rw [place, ← aligned.unique (nextMultiple_roundUp soFar.size pos)]
      rfl
    rw [List.map_cons, List.foldl_cons]
    refine ih _ ?_ posLater
    rw [placed]
    exact later

end Slots

/-! ## Types -/

section

variable {p : TypePool} {id : Nat} {ty : Ty} {e : Extent}

/-- The size of every type is a multiple of its alignment. -/
theorem extent?_aligned (ordered : p.Ordered) (given : extent? p id = .ok (some e)) :
    e.Aligned := by
  induction id using Nat.strong_induction_on generalizing e with
  | _ id ih =>
    have level := given
    rw [(extent?_ends ordered).equation, extentLevel] at level
    split at level
    case h_1 bits here =>
      cases level
      exact ofInt_aligned bits
    case h_2 | h_3 =>
      cases level
      exact ⟨by decide, dvd_rfl⟩
    case h_4 element length here | h_5 element length here =>
      obtain ⟨x, inner, -, rfl⟩ := row_eq_some level
      have less := ordered id _ here element (List.mem_singleton_self _)
      exact (ih element less inner).repeated length
    case h_6 fields here =>
      obtain ⟨es, each, -, rfl⟩ := ofFields_eq_some level
      exact pad_aligned (extent?_natural here given).2
    case h_7 => cases level

/-- A type with a reason to have no extent never has one. -/
theorem extent?_ne_some_of_reason (ordered : p.Ordered) (here : p.get? id = some ty) {part : Ty}
    (within : p.Holds ty part) (why : part.isUnsized = true ∨ Overflows p part) :
    extent? p id ≠ .ok (some e) := by
  intro given
  have natural := (extent?_natural here given).1
  rcases why with unsized | large
  · rw [natural.not_isUnsized within] at unsized
    cases unsized
  · obtain ⟨y, inner⟩ := natural.exists_of_holds within
    have fits := fits_of_extent? ordered here given (fun _ => .inl) part y within large.isRow inner
    exact Nat.not_lt.2 (large.le_size inner) fits

/-- The fields of a structure that has an extent, and its extent made of theirs. -/
theorem extent?_struct (ordered : p.Ordered) {name : Option String} {fields : List Nat}
    (here : p.get? id = some (.struct name fields)) (given : extent? p id = .ok (some e)) :
    ∃ es : List Extent, fields.map (extent? p) = (es.map fun e => .ok (some e)) ∧
      (∀ x ∈ es, x.Aligned) ∧ e = pad (es.foldl place ⟨0, 1⟩) := by
  rw [(extent?_ends ordered).equation, extentLevel, here] at given
  obtain ⟨es, each, -, rfl⟩ := ofFields_eq_some given
  refine ⟨es, each, fun x mem => ?_, rfl⟩
  obtain ⟨field, -, extent⟩ := List.mem_map.1 (each ▸ List.mem_map_of_mem mem)
  exact extent?_aligned ordered extent

end

/-- **Layouts are well aligned.**  Whatever extent a type has, its alignment is a power of two up to
sixteen and divides its size.

The fields of a structure are placed one behind another, each at the next multiple of its alignment:
their alignments divide that of the structure, each field is aligned and ends before the next one
starts.  The size is the next multiple of the alignment from the end of the last field on; so all
fields end within it, and it exceeds the sizes of the fields by less than one alignment for each
field and one more.

A type is said to have no extent only if, through fields and elements, it holds a pointer or a type
without data, or an array that does not fit.  If it holds one, it never has an extent, and this is
what is said of it, unless a structure within it is at or beyond the bound with its padding or one
of its fields is.  If no field within it ends there, then the computation stops only at the padding.
-/
theorem extents_well_aligned (p : TypePool) (ordered : p.Ordered) (id : Nat) (ty : Ty)
    (here : p.get? id = some ty) :
    (∀ e, extent? p id = .ok (some e) →
      (∃ k ≤ 4, e.align = Word.count k) ∧ e.align ∣ e.size ∧
      ∀ name fields, ty = .struct name fields →
        ∃ slots stop, fields.map (extent? p) = slots.map (fun s => .ok (some s.field)) ∧
          Slots 0 slots stop ∧
          (∀ s ∈ slots, s.field.align ∣ e.align ∧ s.field.align ∣ s.start ∧ s.stop ≤ e.size) ∧
          slots.Pairwise (fun s t => s.stop ≤ t.start) ∧ NextMultiple stop e.align e.size ∧
          e.size < fieldBytes slots + (slots.length + 1) * e.align) ∧
    (extent? p id = .ok none →
      ∃ part, p.Holds ty part ∧ (part.isUnsized = true ∨ Overflows p part)) ∧
    ((∃ part, p.Holds ty part ∧ (part.isUnsized = true ∨ Overflows p part)) →
      (∀ e, extent? p id ≠ .ok (some e)) ∧
      ((∀ part, p.Holds ty part → ¬ RunsOver p part ∧ ¬ PadsOver p part) →
        extent? p id = .ok none)) ∧
    ((∀ part, p.Holds ty part → ¬ RunsOver p part) → ∀ overflow, extent? p id = .error overflow →
      ∃ part, p.Holds ty part ∧ PadsOver p part) := by
  refine ⟨fun e given => ?_, reason_of_none ordered here, ?_, fun below overflow stops => ?_⟩
  · have aligned := extent?_aligned ordered given
    refine ⟨dvd_sixteen_iff.1 aligned.divides, aligned.whole, ?_⟩
    rintro name fields rfl
    obtain ⟨es, each, all, rfl⟩ := extent?_struct ordered here given
    obtain ⟨slots, stop, rfl, placed⟩ := exists_slots 0 fun x mem => (all x mem).pos
    rw [List.forall_mem_map] at all
    rw [List.map_map] at each
    obtain ⟨-, -, divides⟩ := align_foldl_place ⟨0, 1⟩ (one_dvd 16)
      (List.forall_mem_map.2 fun s mem => (all s mem).divides)
    rw [List.forall_mem_map] at divides
    have next := nextMultiple_roundUp stop aligned.pos
    have size := placed.size_foldl_place ⟨0, 1⟩ fun s mem => (all s mem).pos
    rw [← size] at next placed
    have ends (s : Slot) (mem : s ∈ slots) := (placed.stop_le.2 s mem).trans next.1.2
    refine ⟨slots, _, each, placed,
      fun s mem => ⟨divides s mem, placed.aligned s mem, ends s mem⟩, placed.pairwise, next, ?_⟩
    have padding := next.lt aligned.pos
    have space := placed.stop_add_length_le (fun s mem => (all s mem).pos)
      fun s mem => Nat.le_of_dvd aligned.pos (divides s mem)
    rw [Nat.succ_mul]
    exact padding.trans_le (by omega)
  · rintro ⟨part, within, why⟩
    have never (e : Extent) := extent?_ne_some_of_reason (e := e) ordered here within why
    refine ⟨never, fun small => ?_⟩
    cases given : extent? p id with
    | error overflow =>
      obtain ⟨_, part, here', within, why⟩ := bursts_of_error given
      cases here.symm.trans here'
      exact (why.elim (small part within).1 (small part within).2).elim
    | ok known =>
      cases known with
      | none => rfl
      | some e => exact absurd given (never e)
  · obtain ⟨_, part, here', within, why⟩ := bursts_of_error stops
    cases here.symm.trans here'
    exact ⟨part, within, why.resolve_left (below part within)⟩

/-- The three numbers and the `double` take twenty of the twenty-four bytes. -/
theorem extents_well_aligned_mixed :
    mixed.types.Ordered ∧ mixed.types.get? 3 = some (.struct none [1, 2]) ∧
    extent? mixed.types 3 = .ok (some ⟨24, 8⟩) ∧
    ∃ slots stop, [1, 2].map (extent? mixed.types) = slots.map (fun s => .ok (some s.field)) ∧
      Slots 0 slots stop ∧
      (∀ s ∈ slots, s.field.align ∣ 8 ∧ s.field.align ∣ s.start ∧ s.stop ≤ 24) ∧
      slots.Pairwise (fun s t => s.stop ≤ t.start) ∧
      24 < fieldBytes slots + (slots.length + 1) * 8 := by
  have here : mixed.types.get? 3 = some (.struct none [1, 2]) := by decide +kernel
  have given : extent? mixed.types 3 = .ok (some ⟨24, 8⟩) := by decide +kernel
  obtain ⟨sound, -⟩ := extents_well_aligned mixed.types mixed_ordered 3 (.struct none [1, 2]) here
  obtain ⟨-, -, struct⟩ := sound _ given
  obtain ⟨slots, stop, each, placed, aligned, inOrder, -, excess⟩ := struct none [1, 2] rfl
  exact ⟨mixed_ordered, here, given, slots, stop, each, placed, aligned, inOrder, excess⟩

/-- A structure of an array that leaves eight bytes below the bound and one byte behind it, and a
structure of no such structures and a pointer. -/
def brim : TypePool :=
  (TypePool.internAll {} [.int 64, .array 0 (Word.count 61 - 1), .int 8, .struct none [1, 2],
    .array 3 0, .ptr, .struct none [4, 5]]).2

/-- Where the fields of the inner structure stand. -/
def brimSlots : List Slot :=
  [⟨0, ⟨Word.count 64 - 8, 8⟩⟩, ⟨Word.count 64 - 8, ⟨1, 1⟩⟩]

/-- The outer structure holds a pointer, and no field of the inner one ends at the bound.  But the
end of its second field is rounded up to the bound, and so the computation stops before the pointer
is met: it is not said that there is no size. -/
theorem padding_overflows_brim :
    brim.Ordered ∧ brim.get? 6 = some (.struct none [4, 5]) ∧
    (∃ part, brim.Holds (.struct none [4, 5]) part ∧ part.isUnsized = true) ∧
    [1, 2].map (extent? brim) = brimSlots.map (fun s => .ok (some s.field)) ∧
    Slots 0 brimSlots (Word.count 64 - 7) ∧ (∀ s ∈ brimSlots, s.stop < Word.count 64) ∧
    extent? brim 6 = .error .offset := by
  have placed : Slots 0 brimSlots (Word.count 64 - 7) :=
    .cons (nextMultiple_roundUp 0 (Nat.succ_pos 7))
      (.cons (nextMultiple_roundUp (Word.count 64 - 8) Nat.one_pos) .nil)
  have isPointer : brim.get? 5 = some .ptr := by decide +kernel
  have holds : brim.Holds (.struct none [4, 5]) .ptr :=
    .inner (List.mem_cons_of_mem _ List.mem_cons_self) isPointer .self
  exact ⟨by decide +kernel, by decide +kernel, ⟨_, holds, rfl⟩, by decide +kernel, placed,
    by decide +kernel, by decide +kernel⟩

end Layout

end Stackwise
