import Stackwise.Code.Balance

/-!
# Listings

A body laid out as one instruction stream: the blocks in order, an empty block holding its place
with a `nop`, the offset of every label, and the greatest depth the stack reaches.  Operands that a
block enqueues for its successor physically stay on the stack, so from there on they add to the
depth of the block.
-/

namespace Stackwise.Code

/-- The instructions a block contributes to the stream. -/
def Block.stream (b : Block) : List Instr :=
  if b.code.isEmpty then [.nop] else b.code

/-- The greatest depth, at least `peak`, that a list of instructions reaches from a stack of
`height` values above `pending` enqueued operands. -/
def peakDepth : (height pending peak position : Nat) → List Instr → Except (Nat × Breach) Nat
  | _, _, peak, _, [] => .ok peak
  | height, pending, peak, position, i :: rest =>
    if height < i.pops then .error (position, .underflow i height)
    else
      let height := height - i.pops + i.pushes
      let pending := match i with
        | .phiEnqueue _ => pending + 1
        | _ => pending
      peakDepth height pending (max peak (height + pending)) (position + 1) rest

/-- The offset of the first instruction of every block, by label; labels outside the body have no
entry. -/
def labelOffsets (blocks : List Block) : List Nat :=
  (blocks.foldl
    (fun (table, offset) b => (table.set b.label offset, offset + b.stream.length))
    (List.replicate blocks.length 0, 0)).1

/-- A linear instruction stream for one body. -/
structure Listing where
  name : String
  code : List Instr
  offsets : List Nat
  maxStack : Nat
deriving DecidableEq, Repr

/-- Lays the blocks of a body out in order. -/
def Listing.ofBlocks (name : String) (blocks : List Block) : Except Fault Listing := do
  let maxStack ← blocks.foldlM
    (fun peak b => (peakDepth 0 0 peak 0 b.code).mapError (b.fault name)) 0
  return { name, code := blocks.flatMap Block.stream, offsets := labelOffsets blocks, maxStack }

namespace Listing

/-- Where a label points to. -/
def offset? (l : Listing) (label : Nat) : Option Nat := l.offsets[label]?

/-- An offset as at least four hexadecimal digits. -/
def offsetName (offset : Nat) : String :=
  let digits := Nat.toDigits 16 offset
  "IL_" ++ String.ofList (List.replicate (4 - digits.length) '0' ++ digits)

/-- The text of a listing: a heading, then one instruction a line behind its offset, jumps by the
offset they lead to. -/
def render (l : Listing) : String :=
  let label (target : Nat) : String := ((l.offset? target).map offsetName).getD (labelName target)
  let line (entry : Instr × Nat) : String :=
    offsetName entry.2 ++ ": " ++ entry.1.renderWith label ++ "\n"
  "// " ++ l.name ++ s!" (max stack {l.maxStack})\n" ++ String.join (l.code.zipIdx.map line)

end Listing

end Stackwise.Code
