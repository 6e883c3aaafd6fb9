import Mathlib.Data.List.Basic
import Mathlib.Logic.Function.Basic
import Mathlib.Logic.Relation
import Mathlib.Algebra.Group.Nat.Defs

/-!
# NReduce.Runtime.Blocks

The blocks that the objects of a task are placed in (`memory.c`): `alloc_mem` places an object in
the new generation, `add_to_oldgen` copies one to the old generation, and the loops of the collector
walk over blocks from object to object.

The memory of a block holds anything before an object is placed in it, and what is left at the end
of a block is never written.
-/

namespace NReduce
namespace Runtime
namespace Blocks

def BLOCK_START : Nat := 8

def BLOCK_BYTES : Nat := 32 * 1024 * 1024 - 1024

/-- This is also `sizeof(block)`. -/
def BLOCK_END : Nat := BLOCK_START + BLOCK_BYTES

def CELL_OBJS : Nat := 0x0F

def CELL_COUNT : Nat := 0x12

def sizeofCell : Nat := 24

/-- The words at the start of an object. The flags `REF_FLAGS` turn the first one into a pointer to
the copy of the object, by its block and offset. -/
inductive Header where
  | object (type flags nbytes : Nat)
  | forwarded (block offset : Nat)
  deriving DecidableEq

/-- `object_size`: none where one of its assertions fails. -/
def Header.objectSize : Header → Option Nat
  | .object type _ nbytes =>
    if CELL_COUNT ≤ type then none
    else if type < CELL_OBJS then some sizeofCell
    else some nbytes
  | .forwarded _ _ => none

/-- A generation: its blocks, the one in use first, and the offset of the next object there. -/
structure Gen where
  blocks : List Nat
  offset : Nat

structure State where
  mem : Nat → Nat → Header
  newgen : Gen
  oldgen : Gen
  /-- the old blocks during a major collection -/
  prevgen : List Nat
  /-- the block in use when a minor collection began, and the offset in it -/
  promotion : Option (Nat × Nat)
  /-- how many blocks `malloc` has returned -/
  nblocks : Nat
  /-- The objects of each block, as offsets and sizes. The source does not record them. -/
  placed : Nat → List (Nat × Nat)

/-- A block that holds an object of `nbytes` bytes: the one in use, or a new one. -/
def Gen.room (g : Gen) (new nbytes : Nat) : Gen :=
  if BLOCK_END - nbytes ≤ g.offset then ⟨new :: g.blocks, BLOCK_START⟩ else g

def Gen.advance (g : Gen) (nbytes : Nat) : Gen := { g with offset := g.offset + nbytes }

def State.write (s : State) (b off : Nat) (h : Header) : State :=
  { s with mem := Function.update s.mem b (Function.update (s.mem b) off h) }

/-- A new object. -/
def State.place (s : State) (b off nbytes : Nat) (h : Header) : State :=
  { s.write b off h with placed := Function.update s.placed b (s.placed b ++ [(off, nbytes)]) }

/-- `alloc_mem`, with the header that the caller then writes. -/
def State.allocMem (s : State) (h : Header) : Option State := do
  let nbytes ← h.objectSize
  guard (nbytes % 8 = 0 ∧ nbytes ≤ BLOCK_END - BLOCK_START)
  let g := s.newgen.room s.nblocks nbytes
  let b ← g.blocks.head?
  return { s with newgen := g.advance nbytes, nblocks := s.nblocks + 1 }.place b g.offset nbytes h

/-- `add_to_oldgen` for the object at `src`. -/
def State.addToOldgen (s : State) (src : Nat × Nat) (flags : Nat) : Option State := do
  let h := s.mem src.1 src.2
  let size ← h.objectSize
  let g := s.oldgen.room s.nblocks size
  guard (g.offset + size ≤ BLOCK_END)
  let b ← g.blocks.head?
  let copy := match h with
    | .object type _ nbytes => .object type flags nbytes
    | h => h
  return ({ s with oldgen := g.advance size, nblocks := s.nblocks + 1 }.place b g.offset size
    copy).write src.1 src.2 (.forwarded b g.offset)

/-- `init_oldgen` -/
def State.initOldgen (s : State) : State :=
  if s.oldgen.blocks = [] then
    { s with oldgen := ⟨[s.nblocks], BLOCK_START⟩, nblocks := s.nblocks + 1 }
  else s

/-- `begin_promotion` -/
def State.beginPromotion (s : State) : State :=
  let s := s.initOldgen
  { s with promotion := s.oldgen.blocks.head?.map (·, s.oldgen.offset) }

/-- `reset_newgen` -/
def State.resetNewgen (s : State) : State :=
  { s with newgen := ⟨[], BLOCK_END⟩, promotion := none }

/-- `copy_heap_start`: the minor collection before it is over. -/
def State.copyHeapStart (s : State) : State :=
  { s with
    oldgen := ⟨[], s.oldgen.offset⟩
    prevgen := s.oldgen.blocks
    promotion := none }.initOldgen

/-- `copy_heap_finish` -/
def State.copyHeapFinish (s : State) : State := { s with prevgen := [] }

/-! ## Runs -/

/-- The program or a walk changes the header of an object, and not its size. -/
inductive Touch (s : State) : State → Prop where
  | object {b off n type flags nbytes type' flags' nbytes' : Nat} :
      (off, n) ∈ s.placed b → s.mem b off = .object type flags nbytes →
      (Header.object type' flags' nbytes').objectSize =
        (Header.object type flags nbytes).objectSize →
      Touch s (s.write b off (.object type' flags' nbytes'))
  /-- what is not an object may change in any way -/
  | rest {b off : Nat} (h : Header) : (∀ n, (off, n) ∉ s.placed b) → Touch s (s.write b off h)

/-- What happens while objects are marked: an object of the new generation, or of the old blocks in
a major collection, is copied. -/
inductive Mark (s : State) : State → Prop where
  | touch {s' : State} : Touch s s' → Mark s s'
  | promote {s' : State} {b off n flags : Nat} : b ∈ s.newgen.blocks ++ s.prevgen →
      (off, n) ∈ s.placed b → s.addToOldgen (b, off) flags = some s' → Mark s s'

inductive Step (s : State) : State → Prop where
  | mark {s' : State} : Mark s s' → Step s s'
  | alloc {s' : State} {h : Header} : h.objectSize ≠ some 0 → s.allocMem h = some s' → Step s s'
  | beginPromotion : Step s s.beginPromotion
  | resetNewgen : Step s s.resetNewgen
  | copyHeapStart : s.newgen.blocks = [] → s.prevgen = [] → Step s s.copyHeapStart
  | copyHeapFinish : Step s s.copyHeapFinish

/-- A new task, with whatever is in the memory that `malloc` will return. -/
def State.init (mem : Nat → Nat → Header) : State where
  mem := mem
  newgen := ⟨[], BLOCK_END⟩
  oldgen := ⟨[], BLOCK_START⟩
  prevgen := []
  promotion := none
  nblocks := 0
  placed := fun _ => []

def Reachable (s : State) : Prop := ∃ mem, Relation.ReflTransGen Step (State.init mem) s

/-! ## Walks -/

/-- A part of a block that a walk goes through. -/
structure Region where
  block : Nat
  start : Nat
  stop : Nat

inductive Walk where
  | clearMarks | replaceRefs | resetDmb | replaceRefsForNewgen
  /-- in a minor collection, over the new generation -/
  | markNewObjects
  /-- in a major collection, over the old blocks -/
  | markNewObjectsMajor

def wholeBlocks (bs : List Nat) : List Region := bs.map (⟨·, BLOCK_START, BLOCK_END⟩)

/-- The loops of `replace_refs_for_newgen`: the block in use up to the next object, older ones up to
their end, and the block that was in use before from the offset there. -/
def promoted (prevstart prevoffset : Nat) : List Nat → Nat → List Region
  | [], _ => []
  | b :: bs, stop =>
    if b = prevstart then [⟨b, prevoffset, stop⟩]
    else ⟨b, BLOCK_START, stop⟩ :: promoted prevstart prevoffset bs BLOCK_END

def Walk.regions (s : State) : Walk → List Region
  | .clearMarks | .replaceRefs | .resetDmb => wholeBlocks s.oldgen.blocks
  | .replaceRefsForNewgen =>
    match s.promotion with
    | some (prevstart, prevoffset) =>
      promoted prevstart prevoffset s.oldgen.blocks s.oldgen.offset
    | none => []
  | .markNewObjects => wholeBlocks s.newgen.blocks
  | .markNewObjectsMajor => wholeBlocks s.prevgen

/-- By how much a walk goes on after the object at an offset. Where objects are copied during the
walk, it reads the size of the copy. -/
def Walk.size (w : Walk) (s : State) (b off : Nat) : Option Nat :=
  match w, s.mem b off with
  | .markNewObjects, .forwarded b' off' | .markNewObjectsMajor, .forwarded b' off' =>
    (s.mem b' off').objectSize
  | _, h => h.objectSize

/-- What can happen between two objects of a walk. -/
def Walk.During : Walk → State → State → Prop
  | .markNewObjects | .markNewObjectsMajor => Relation.ReflTransGen Mark
  | _ => Relation.ReflTransGen Touch

/-- A walk over a part of a block: the offsets that it visits, if it ends. `size k` gives the sizes
as they are at its visit number `k`. -/
def visits (size : Nat → Nat → Option Nat) (stop : Nat) : Nat → Nat → Nat → Option (List Nat)
  | 0, _, _ => none
  | fuel + 1, k, off =>
    if off < stop then do
      let n ← size k off
      let rest ← visits size stop fuel (k + 1) ((off + n) % 2 ^ 32)
      return off :: rest
    else some []

/-- The walk ends, and it visits the objects that have been placed in this part of the block. The
heap at the visit number `k` is `hs k`. -/
def Walk.Exact (w : Walk) (hs : Nat → State) (r : Region) : Prop :=
  ∃ fuel, visits (fun k off => w.size (hs k) r.block off) r.stop fuel 0 r.start =
    some ((((hs 0).placed r.block).filter (fun o => r.start ≤ o.1)).map Prod.fst)

/-- A block that a single object fills to its last byte. -/
def State.Single (s : State) (b : Nat) : Prop := s.placed b = [(BLOCK_START, BLOCK_BYTES)]

end Blocks
end Runtime
end NReduce
