import NReduce.Bytecode.Instr
import Mathlib.Logic.Function.Basic

/-!
# NReduce.Runtime.Lists

Lists on the heap of a task and `maybe_expand_array` (`builtins.c`), which gathers the cells of a
list in one array. A list is a chain of CONS cells and of AREF cells; an AREF cell refers to an array
of pointers or of characters, and a pointer to it holds the index where the list starts.

The array that a cell refers to is moved to a new object when it has no room left. A local variable
of the source may then still point to the old object, so arrays have addresses of their own here.
The write barriers are in `Runtime.Generations`.
-/

namespace NReduce
namespace Runtime
namespace Lists

open Compiler (Double)
open Bytecode

/-- `MAX_ARRAY_SIZE` -/
def maxArraySize : Nat := 2 ^ 19

/-- `pntr`: a number, or a cell and the index of `make_aref_pntr` (0 for a cell that is no AREF). -/
inductive Pntr where
  | num (d : Double)
  | obj (c index : Nat)
  deriving DecidableEq

inductive Node where
  | cons (head tail : Pntr)
  | aref (arr : Nat) (tail : Pntr)
  | ind (dest : Pntr)
  | nil
  | frame
  /-- APPLICATION, CAP, REMOTEREF, SYSOBJECT, HOLE; nothing here reads or writes their fields -/
  | other (tag : Nat)
  deriving DecidableEq

/-- `elemsize` -/
inductive Width where
  | byte
  | pntr
  deriving DecidableEq

/-- The elements of an array up to its size. -/
inductive Elements where
  | bytes (l : List (BitVec 8))
  | pntrs (l : List Pntr)
  deriving DecidableEq

structure Carray where
  nbytes : Nat
  alloc : Nat
  multiref : Bool
  nchars : Nat
  elements : Elements
  deriving DecidableEq

structure Store where
  nodes : Nat → Node
  /-- how many cells have been allocated -/
  ncells : Nat
  arrays : Nat → Carray
  narrays : Nat
  globnilpntr : Pntr

namespace Width

def toNat : Width → Nat
  | byte => 1
  | pntr => 8

end Width

namespace Elements

def width : Elements → Width
  | bytes _ => .byte
  | pntrs _ => .pntr

def size : Elements → Nat
  | bytes l => l.length
  | pntrs l => l.length

def empty : Width → Elements
  | .byte => bytes []
  | .pntr => pntrs []

end Elements

def Carray.size (arr : Carray) : Nat := arr.elements.size

namespace Store

/-- The cell of a pointer. -/
def node (s : Store) : Pntr → Option Node
  | .num _ => none
  | .obj c _ => some (s.nodes c)

/-- The loop of `resolve_pntr`. It does not end when the indirections form a cycle, so a bound on
its turns is enough. -/
def resolveFrom (s : Store) : Nat → Pntr → Option Pntr
  | 0, _ => none
  | _ + 1, .num d => some (.num d)
  | k + 1, .obj c i =>
    match s.nodes c with
    | .ind dest => s.resolveFrom k dest
    | _ => some (.obj c i)

def resolvePntr (s : Store) (p : Pntr) : Option Pntr := s.resolveFrom (s.ncells + 1) p

def isInd (s : Store) (p : Pntr) : Bool :=
  match s.node p with
  | some (.ind _) => true
  | _ => false

def isFrame (s : Store) (p : Pntr) : Bool :=
  match s.node p with
  | some .frame => true
  | _ => false

def setNode (s : Store) (c : Nat) (n : Node) : Store :=
  { s with nodes := Function.update s.nodes c n }

def setArray (s : Store) (a : Nat) (arr : Carray) : Store :=
  { s with arrays := Function.update s.arrays a arr }

/-- `alloc_cell`, with what the caller then writes. -/
def allocCell (s : Store) (n : Node) : Nat × Store :=
  (s.ncells, { s with nodes := Function.update s.nodes s.ncells n, ncells := s.ncells + 1 })

/-- `alloc_mem`, for an array. -/
def allocArray (s : Store) (arr : Carray) : Nat × Store :=
  (s.narrays, { s with arrays := Function.update s.arrays s.narrays arr, narrays := s.narrays + 1 })

/-- The array and the tail of an AREF cell. -/
def aref (s : Store) (c : Nat) : Option (Nat × Pntr) :=
  match s.nodes c with
  | .aref a tail => some (a, tail)
  | _ => none

end Store

def arefSetTail (c : Nat) (newtail : Pntr) (s : Store) : Option Store := do
  let (a, _) ← s.aref c
  return s.setNode c (.aref a newtail)

def arefResolveTail (c : Nat) (s : Store) : Option Store := do
  let (a, tail) ← s.aref c
  if s.isInd tail then
    let p ← s.resolvePntr tail
    return s.setNode c (.aref a p)
  else return s

def arefResolveElement (refcell pos : Nat) (s : Store) : Option Store := do
  let (a, _) ← s.aref refcell
  match (s.arrays a).elements with
  | .bytes _ => none
  | .pntrs l => do
    let e ← l[pos]?
    if s.isInd e then
      let p ← s.resolvePntr e
      return s.setArray a { s.arrays a with elements := .pntrs (l.set pos p) }
    else return s

/-- The size of the object of an array with room for `alloc` elements; a `carray` without its
elements has 32 bytes. -/
def sizereq (alloc : Nat) (w : Width) : Nat :=
  let n := 32 + alloc * w.toNat
  if n % 8 ≠ 0 then n + (8 - n % 8) else n

def carrayNew (w : Width) (alloc : Nat) (s : Store) : Nat × Store :=
  let alloc := if maxArraySize < alloc then maxArraySize else if alloc = 0 then 8 else alloc
  s.allocArray ⟨sizereq alloc w, alloc, false, 0, .empty w⟩

/-- `(floor(d) == d) && (0 <= d) && (255 >= d)`, for a number -/
def pntrIsChar : Pntr → Bool
  | .num d =>
    match scaled d with
    | some x => x % 2 ^ 1074 == 0 && decide (0 ≤ x) && decide (x ≤ 255 * 2 ^ 1074)
    | none => false
  | .obj _ _ => false

/-- `(unsigned char)pntrdouble(p)` -/
def toChar : Pntr → BitVec 8
  | .num d => BitVec.ofInt 8 (integerOf d)
  | .obj _ _ => 0

def convertToString (a : Nat) (s : Store) : Option Store :=
  match (s.arrays a).elements with
  | .bytes _ => none
  | .pntrs l =>
    if (s.arrays a).nchars = l.length then
      some (s.setArray a { s.arrays a with elements := .bytes (l.map toChar) })
    else none

/-- The loop of `check_array_convert`. Every turn but the last counts one more character, so the size
of the array bounds the number of turns. -/
def countChars (refcell a : Nat) : Nat → Store → Option Store
  | 0, s => some s
  | k + 1, s =>
    if (s.arrays a).nchars < (s.arrays a).size then do
      let pos := (s.arrays a).nchars
      let s ← arefResolveElement refcell pos s
      match (s.arrays a).elements with
      | .bytes _ => none
      | .pntrs l => do
        let e ← l[pos]?
        if pntrIsChar e then
          countChars refcell a k (s.setArray a { s.arrays a with nchars := pos + 1 })
        else return s
    else some s

def checkArrayConvert (refcell : Nat) (s : Store) : Option Store := do
  let (a, _) ← s.aref refcell
  if (s.arrays a).multiref then none
  else
    let s ← arefResolveTail refcell s
    let (_, tail) ← s.aref refcell
    if (s.arrays a).elements.width = .pntr ∧
        ((s.arrays a).size = maxArraySize ∨ s.isFrame tail = false) then
      let s ← countChars refcell a (s.arrays a).size s
      if (s.arrays a).nchars = (s.arrays a).size then convertToString a s
      else return s
    else return s

/-! ## carray_append -/

/-- `const void *data`: a local variable, the elements of an array or memory that is not in the heap,
and the distance in bytes. -/
inductive Source where
  | value (p : Pntr)
  | array (a : Nat)
  | block (elements : Elements)
  deriving DecidableEq

structure Data where
  source : Source
  offset : Nat
  deriving DecidableEq

section

-- The pointers that are read where the memory holds none, or starts in the middle of one.
variable (misread : Store → Data → Nat → Pntr)

/-- The `count` elements that `memmove` reads at `data`. -/
def readData (s : Store) (data : Data) (w : Width) (count : Nat) : Option Elements :=
  let garbled := .pntrs ((List.range count).map (misread s data))
  match w, data.source with
  | .pntr, .block (.pntrs l) =>
    if data.offset % 8 = 0 ∧ data.offset / 8 + count ≤ l.length then
      some (.pntrs ((l.drop (data.offset / 8)).take count))
    else some garbled
  | .pntr, .block (.bytes _) => some garbled
  | .byte, .block (.bytes l) =>
    if data.offset + count ≤ l.length then some (.bytes ((l.drop data.offset).take count)) else none
  | .byte, .block (.pntrs _) => none
  | .pntr, .value p =>
    if data.offset = 0 ∧ count ≤ 1 then some (.pntrs ([p].take count)) else some garbled
  | .pntr, .array a =>
    match (s.arrays a).elements with
    | .pntrs l =>
      if data.offset % 8 = 0 ∧ data.offset / 8 + count ≤ l.length then
        some (.pntrs ((l.drop (data.offset / 8)).take count))
      else some garbled
    | .bytes _ => some garbled
  | .byte, .value _ => none
  | .byte, .array a =>
    match (s.arrays a).elements with
    | .bytes l =>
      if data.offset + count ≤ l.length then some (.bytes ((l.drop data.offset).take count))
      else none
    | .pntrs _ => none

/-- `while (arr->alloc < need) arr->alloc *= 4;` -/
def growFrom : Nat → Nat → Nat → Option Nat
  | 0, _, _ => none
  | k + 1, alloc, need => if alloc < need then growFrom k (alloc * 4) need else some alloc

def grow (alloc need : Nat) : Option Nat := growFrom (need + 1) alloc need

def Elements.append : Elements → Elements → Option Elements
  | .bytes l, .bytes m => some (.bytes (l ++ m))
  | .pntrs l, .pntrs m => some (.pntrs (l ++ m))
  | _, _ => none

/-- Room for `need` elements in the array of `refcell`: the array grows in place while its object is
large enough, else it moves to a new one. -/
def makeRoom (refcell need : Nat) (s : Store) : Option Store := do
  let (a, tail) ← s.aref refcell
  let arr := s.arrays a
  if arr.alloc < need then
    let alloc ← grow arr.alloc need
    let req := sizereq alloc arr.elements.width
    let s := s.setArray a { arr with alloc := alloc }
    if req > arr.nbytes then
      let (b, s) := s.allocArray { arr with alloc := alloc, nbytes := req }
      return s.setNode refcell (.aref b tail)
    else return s
  else return s

/-- How many elements the next turn of `carray_append` copies. -/
def appendCount (size totalcount : Nat) : Nat :=
  if size + totalcount > maxArraySize then maxArraySize - size else totalcount

/-- The loop of `carray_append`. Only the first turn can copy nothing (when the array is full), so
`totalcount + 2` turns are enough. The distance of `data` grows by `count` bytes. -/
def appendFrom (w : Width) : Nat → Nat → Data → Nat → Store → Option (Nat × Store)
  | 0, _, _, _, _ => none
  | k + 1, refcell, data, totalcount, s => do
    let (a, _) ← s.aref refcell
    let count := appendCount (s.arrays a).size totalcount
    let s ← makeRoom refcell ((s.arrays a).size + count) s
    let (a, _) ← s.aref refcell
    let new ← readData misread s data w count
    let elements ← (s.arrays a).elements.append new
    let s := s.setArray a { s.arrays a with elements := elements }
    let data := { data with offset := data.offset + count }
    let totalcount := totalcount - count
    if totalcount = 0 then return (refcell, s)
    else
      -- the rest goes to a new array, behind this one
      let s ← checkArrayConvert refcell s
      let (b, s) := carrayNew w totalcount s
      let (r, s) := s.allocCell (.aref b s.globnilpntr)
      let s ← arefSetTail refcell (.obj r 0) s
      appendFrom w k r data totalcount s

def carrayAppend (refcell : Nat) (data : Data) (totalcount : Nat) (w : Width) (s : Store) :
    Option (Nat × Store) := do
  let (a, _) ← s.aref refcell
  if (s.arrays a).elements.width = w ∧ (s.arrays a).multiref = false then
    appendFrom misread w (totalcount + 2) refcell data totalcount s
  else none

/-- `create_array`: a new cell with a new array. -/
def createArray (w : Width) (alloc : Nat) (s : Store) : Nat × Store :=
  let (b, s) := carrayNew w alloc s
  s.allocCell (.aref b s.globnilpntr)

/-- `pointers_to_list` and `binary_data_to_list`, for the elements of a block of memory. -/
def blockToList (data : Elements) (tail : Pntr) (s : Store) : Option (Pntr × Store) :=
  if data.size = 0 then some (tail, s)
  else do
    let (c, s) := createArray data.width data.size s
    let (r, s) ← carrayAppend misread c ⟨.block data, 0⟩ data.size data.width s
    let s ← arefSetTail r tail s
    return (.obj c 0, s)

def pointersToList (data : List Pntr) (tail : Pntr) (s : Store) : Option (Pntr × Store) :=
  blockToList misread (.pntrs data) tail s

def binaryDataToList (data : List (BitVec 8)) (tail : Pntr) (s : Store) :
    Option (Pntr × Store) :=
  blockToList misread (.bytes data) tail s

/-! ## maybe_expand_array -/

/-- Case 1: two CONS cells in a row become an array with two elements. -/
def consToArray (p : Pntr) (s : Store) : Option Store :=
  match p with
  | .num _ => some s
  | .obj c _ =>
    match s.nodes c with
    | .cons head tail => do
      let firsthead ← s.resolvePntr head
      let firsttail ← s.resolvePntr tail
      match s.node firsttail with
      | some (.cons head tail) =>
        let secondhead ← s.resolvePntr head
        let secondtail ← s.resolvePntr tail
        let (a, s) := carrayNew .pntr 8 s
        let s := s.setArray a { s.arrays a with elements := .pntrs [firsthead, secondhead] }
        return s.setNode c (.aref a secondtail)
      | _ => return s
    | _ => some s

/-- The loop for an array of pointers. `arr` is the array the list started with: the condition of
the loop reads its size, also after the array has moved. -/
def expandPntrs (arr : Nat) : Nat → Nat → Store → Option (Nat × Store)
  | 0, _, _ => none
  | k + 1, refcell, s =>
    if (s.arrays arr).size < maxArraySize then do
      let (_, tail) ← s.aref refcell
      match s.node tail, tail with
      | some (.cons tailhead tailtail), _ =>
        let tailhead ← s.resolvePntr tailhead
        let (refcell, s) ← carrayAppend misread refcell ⟨.value tailhead, 0⟩ 1 .pntr s
        let newtail ← s.resolvePntr tailtail
        let s ← arefSetTail refcell newtail s
        expandPntrs arr k refcell s
      | some (.aref otharr othtail), .obj _ othindex =>
        if (s.arrays otharr).elements.width = .pntr then
          let (refcell, s) ← carrayAppend misread refcell ⟨.array otharr, 8 * othindex⟩
            ((s.arrays otharr).size - othindex) .pntr s
          let s ← arefSetTail refcell othtail s
          expandPntrs arr k refcell s
        else return (refcell, s)
      | _, _ => return (refcell, s)
    else some (refcell, s)

/-- The loop for a string. -/
def expandBytes (arr : Nat) : Nat → Nat → Store → Option (Nat × Store)
  | 0, _, _ => none
  | k + 1, refcell, s => do
    let (_, tail) ← s.aref refcell
    match s.node tail, tail with
    | some (.aref tailarr tailtail), .obj _ tailindex =>
      let tailsize := (s.arrays tailarr).size - tailindex
      if (s.arrays tailarr).elements.width ≠ (s.arrays arr).elements.width then return (refcell, s)
      else if (s.arrays arr).size + tailsize > maxArraySize then return (refcell, s)
      else
        let (refcell, s) ← carrayAppend misread refcell ⟨.array tailarr, tailindex⟩ tailsize
          (s.arrays arr).elements.width s
        let s ← arefSetTail refcell tailtail s
        expandBytes arr k refcell s
    | _, _ => return (refcell, s)

def expandTail (arr fuel refcell : Nat) (s : Store) : Option (Nat × Store) :=
  match (s.arrays arr).elements.width with
  | .pntr => expandPntrs misread arr fuel refcell s
  | .byte => expandBytes misread arr fuel refcell s

/-- The two loops of the source need not end, so they are given a bound on their turns. -/
def maybeExpandArray (fuel : Nat) (p : Pntr) (s : Store) : Option Store := do
  let s ← consToArray p s
  match s.node p, p with
  | some (.aref a _), .obj c _ =>
    if (s.arrays a).multiref then return s
    else
      let s ← arefResolveTail c s
      let (refcell, s) ← expandTail misread a fuel c s
      checkArrayConvert refcell s
  | _, _ => return s

end

end Lists
end Runtime
end NReduce
