import Mathlib.Data.List.Basic
import Mathlib.Logic.Function.Basic
import Mathlib.Logic.Relation

/-!
# NReduce.Runtime.Generations

The write barrier of a task (`memory.c`): a minor collection finds the objects of the new generation
through the roots and the remembered set, so an old object that is made to point to a new one has to
be put in this set. Here are the places where the runtime writes to an object that exists already;
everything else that it writes goes to an object it has just allocated.

A pointer to a structure that is not in the heap (a frame, a global, a system object) is a value,
as is a number.
-/

namespace NReduce
namespace Runtime
namespace Generations

inductive Ptr where
  | value
  | obj (a : Nat)
  deriving DecidableEq

/-- The objects of the heap, by their pointers to other objects. -/
inductive Body where
  | ind (dest : Ptr)
  | cons (head tail : Ptr)
  | aref (arr tail : Ptr)
  | application (left right : Ptr)
  /-- a CAP cell, with the object of its values -/
  | capCell (cap : Ptr)
  /-- NIL, HOLE, FRAME, REMOTEREF, SYSOBJECT -/
  | plain
  | array (elements : List Ptr)
  /-- `cap`, with the pointer back to its cell -/
  | cap (c : Ptr) (data : List Ptr)
  deriving DecidableEq

structure Object where
  /-- `FLAG_MATURE` -/
  mature : Bool
  body : Body
  deriving DecidableEq

structure Heap where
  objects : Nat → Option Object
  /-- how many objects have been allocated -/
  count : Nat
  /-- `FLAG_INRSET` is set on the objects in this set -/
  remembered : List Nat
  /-- the object of `globnilpntr` -/
  nil : Nat

def Body.refs : Body → List Ptr
  | .ind dest => [dest]
  | .cons head tail => [head, tail]
  | .aref arr tail => [arr, tail]
  | .application left right => [left, right]
  | .capCell cp => [cp]
  | .plain => []
  | .array elements => elements
  | .cap c data => c :: data

def Heap.body (h : Heap) (a : Nat) : Option Body := (h.objects a).map Object.body

def Heap.isMature (h : Heap) (a : Nat) : Bool := (h.objects a).any Object.mature

/-- A pointer to an object without `FLAG_MATURE`. -/
def Heap.isNew (h : Heap) : Ptr → Bool
  | .value => false
  | .obj a => (h.objects a).any (fun o => !o.mature)

/-- The loop of `resolve_pntr`. It does not end when the indirections form a cycle, so a bound on
its turns is enough. -/
def Heap.resolveFrom (h : Heap) : Nat → Ptr → Option Ptr
  | 0, _ => none
  | _ + 1, .value => some .value
  | k + 1, .obj a =>
    match h.body a with
    | some (.ind dest) => h.resolveFrom k dest
    | _ => some (.obj a)

def Heap.resolve (h : Heap) (p : Ptr) : Option Ptr := h.resolveFrom (h.count + 1) p

def Heap.isInd (h : Heap) : Ptr → Bool
  | .value => false
  | .obj a =>
    match h.body a with
    | some (.ind _) => true
    | _ => false

/-! ## Writes -/

def writeBarrier (c : Nat) (h : Heap) : Heap :=
  if h.isMature c ∧ c ∉ h.remembered then { h with remembered := c :: h.remembered } else h

def writeBarrierIfnew (c : Nat) (dest : Ptr) (h : Heap) : Heap :=
  if h.isNew dest then writeBarrier c h else h

def setBody (a : Nat) (b : Body) (h : Heap) : Heap :=
  { h with objects := Function.update h.objects a ((h.objects a).map ({ · with body := b })) }

/-- `alloc_mem`, with what the caller then writes. -/
def alloc (b : Body) (h : Heap) : Heap :=
  { h with objects := Function.update h.objects h.count (some ⟨false, b⟩), count := h.count + 1 }

def cellMakeInd (c : Nat) (dest : Ptr) (h : Heap) : Heap :=
  setBody c (.ind dest) (writeBarrierIfnew c dest h)

def arefSetTail (c : Nat) (newtail : Ptr) (h : Heap) : Option Heap :=
  match h.body c with
  | some (.aref arr _) => some (writeBarrierIfnew c newtail (setBody c (.aref arr newtail) h))
  | _ => none

def arefResolveTail (c : Nat) (h : Heap) : Option Heap :=
  match h.body c with
  | some (.aref arr tail) => do
    if h.isInd tail then
      let p ← h.resolve tail
      return writeBarrierIfnew c p (setBody c (.aref arr p) h)
    else return h
  | _ => none

/-- The element goes to the array, the barrier is on the cell that refers to it. -/
def arefResolveElement (refcell pos : Nat) (h : Heap) : Option Heap :=
  match h.body refcell with
  | some (.aref (.obj arr) _) =>
    match h.body arr with
    | some (.array elements) => do
      let e ← elements[pos]?
      if h.isInd e then
        let p ← h.resolve e
        return writeBarrierIfnew refcell p (setBody arr (.array (elements.set pos p)) h)
      else return h
    | _ => none
  | _ => none

/-- An element in the loop of `flatten_list`. -/
def flattenElement (arr i : Nat) (h : Heap) : Option Heap :=
  match h.body arr with
  | some (.array elements) => do
    let e ← elements[i]?
    let p ← h.resolve e
    return setBody arr (.array (elements.set i p)) h
  | _ => none

/-- The branch of `carray_append` for an array that is too small: the cell refers to its new copy. -/
def carrayMove (refcell : Nat) (arr : Ptr) (h : Heap) : Option Heap :=
  match h.body refcell with
  | some (.aref _ tail) => some (setBody refcell (.aref arr tail) (writeBarrier refcell h))
  | _ => none

/-- The elements that `carray_append` copies. -/
def carrayExtend (arr : Nat) (data : List Ptr) (h : Heap) : Option Heap :=
  match h.body arr with
  | some (.array elements) => some (setBody arr (.array (elements ++ data)) (writeBarrier arr h))
  | _ => none

/-- `convert_to_string`: the array has no pointers any more. -/
def convertToString (arr : Nat) (h : Heap) : Option Heap :=
  match h.body arr with
  | some (.array _) => some (setBody arr (.array []) h)
  | _ => none

/-- `maybe_expand_array`, case 1: a CONS becomes a reference to an array, with no tail yet. -/
def consToAref (c : Nat) (arr : Ptr) (h : Heap) : Option Heap :=
  match h.body c with
  | some (.cons _ _) => some (setBody c (.aref arr (.obj h.nil)) (writeBarrier c h))
  | _ => none

/-- The branch of `op_do` for too few arguments: the cell of the frame becomes a CAP. -/
def frameToCap (c : Nat) (newcp : Ptr) (h : Heap) : Heap :=
  setBody c (.capCell newcp) (writeBarrier c h)

/-- A FRAME becomes a REMOTEREF or NIL (`schedule_frame`, `interpreter_fetch`, `op_end`). -/
def frameLeaves (c : Nat) (h : Heap) : Heap := setBody c .plain h

/-- `free_sysobject` -/
def freeSysobject (c : Nat) (h : Heap) : Heap := setBody c (.ind (.obj h.nil)) h

/-! ## Marking for a distributed collection

`resolve_copy_pntr` with `FLAG_DMB` takes indirections out of the fields of the objects that are
marked. -/

/-- The new value of a field, with the barrier on `c`. -/
def resolveCopyPntr (c : Nat) (p : Ptr) (h : Heap) : Option (Ptr × Heap) := do
  let q ← h.resolve p
  return (q, if h.isInd p then writeBarrierIfnew c q h else h)

def markCell (c : Nat) (h : Heap) : Option Heap :=
  match h.body c with
  | some (.cons head tail) => do
    let (p, h) ← resolveCopyPntr c head h
    let (q, h) ← resolveCopyPntr c tail h
    return setBody c (.cons p q) h
  | some (.aref arr tail) => do
    let (p, h) ← resolveCopyPntr c arr h
    let (q, h) ← resolveCopyPntr c tail h
    return setBody c (.aref p q) h
  | some (.application left right) => do
    let (p, h) ← resolveCopyPntr c left h
    let (q, h) ← resolveCopyPntr c right h
    return setBody c (.application p q) h
  | some (.capCell cp) => do
    let (p, h) ← resolveCopyPntr c cp h
    return setBody c (.capCell p) h
  | _ => none

/-- An element of an array. -/
def markElement (arr i : Nat) (h : Heap) : Option Heap :=
  match h.body arr with
  | some (.array elements) => do
    let e ← elements[i]?
    let (p, h) ← resolveCopyPntr arr e h
    return setBody arr (.array (elements.set i p)) h
  | _ => none

/-- A value in the loop of `mark_cap`: the barrier is on the CAP cell. -/
def markValue (cp i : Nat) (h : Heap) : Option Heap :=
  match h.body cp with
  | some (.cap (.obj c) data) => do
    let v ← data[i]?
    let (p, h) ← resolveCopyPntr c v h
    return setBody cp (.cap (.obj c) (data.set i p)) h
  | _ => none

/-! ## Runs -/

def Body.map (f : Ptr → Ptr) : Body → Body
  | .ind dest => .ind (f dest)
  | .cons head tail => .cons (f head) (f tail)
  | .aref arr tail => .aref (f arr) (f tail)
  | .application left right => .application (f left) (f right)
  | .capCell cp => .capCell (f cp)
  | .plain => .plain
  | .array elements => .array (elements.map f)
  | .cap c data => .cap (f c) (data.map f)

/-- `local_collect`: the objects in `keep` are in the old generation afterwards, with indirections
taken out of their fields. Here an object keeps its number. -/
def localCollect (keep : Nat → Bool) (h : Heap) : Heap :=
  { h with
    objects := fun a => if keep a then
        (h.objects a).map (fun o => ⟨true, o.body.map (fun p => (h.resolve p).getD p)⟩)
      else none
    remembered := [] }

/-- What a task does with its heap, one write at a time. -/
inductive Action where
  | alloc (b : Body)
  | cellMakeInd (c : Nat) (dest : Ptr)
  | arefSetTail (c : Nat) (newtail : Ptr)
  | arefResolveTail (c : Nat)
  | arefResolveElement (refcell pos : Nat)
  | flattenElement (arr i : Nat)
  | carrayMove (refcell : Nat) (arr : Ptr)
  | carrayExtend (arr : Nat) (data : List Ptr)
  | convertToString (arr : Nat)
  | consToAref (c : Nat) (arr : Ptr)
  | frameToCap (c : Nat) (newcp : Ptr)
  | frameLeaves (c : Nat)
  | freeSysobject (c : Nat)
  | markCell (c : Nat)
  | markElement (arr i : Nat)
  | markValue (cp i : Nat)
  /-- a slot of a frame or a field of a system object is marked, with a barrier on its cell -/
  | markSlot (c : Nat) (p : Ptr)
  | localCollect (keep : Nat → Bool)

/-- The pointers that an action writes: they come from registers and stack slots. -/
def Action.ptrs : Action → List Ptr
  | .alloc b => b.refs
  | .cellMakeInd _ dest => [dest]
  | .arefSetTail _ newtail => [newtail]
  | .carrayMove _ arr => [arr]
  | .carrayExtend _ data => data
  | .consToAref _ arr => [arr]
  | .frameToCap _ newcp => [newcp]
  | _ => []

/-- A pointer to an object that has been allocated. -/
def Heap.Valid (h : Heap) : Ptr → Prop
  | .value => True
  | .obj a => a < h.count

instance (h : Heap) : (p : Ptr) → Decidable (h.Valid p)
  | .value => inferInstanceAs (Decidable True)
  | .obj a => inferInstanceAs (Decidable (a < h.count))

def Action.run : Action → Heap → Option Heap
  | .alloc b, h => some (Generations.alloc b h)
  | .cellMakeInd c dest, h => some (Generations.cellMakeInd c dest h)
  | .arefSetTail c newtail, h => Generations.arefSetTail c newtail h
  | .arefResolveTail c, h => Generations.arefResolveTail c h
  | .arefResolveElement refcell pos, h => Generations.arefResolveElement refcell pos h
  | .flattenElement arr i, h => Generations.flattenElement arr i h
  | .carrayMove refcell arr, h => Generations.carrayMove refcell arr h
  | .carrayExtend arr data, h => Generations.carrayExtend arr data h
  | .convertToString arr, h => Generations.convertToString arr h
  | .consToAref c arr, h => Generations.consToAref c arr h
  | .frameToCap c newcp, h => some (Generations.frameToCap c newcp h)
  | .frameLeaves c, h => some (Generations.frameLeaves c h)
  | .freeSysobject c, h => some (Generations.freeSysobject c h)
  | .markCell c, h => Generations.markCell c h
  | .markElement arr i, h => Generations.markElement arr i h
  | .markValue cp i, h => Generations.markValue cp i h
  | .markSlot c p, h => (resolveCopyPntr c p h).map Prod.snd
  | .localCollect keep, h => if keep h.nil then some (Generations.localCollect keep h) else none

/-- One step of a task. -/
def Step (a : Action) (h h' : Heap) : Prop := (∀ p ∈ a.ptrs, h.Valid p) ∧ a.run h = some h'

/-- A new task has `globnilpntr`. -/
def Heap.init : Heap where
  objects := Function.update (fun _ => none) 0 (some ⟨false, .plain⟩)
  count := 1
  remembered := []
  nil := 0

/-- Every old object that points to a new one is in the remembered set. -/
def Heap.Covered (h : Heap) : Prop :=
  ∀ a o, h.objects a = some o → o.mature → (∃ p ∈ o.body.refs, h.isNew p) → a ∈ h.remembered

end Generations
end Runtime
end NReduce
