import NReduce.Compiler.Builtin
import NReduce.Compiler.Syntax
import Mathlib.Algebra.Group.Nat.Defs
import Mathlib.Algebra.Group.Int.Defs

/-!
# NReduce.Runtime.Numbers

The 64 bits of a `pntr` (`runtime.h`): a number, or the address of a cell with an index into an
array, which has the bits of a negative signalling not-a-number. And the functions that store
numbers.

* `isPntr_ofDouble`: the doubles that are taken for pointers.
* `Producer`: the functions that store a number, with the double that each of them stores.
* `stored_number_iff`: which of these are numbers again.

What the machine's arithmetic and `strtod` give is a parameter, `Arith`.
-/

namespace NReduce
namespace Runtime
namespace Numbers

open Compiler

/-! ## Doubles -/

/-- The sign and the exponent of negative infinity and of the negative not-a-numbers -/
def negInf : Double := 0xFFF0000000000000#64

def exponent (d : Double) : BitVec 11 := d.extractLsb' 52 11

def fraction (d : Double) : BitVec 52 := d.extractLsb' 0 52

def isnan (d : Double) : Bool := exponent d = BitVec.allOnes 11 && fraction d ≠ 0#52

/-- A not-a-number that traps -/
def signalling (d : Double) : Bool := isnan d && !d.getLsbD 51

/-! ## pntr -/

/-- `unsigned int data[2]` -/
structure Pntr where
  data0 : BitVec 32
  data1 : BitVec 32
  deriving DecidableEq

/-- `PNTR_MASK` -/
def pntrMask : BitVec 32 := 0xFFF80000#32

/-- `PNTR_VALUE` -/
def pntrValue : BitVec 32 := 0xFFF00000#32

/-- `MAX_ARRAY_SIZE` -/
def maxArraySize : Nat := 2 ^ 19

/-- `pntrdouble` -/
def pntrdouble (p : Pntr) : Double := p.data1 ++ p.data0

/-- `set_pntrdouble` -/
def ofDouble (d : Double) : Pntr := ⟨d.extractLsb' 0 32, d.extractLsb' 32 32⟩

/-- `is_pntr` -/
def isPntr (p : Pntr) : Bool := p.data1 &&& pntrMask = pntrValue

/-- `make_pntr` -/
def makePntr (c : BitVec 32) : Pntr := ⟨c, pntrValue⟩

/-- `make_aref_pntr`, `none` if the assertion fails -/
def makeArefPntr (c : BitVec 32) (i : Nat) : Option Pntr :=
  if i < maxArraySize then some ⟨c, pntrValue ||| BitVec.ofNat 32 i⟩ else none

/-- `aref_index` -/
def arefIndex (p : Pntr) : BitVec 32 := p.data1 &&& ~~~pntrMask

/-- `get_pntr`, `none` if the assertion fails -/
def getPntr (p : Pntr) : Option (BitVec 32) := if isPntr p then some p.data0 else none

/-- The types of cells, `CELL_*` -/
inductive CellType where
  | empty | application | builtin | cons | remoteref | ind | scref | aref | hole | frame | cap | nil
  | number | symbol | sysobject | objs | oArray | oCap
  deriving DecidableEq

/-- `pntrtype`; `celltype` reads the memory. -/
def pntrtype (celltype : BitVec 32 → CellType) (p : Pntr) : CellType :=
  if isPntr p then celltype p.data0 else .number

theorem isPntr_iff {p : Pntr} :
    isPntr p = true ↔ ∀ i, 19 ≤ i → i < 32 → p.data1.getLsbD i = decide (20 ≤ i) := by
  have hmask : ∀ i : Fin 32, pntrMask.getLsbD i = decide (19 ≤ i.1) := by decide
  have hvalue : ∀ i : Fin 32, pntrValue.getLsbD i = decide (20 ≤ i.1) := by decide
  rw [isPntr, decide_eq_true_iff]
  constructor
  · intro h i h19 h32
    have := congrArg (·.getLsbD i) h
    simpa [hmask ⟨i, h32⟩, hvalue ⟨i, h32⟩, h19] using this
  · intro h
    refine BitVec.eq_of_getLsbD_eq fun i h32 => ?_
    rw [BitVec.getLsbD_and, hmask ⟨i, h32⟩, hvalue ⟨i, h32⟩]
    by_cases h19 : 19 ≤ i
    · simp [h i h19 h32, h19]
    · simp [h19, show ¬ 20 ≤ i by omega]

theorem getLsbD_data1 (d : Double) {i : Nat} (h : i < 32) :
    (ofDouble d).data1.getLsbD i = d.getLsbD (32 + i) := by
  simp [ofDouble, h]

theorem isnan_iff {d : Double} :
    isnan d = true ↔ (∀ i, 52 ≤ i → i < 63 → d.getLsbD i = true) ∧
      ∃ i, i < 52 ∧ d.getLsbD i = true := by
  rw [isnan, Bool.and_eq_true, decide_eq_true_iff, decide_eq_true_iff]
  refine and_congr ⟨fun h i h52 h63 => ?_, fun h => ?_⟩ ⟨fun h => ?_, ?_⟩
  · have hi : i - 52 < 11 := by omega
    have := congrArg (·.getLsbD (i - 52)) h
    simp only [exponent, BitVec.getLsbD_extractLsb', BitVec.getLsbD_allOnes, hi, decide_true,
      Bool.true_and] at this
    rwa [show 52 + (i - 52) = i by omega] at this
  · refine BitVec.eq_of_getLsbD_eq fun i hi => ?_
    rw [exponent, BitVec.getLsbD_extractLsb', BitVec.getLsbD_allOnes, h _ (by omega) (by omega)]
    simp
  · by_contra hnone
    refine h (BitVec.eq_of_getLsbD_eq fun i hi => ?_)
    have hi' : d.getLsbD i ≠ true := fun htrue => hnone ⟨i, hi, htrue⟩
    simpa [fraction, hi] using hi'
  · rintro ⟨i, hi, htrue⟩ hzero
    have := congrArg (·.getLsbD i) hzero
    simp [fraction, hi, htrue] at this

theorem getLsbD_negInf {i : Nat} (h : i < 64) : negInf.getLsbD i = decide (52 ≤ i) := by
  have : ∀ i : Fin 64, negInf.getLsbD i = decide (52 ≤ i.1) := by decide
  exact this ⟨i, h⟩

/-- The bits of the doubles that are taken for pointers -/
theorem isPntr_ofDouble_iff {d : Double} :
    isPntr (ofDouble d) = true ↔ ∀ i, 51 ≤ i → i < 64 → d.getLsbD i = decide (52 ≤ i) := by
  rw [isPntr_iff]
  constructor
  · intro h i h51 h64
    have := h (i - 32) (by omega) (by omega)
    rw [getLsbD_data1 d (by omega), show 32 + (i - 32) = i by omega] at this
    rw [this]
    congr 1
    simp only [eq_iff_iff]
    omega
  · intro h i h19 h32
    rw [getLsbD_data1 d h32, h (32 + i) (by omega) (by omega)]
    congr 1
    simp only [eq_iff_iff]
    omega

/-- Negative infinity and the negative signalling not-a-numbers are taken for pointers. -/
theorem isPntr_ofDouble (d : Double) :
    isPntr (ofDouble d) = true ↔ d = negInf ∨ signalling d = true ∧ d.getLsbD 63 = true := by
  rw [isPntr_ofDouble_iff]
  constructor
  · intro h
    by_cases hnan : isnan d = true
    · refine .inr ⟨?_, by simpa using h 63 (by omega) (by omega)⟩
      rw [signalling, hnan, h 51 (by omega) (by omega)]
      rfl
    · refine .inl (BitVec.eq_of_getLsbD_eq fun i hi => ?_)
      rw [getLsbD_negInf hi]
      by_cases h51 : 51 ≤ i
      · exact h i h51 hi
      · have hexp : ∀ i, 52 ≤ i → i < 63 → d.getLsbD i = true := fun i h52 h63 => by
          simpa [h52] using h i (by omega) (by omega)
        have hi' : d.getLsbD i ≠ true := fun htrue =>
          hnan (isnan_iff.mpr ⟨hexp, i, by omega, htrue⟩)
        simpa [show ¬ 52 ≤ i by omega] using hi'
  · rintro (rfl | ⟨hsig, hsign⟩) i h51 h64
    · exact getLsbD_negInf h64
    · rw [signalling, Bool.and_eq_true, isnan_iff, Bool.not_eq_true'] at hsig
      obtain ⟨⟨hexp, -⟩, hquiet⟩ := hsig
      obtain rfl | h52 : i = 51 ∨ 52 ≤ i := by omega
      · exact hquiet
      · obtain rfl | h63 : i = 63 ∨ i < 63 := by omega
        · exact hsign
        · simpa [h52] using hexp i h52 h63

theorem isPntr_ofDouble_of_quiet {d : Double} (h : signalling d = false) :
    isPntr (ofDouble d) = true ↔ d = negInf := by
  simp [isPntr_ofDouble, h]

theorem pntrtype_of_isPntr {p : Pntr} (celltype : BitVec 32 → CellType) (h : isPntr p = false) :
    pntrtype celltype p = .number := by
  simp [pntrtype, h]

/-! ## Pointers -/

theorem makePntr_spec (c : BitVec 32) : isPntr (makePntr c) = true ∧ getPntr (makePntr c) = some c := by
  have h : isPntr (makePntr c) = true := by
    simp [isPntr, makePntr, show pntrValue &&& pntrMask = pntrValue by decide]
  exact ⟨h, by rw [getPntr, if_pos h]; rfl⟩

theorem makeArefPntr_spec (c : BitVec 32) {i : Nat} (h : i < maxArraySize) :
    ∃ p, makeArefPntr c i = some p ∧ isPntr p = true ∧ getPntr p = some c ∧
      (arefIndex p).toNat = i := by
  have hvalue : ∀ j : Fin 32, pntrValue.getLsbD j = decide (20 ≤ j.1) := by decide
  have hmask : ∀ j : Fin 32, (~~~pntrMask).getLsbD j = decide (j.1 < 19) := by decide
  have hlow : ∀ j, 19 ≤ j → i.testBit j = false := fun j hj =>
    Nat.testBit_lt_two_pow (Nat.lt_of_lt_of_le h (Nat.pow_le_pow_right (by decide) hj))
  have hp : isPntr ⟨c, pntrValue ||| BitVec.ofNat 32 i⟩ = true := by
    rw [isPntr_iff]
    intro j h19 h32
    rw [BitVec.getLsbD_or, hvalue ⟨j, h32⟩, BitVec.getLsbD_ofNat, hlow j h19]
    simp
  refine ⟨_, if_pos h, hp, by rw [getPntr, if_pos hp], ?_⟩
  have hindex : arefIndex ⟨c, pntrValue ||| BitVec.ofNat 32 i⟩ = BitVec.ofNat 32 i := by
    refine BitVec.eq_of_getLsbD_eq fun j h32 => ?_
    rw [arefIndex, BitVec.getLsbD_and, BitVec.getLsbD_or, hvalue ⟨j, h32⟩, hmask ⟨j, h32⟩,
      BitVec.getLsbD_ofNat]
    by_cases hj : j < 19
    · simp [hj, show ¬ 20 ≤ j by omega]
    · simp [hj, hlow j (by omega)]
  rw [hindex, BitVec.toNat_ofNat]
  exact Nat.mod_eq_of_lt (Nat.lt_trans h (by decide))

/-! ## The functions that store numbers -/

/-- What the machine's arithmetic and the C library give. `ofInt` is `(double)` of an integer,
`toInt` is `(int)` of a double (`none` if no `int` has its integral part), and `strtod` returns the
rest of the string as well. -/
structure Arith where
  add : Double → Double → Double
  sub : Double → Double → Double
  mul : Double → Double → Double
  div : Double → Double → Double
  fmod : Double → Double → Double
  sqrt : Double → Double
  floor : Double → Double
  ceil : Double → Double
  fabs : Double → Double
  ofInt : Int → Double
  toInt : Double → Option (BitVec 32)
  strtod : List UInt8 → Double × List UInt8

/-- No operation gives a signalling not-a-number, and an integer is converted to a finite double. -/
structure Arith.Lawful (F : Arith) : Prop where
  add : ∀ a b, signalling (F.add a b) = false
  sub : ∀ a b, signalling (F.sub a b) = false
  mul : ∀ a b, signalling (F.mul a b) = false
  div : ∀ a b, signalling (F.div a b) = false
  sqrt : ∀ a, signalling (F.sqrt a) = false
  strtod : ∀ str, signalling (F.strtod str).1 = false
  ofInt : ∀ n, exponent (F.ofInt n) ≠ BitVec.allOnes 11

inductive Fault where
  /-- `cap_error` -/
  | cap (p : Pntr)
  /-- `invalid_arg`: the builtin, the argument, and the type that it must have and that it has -/
  | invalidArg (fn : Bif) (argno : Nat) (type got : CellType)
  /-- `invalid_binary_args` -/
  | invalidBinaryArgs (fn : Bif) (type1 type0 : CellType)
  /-- `b_bitop` and `b_bitnot` end the program. -/
  | exit (fn : Bif)
  /-- "ston: argument is not a string" -/
  | notString
  /-- "ston: \"%s\" is not a valid number" -/
  | notNumber (str : List UInt8)
  /-- "jcall: %s" -/
  | jcall (error : List UInt8)
  /-- "jcall: invalid response" -/
  | invalidResponse
  | assertion
  /-- "floating point exception" -/
  | sigfpe

/-- What an operation on doubles gives. `FE_INVALID` is enabled: it raises a signal for a signalling
operand, and where there is no result. -/
def result (operands : List Double) (d : Double) : Except Fault Double :=
  if operands.any signalling || isnan d && operands.all (!isnan ·) then .error .sigfpe else .ok d

/-- `NAN_BITS` -/
def nanBits : Pntr := ⟨0#32, 0xFFF80000#32⟩

def setnumber (val : Double) : Pntr := if isnan val then nanBits else ofDouble val

section

variable (F : Arith) (celltype : BitVec 32 → CellType)

/-- `CHECK_ARG`; the last argument of a builtin has the number 0. -/
def checkArg (fn : Bif) (argno : Nat) (type : CellType) (arg : Pntr) : Except Fault Unit :=
  if type ≠ pntrtype celltype arg then
    if pntrtype celltype arg = .cap then .error (.cap arg)
    else .error (.invalidArg fn argno type (pntrtype celltype arg))
  else .ok ()

/-- `CHECK_NUMERIC_ARGS` -/
def checkNumericArgs (fn : Bif) (arg1 arg0 : Pntr) : Except Fault Unit :=
  if pntrtype celltype arg1 ≠ .number ∨ pntrtype celltype arg0 ≠ .number then
    if pntrtype celltype arg1 = .cap then .error (.cap arg1)
    else if pntrtype celltype arg0 = .cap then .error (.cap arg0)
    else .error (.invalidBinaryArgs fn (pntrtype celltype arg1) (pntrtype celltype arg0))
  else .ok ()

/-- The builtins with two numbers as arguments -/
def binary (fn : Bif) (op : Double → Double → Double) (arg1 arg0 : Pntr) : Except Fault Pntr := do
  checkNumericArgs celltype fn arg1 arg0
  let d ← result [pntrdouble arg1, pntrdouble arg0] (op (pntrdouble arg1) (pntrdouble arg0))
  return setnumber d

def bAdd := binary celltype .add F.add
def bSubtract := binary celltype .subtract F.sub
def bMultiply := binary celltype .multiply F.mul
def bDivide := binary celltype .divide F.div
def bMod := binary celltype .mod F.fmod

/-- The builtins with one number as argument -/
def unary (fn : Bif) (op : Double → Double) (arg0 : Pntr) : Except Fault Pntr := do
  checkArg celltype fn 0 .number arg0
  let d ← result [pntrdouble arg0] (op (pntrdouble arg0))
  return setnumber d

def bSqrt := unary celltype .sqrt F.sqrt
def bFloor := unary celltype .floor F.floor
def bCeil := unary celltype .ceil F.ceil

/-- `fabs` only clears the sign, and never raises a signal. -/
def bAbs (arg0 : Pntr) : Except Fault Pntr := do
  checkArg celltype .abs 0 .number arg0
  return setnumber (F.fabs (pntrdouble arg0))

/-- `(int)` -/
def truncate (d : Double) : Except Fault (BitVec 32) :=
  match F.toInt d with
  | some n => .ok n
  | none => .error .sigfpe

/-- `(double)` of the `int` that an operation on `int`s gives for two doubles -/
def bitDouble (op : BitVec 32 → BitVec 32 → BitVec 32) (d1 d2 : Double) : Except Fault Double := do
  let a ← truncate F d1
  let b ← truncate F d2
  return F.ofInt (op a b).toInt

def bBitop (fn : Bif) (op : BitVec 32 → BitVec 32 → BitVec 32) (val1 val2 : Pntr) :
    Except Fault Pntr :=
  if pntrtype celltype val1 ≠ .number ∨ pntrtype celltype val2 ≠ .number then .error (.exit fn)
  else do
    let d ← bitDouble F op (pntrdouble val1) (pntrdouble val2)
    return setnumber d

-- a shift takes the low five bits of its count
def shiftLeft (a b : BitVec 32) : BitVec 32 := a <<< (b.toNat % 32)
def shiftRight (a b : BitVec 32) : BitVec 32 := a.sshiftRight (b.toNat % 32)

def bBitshl := bBitop F celltype .bitshl shiftLeft
def bBitshr := bBitop F celltype .bitshr shiftRight
def bBitand := bBitop F celltype .bitand (· &&& ·)
def bBitor := bBitop F celltype .bitor (· ||| ·)
def bBitxor := bBitop F celltype .bitxor (· ^^^ ·)

def bitnotDouble (d : Double) : Except Fault Double := do
  let val ← truncate F d
  return F.ofInt (~~~val).toInt

def bBitnot (arg : Pntr) : Except Fault Pntr :=
  if pntrtype celltype arg ≠ .number then .error (.exit .bitnot)
  else do
    let d ← bitnotDouble F (pntrdouble arg)
    return setnumber d

/-- `b_ston` for the string that `array_to_string` gives, if it does. The number is stored even if
it is not a valid one. -/
def bSton (str : Option (List UInt8)) : Except Fault (Pntr × Option Fault) :=
  match str with
  | none => .error .notString
  | some str =>
    .ok (setnumber (F.strtod str).1,
      if str = [] ∨ (F.strtod str).2 ≠ [] then some (.notNumber str) else none)

/-- The sizes, ids and indexes that `b_arraysize` and `b_genid` store with `setnumber`, and
`b_nchars`, `b_readdir1` and `write_buildarray_frame` with `set_pntrdouble` -/
def storeCount (normalise : Bool) (n : Int) : Pntr :=
  if normalise then setnumber (F.ofInt n) else ofDouble (F.ofInt n)

/-- The element of a byte array, in `b_head`, `b_arrayitem`, `flatten_list` and the native code -/
def storeChar (c : UInt8) : Pntr := ofDouble (F.ofInt c.toNat)

/-- `b_arraystrcmp` for the first two different elements, which are `char`s -/
def storeDifference (a b : BitVec 8) : Pntr := ofDouble (F.ofInt (a.toInt - b.toInt))

/-- What `decode_java_response` makes of a response -/
inductive Response where
  /-- a string, still with its escapes -/
  | string (escaped : List UInt8)
  | nil
  | true
  /-- an object with the id that these digits stand for -/
  | object (id : List UInt8)
  | number (p : Pntr)

def bytes (s : String) : List UInt8 := s.toUTF8.toList

def decodeJavaResponse (str : List UInt8) : Except Fault Response :=
  if 2 ≤ str.length ∧ str.head? = some 34 ∧ str.getLast? = some 34 then
    .ok (.string (str.drop 1).dropLast)
  else if str = bytes "nil" ∨ str = bytes "false" then .ok .nil
  else if str = bytes "true" then .ok .true
  else if 1 < str.length ∧ str.head? = some 64 then .ok (.object (str.drop 1))
  else if str.take 7 = bytes "error: " then .error (.jcall (str.drop 7))
  else if str ≠ [] ∧ (F.strtod str).2 = [] then .ok (.number (ofDouble (F.strtod str).1))
  else .error .invalidResponse

/-- `read_pntr` of a number -/
def readNumber (d : Double) : Except Fault Pntr :=
  if isPntr (ofDouble d) then .error .assertion else .ok (ofDouble d)

/-- The native code of the builtins with two numbers. It does not look at the types of its operands:
a pointer among them is a signalling not-a-number. -/
def nativeBinary (op : Double → Double → Double) (arg1 arg0 : Pntr) : Except Fault Pntr := do
  let d ← result [pntrdouble arg1, pntrdouble arg0] (op (pntrdouble arg1) (pntrdouble arg0))
  return ofDouble d

def nativeAdd := nativeBinary F.add
def nativeSubtract := nativeBinary F.sub
def nativeMultiply := nativeBinary F.mul
def nativeDivide := nativeBinary F.div

def nativeSqrt (arg0 : Pntr) : Except Fault Pntr := do
  let d ← result [pntrdouble arg0] (F.sqrt (pntrdouble arg0))
  return ofDouble d

/-! ## What they store -/

/-- A function that stores a number, with its arguments -/
inductive Producer where
  | add (arg1 arg0 : Pntr)
  | subtract (arg1 arg0 : Pntr)
  | multiply (arg1 arg0 : Pntr)
  | divide (arg1 arg0 : Pntr)
  | mod (arg1 arg0 : Pntr)
  | sqrt (arg0 : Pntr)
  | floor (arg0 : Pntr)
  | ceil (arg0 : Pntr)
  | abs (arg0 : Pntr)
  | bitshl (val1 val2 : Pntr)
  | bitshr (val1 val2 : Pntr)
  | bitand (val1 val2 : Pntr)
  | bitor (val1 val2 : Pntr)
  | bitxor (val1 val2 : Pntr)
  | bitnot (arg : Pntr)
  | ston (str : Option (List UInt8))
  | count (normalise : Bool) (n : Int)
  | char (c : UInt8)
  | difference (a b : BitVec 8)
  | javaResponse (str : List UInt8)
  | message (d : Double)
  | nativeAdd (arg1 arg0 : Pntr)
  | nativeSubtract (arg1 arg0 : Pntr)
  | nativeMultiply (arg1 arg0 : Pntr)
  | nativeDivide (arg1 arg0 : Pntr)
  | nativeSqrt (arg0 : Pntr)

/-- The double that is to be stored, `none` if there is none -/
def Producer.double : Producer → Option Double
  | add x y | nativeAdd x y => F.add (pntrdouble x) (pntrdouble y)
  | subtract x y | nativeSubtract x y => F.sub (pntrdouble x) (pntrdouble y)
  | multiply x y | nativeMultiply x y => F.mul (pntrdouble x) (pntrdouble y)
  | divide x y | nativeDivide x y => F.div (pntrdouble x) (pntrdouble y)
  | mod x y => F.fmod (pntrdouble x) (pntrdouble y)
  | sqrt x | nativeSqrt x => F.sqrt (pntrdouble x)
  | floor x => F.floor (pntrdouble x)
  | ceil x => F.ceil (pntrdouble x)
  | abs x => F.fabs (pntrdouble x)
  | bitshl x y => (bitDouble F shiftLeft (pntrdouble x) (pntrdouble y)).toOption
  | bitshr x y => (bitDouble F shiftRight (pntrdouble x) (pntrdouble y)).toOption
  | bitand x y => (bitDouble F (· &&& ·) (pntrdouble x) (pntrdouble y)).toOption
  | bitor x y => (bitDouble F (· ||| ·) (pntrdouble x) (pntrdouble y)).toOption
  | bitxor x y => (bitDouble F (· ^^^ ·) (pntrdouble x) (pntrdouble y)).toOption
  | bitnot x => (bitnotDouble F (pntrdouble x)).toOption
  | ston str => str.map fun str => (F.strtod str).1
  | count _ n => F.ofInt n
  | char c => F.ofInt c.toNat
  | difference a b => F.ofInt (a.toInt - b.toInt)
  | javaResponse str => (F.strtod str).1
  | message d => d

/-- The number that is stored, `none` if none is -/
def Producer.store : Producer → Option Pntr
  | add x y => (bAdd F celltype x y).toOption
  | subtract x y => (bSubtract F celltype x y).toOption
  | multiply x y => (bMultiply F celltype x y).toOption
  | divide x y => (bDivide F celltype x y).toOption
  | mod x y => (bMod F celltype x y).toOption
  | sqrt x => (bSqrt F celltype x).toOption
  | floor x => (bFloor F celltype x).toOption
  | ceil x => (bCeil F celltype x).toOption
  | abs x => (bAbs F celltype x).toOption
  | bitshl x y => (bBitshl F celltype x y).toOption
  | bitshr x y => (bBitshr F celltype x y).toOption
  | bitand x y => (bBitand F celltype x y).toOption
  | bitor x y => (bBitor F celltype x y).toOption
  | bitxor x y => (bBitxor F celltype x y).toOption
  | bitnot x => (bBitnot F celltype x).toOption
  | ston str => (bSton F str).toOption.map (·.1)
  | count normalise n => storeCount F normalise n
  | char c => storeChar F c
  | difference a b => storeDifference F a b
  | javaResponse str =>
    match decodeJavaResponse F str with
    | .ok (.number p) => some p
    | _ => none
  | message d => (readNumber d).toOption
  | nativeAdd x y => (Numbers.nativeAdd F x y).toOption
  | nativeSubtract x y => (Numbers.nativeSubtract F x y).toOption
  | nativeMultiply x y => (Numbers.nativeMultiply F x y).toOption
  | nativeDivide x y => (Numbers.nativeDivide F x y).toOption
  | nativeSqrt x => (Numbers.nativeSqrt F x).toOption

end

/-- `setnumber` takes care of the not-a-numbers, and only of these. -/
theorem isPntr_setnumber (d : Double) : isPntr (setnumber d) = true ↔ d = negInf := by
  rw [setnumber]
  split
  · rename_i hnan
    refine iff_of_false (by decide) ?_
    rintro rfl
    exact absurd hnan (by decide)
  · rename_i hnan
    exact isPntr_ofDouble_of_quiet (by simp [signalling, hnan])

section

variable {F : Arith} {celltype : BitVec 32 → CellType} {v : Pntr}

theorem Arith.Lawful.quiet_ofInt (hF : F.Lawful) (n : Int) : signalling (F.ofInt n) = false := by
  have hnan : isnan (F.ofInt n) = false := by
    rw [isnan, decide_eq_false (hF.ofInt n), Bool.false_and]
  rw [signalling, hnan, Bool.false_and]

theorem result_eq {operands : List Double} {d d' : Double} (h : result operands d = .ok d') :
    d' = d := by
  rw [result] at h
  split at h
  · cases h
  · exact (Except.ok.inj h).symm

theorem ok_of_toOption {α : Type} {x : Except Fault α} {a : α} (h : x.toOption = some a) :
    x = .ok a := by
  cases x with
  | error e => cases h
  | ok a' => exact congrArg _ (Option.some.inj h)

theorem bind_ok {α β : Type} {x : Except Fault α} {f : α → Except Fault β} {b : β}
    (h : (x >>= f) = .ok b) : ∃ a, x = .ok a ∧ f a = .ok b := by
  cases x with
  | error e => cases h
  | ok a => exact ⟨a, rfl, h⟩

theorem binary_eq {fn : Bif} {op : Double → Double → Double} {x y : Pntr}
    (h : (binary celltype fn op x y).toOption = some v) :
    v = setnumber (op (pntrdouble x) (pntrdouble y)) := by
  obtain ⟨-, -, h⟩ := bind_ok (ok_of_toOption h)
  obtain ⟨d, hd, h⟩ := bind_ok h
  rw [← Except.ok.inj h, result_eq hd]

theorem unary_eq {fn : Bif} {op : Double → Double} {x : Pntr}
    (h : (unary celltype fn op x).toOption = some v) : v = setnumber (op (pntrdouble x)) := by
  obtain ⟨-, -, h⟩ := bind_ok (ok_of_toOption h)
  obtain ⟨d, hd, h⟩ := bind_ok h
  rw [← Except.ok.inj h, result_eq hd]

theorem bBitop_eq {fn : Bif} {op : BitVec 32 → BitVec 32 → BitVec 32} {x y : Pntr}
    (h : (bBitop F celltype fn op x y).toOption = some v) :
    ∃ d, (bitDouble F op (pntrdouble x) (pntrdouble y)).toOption = some d ∧ v = setnumber d := by
  have h := ok_of_toOption h
  rw [bBitop] at h
  split at h
  · cases h
  · obtain ⟨d, hd, h⟩ := bind_ok h
    exact ⟨d, by rw [hd]; rfl, (Except.ok.inj h).symm⟩

theorem bBitnot_eq {x : Pntr} (h : (bBitnot F celltype x).toOption = some v) :
    ∃ d, (bitnotDouble F (pntrdouble x)).toOption = some d ∧ v = setnumber d := by
  have h := ok_of_toOption h
  rw [bBitnot] at h
  split at h
  · cases h
  · obtain ⟨d, hd, h⟩ := bind_ok h
    exact ⟨d, by rw [hd]; rfl, (Except.ok.inj h).symm⟩

theorem nativeBinary_eq {op : Double → Double → Double} {x y : Pntr}
    (h : (nativeBinary op x y).toOption = some v) :
    v = ofDouble (op (pntrdouble x) (pntrdouble y)) := by
  obtain ⟨d, hd, h⟩ := bind_ok (ok_of_toOption h)
  rw [← Except.ok.inj h, result_eq hd]

theorem decodeJavaResponse_number {str : List UInt8} {p : Pntr}
    (h : decodeJavaResponse F str = .ok (.number p)) : p = ofDouble (F.strtod str).1 := by
  rw [decodeJavaResponse] at h
  split_ifs at h
  all_goals cases h
  rfl

/-- Whatever stores a number stores one that is taken for a pointer if, and only if, it is negative
infinity. -/
theorem Producer.isPntr_store (hF : F.Lawful) {p : Producer} (h : p.store F celltype = some v) :
    isPntr v = true ↔ p.double F = some negInf := by
  have normalised : ∀ d, v = setnumber d → (isPntr v = true ↔ some d = some negInf) := by
    rintro d rfl
    rw [isPntr_setnumber, Option.some_inj]
  have raw : ∀ d, signalling d = false → v = ofDouble d →
      (isPntr v = true ↔ some d = some negInf) := by
    rintro d hd rfl
    rw [isPntr_ofDouble_of_quiet hd, Option.some_inj]
  have bits : ∀ o : Except Fault Double, (∃ d, o.toOption = some d ∧ v = setnumber d) →
      (isPntr v = true ↔ o.toOption = some negInf) := by
    rintro o ⟨d, hd, hv⟩
    rw [hd]
    exact normalised d hv
  cases p with
  | add x y | subtract x y | multiply x y | divide x y | mod x y => exact normalised _ (binary_eq h)
  | sqrt x | floor x | ceil x => exact normalised _ (unary_eq h)
  | abs x =>
    obtain ⟨-, -, h⟩ := bind_ok (ok_of_toOption h)
    exact normalised _ (Except.ok.inj h).symm
  | bitshl x y | bitshr x y | bitand x y | bitor x y | bitxor x y => exact bits _ (bBitop_eq h)
  | bitnot x => exact bits _ (bBitnot_eq h)
  | ston str =>
    cases str with
    | none => cases h
    | some str => exact normalised _ (Option.some.inj h).symm
  | count normalise n =>
    cases normalise with
    | false => exact raw _ (hF.quiet_ofInt n) (Option.some.inj h).symm
    | true => exact normalised _ (Option.some.inj h).symm
  | char c => exact raw _ (hF.quiet_ofInt _) (Option.some.inj h).symm
  | difference a b => exact raw _ (hF.quiet_ofInt _) (Option.some.inj h).symm
  | javaResponse str =>
    simp only [Producer.store] at h
    split at h
    · rename_i p hp
      obtain rfl := Option.some.inj h
      exact raw _ (hF.strtod str) (decodeJavaResponse_number hp)
    · cases h
  | message d =>
    have h := ok_of_toOption h
    rw [readNumber] at h
    split at h
    · cases h
    · rename_i hd
      obtain rfl := Except.ok.inj h
      refine iff_of_false hd ?_
      rintro ⟨⟩
      exact hd (by decide)
  | nativeAdd x y => exact raw _ (hF.add _ _) (nativeBinary_eq h)
  | nativeSubtract x y => exact raw _ (hF.sub _ _) (nativeBinary_eq h)
  | nativeMultiply x y => exact raw _ (hF.mul _ _) (nativeBinary_eq h)
  | nativeDivide x y => exact raw _ (hF.div _ _) (nativeBinary_eq h)
  | nativeSqrt x =>
    obtain ⟨d, hd, h⟩ := bind_ok (ok_of_toOption h)
    exact raw _ (hF.sqrt _) (by rw [← Except.ok.inj h, result_eq hd])

/-- What is stored is a number if, and only if, it is not negative infinity; and pointers are
pointers, with their address and index. -/
theorem stored_number_iff (hF : F.Lawful) {p : Producer} (h : p.store F celltype = some v) :
    (isPntr v = false ∧ pntrtype celltype v = .number ↔ p.double F ≠ some negInf) ∧
      (∀ c, isPntr (makePntr c) = true ∧ getPntr (makePntr c) = some c) ∧
      ∀ c i, i < maxArraySize → ∃ q, makeArefPntr c i = some q ∧ isPntr q = true ∧
        getPntr q = some c ∧ (arefIndex q).toNat = i := by
  refine ⟨?_, makePntr_spec, fun c i hi => makeArefPntr_spec c hi⟩
  rw [Ne, ← Producer.isPntr_store hF h, Bool.not_eq_true]
  exact ⟨fun hv => hv.1, fun hv => ⟨hv, pntrtype_of_isPntr celltype hv⟩⟩

end

/-- -1.0 -/
def minusOne : Double := 0xBFF0000000000000#64

/-- A machine that can divide -1 by 0, and -1 by -1 -/
def divider : Arith where
  add _ _ := 0
  sub _ _ := 0
  mul _ _ := 0
  div a b :=
    if a = minusOne ∧ b = 0 then negInf
    else if a = minusOne ∧ b = minusOne then 0x3FF0000000000000#64 else 0
  fmod _ _ := 0
  sqrt _ := 0
  floor _ := 0
  ceil _ := 0
  fabs _ := 0
  ofInt _ := 0
  toInt _ := none
  strtod str := (0, str)

theorem signalling_zero : signalling 0 = false := by decide

theorem divider_lawful : divider.Lawful where
  add _ _ := signalling_zero
  sub _ _ := signalling_zero
  mul _ _ := signalling_zero
  div a b := by
    simp only [divider]
    split_ifs <;> decide
  sqrt _ := signalling_zero
  strtod _ := signalling_zero
  ofInt _ := show exponent 0 ≠ BitVec.allOnes 11 by decide

theorem stored_number_iff_ones :
    isPntr (ofDouble 0x3FF0000000000000#64) = false ∧
      pntrtype (fun _ => .nil) (ofDouble 0x3FF0000000000000#64) = .number :=
  (@stored_number_iff divider (fun _ => .nil) (ofDouble 0x3FF0000000000000#64) divider_lawful
    (.divide (ofDouble minusOne) (ofDouble minusOne)) (by decide)).1.mpr (by decide)

/-- -1 / 0 is taken for a pointer. -/
theorem stored_pntr_minusOne :
    ¬ ∀ (F : Arith) (celltype : BitVec 32 → CellType) (p : Producer) (v : Pntr), F.Lawful →
      p.store F celltype = some v → isPntr v = false ∧ pntrtype celltype v = .number := by
  intro h
  have := h divider (fun _ => .nil) (.divide (ofDouble minusOne) (ofDouble 0)) (ofDouble negInf)
    divider_lawful (by decide)
  exact absurd this.1 (by decide)

end Numbers
end Runtime
end NReduce
