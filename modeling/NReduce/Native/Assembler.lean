import Mathlib.Logic.Function.Basic
import Mathlib.Data.List.Basic
import Mathlib.Algebra.GroupWithZero.Nat

/-!
# NReduce.Native.Assembler

The assembler of the native code generator (`assembler.c`): instructions with their operands, and
`x86_assemble`, which turns a list of them into IA-32 machine code in two passes. The first pass
lays out the bytes and finds the addresses of the labels, the second writes the instructions that
refer to a label again.

An instruction gives `none` where the source calls `fatal` or fails an assertion.
-/

namespace NReduce
namespace Native

abbrev Byte := BitVec 8

/-- A C `int`. -/
abbrev Word := BitVec 32

/-- `EAX` to `EDI`, or `ST0` to `ST7`. -/
abbrev Reg := Fin 8

instance neZero_eight : NeZero 8 := ⟨by decide⟩

instance neZero_four : NeZero 4 := ⟨by decide⟩

def EAX : Reg := 0

def ESP : Reg := 4

def EBP : Reg := 5

/-- The value of the index field where there is no index. -/
def NOINDEX : Reg := 4

/-- The registers that `regmemscaled` takes as an index. -/
abbrev Index := { i : Reg // i ≠ NOINDEX }

/-- `x86_arg`, by its constructors; `L` is the type of the labels. -/
inductive Arg (L : Type) where
  | imm (val : Word)
  | reg (r : Reg)
  | regmem (base : Reg) (off : Word)
  | regmemscaled (base : Reg) (off : Word) (scale : Fin 4) (index : Index)
  | absmem (addr : Word)
  | label (l : L)
  | none
  deriving DecidableEq

inductive Op where
  | push | pop | mov | cmp | jmp
  | jz | jne | jg | jge | jl | jle | jnb | jnbe | jna | jnae
  | ret | leave | call
  | add | sub | and | or | xor | not
  | nop | pushad | popad | imul | idiv | lea
  | fld64 | fst64 | fstp64 | fadd | fsub | fmul | fdiv
  | fucompp | fnstswAx | sahf | fsqrt | int3 | pushf | popf | fild
  | shl | shr
  /-- no instruction: the macro `LABEL` makes it for its label -/
  | none
  deriving DecidableEq

/-- `x86_instr`, without the fields that the assembler sets. -/
structure X86Instr where
  op : Op
  dst : Arg Nat
  src : Arg Nat
  label : Option Nat
  deriving DecidableEq

/-! ## Bytes -/

def modrm (mod reg rm : Nat) : Byte := BitVec.ofNat 8 (mod <<< 6 ||| reg <<< 3 ||| rm)

def sib (scale index base : Nat) : Byte := BitVec.ofNat 8 (scale <<< 6 ||| index <<< 3 ||| base)

/-- `wdword` -/
def dword (val : Word) : List Byte :=
  [val.extractLsb' 0 8, val.extractLsb' 8 8, val.extractLsb' 16 8, val.extractLsb' 24 8]

/-- `rmem`: a register and a displacement, and an index if there is one. -/
def rmem (reg : Nat) (base : Reg) (disp : Word) (scale : Fin 4) (index : Reg) : List Byte :=
  let usesib := base = ESP ∨ index ≠ NOINDEX
  let rm : Nat := if usesib then 4 else base
  let s : List Byte := if usesib then [sib scale index base] else []
  if disp = 0 ∧ base ≠ EBP then modrm 0 reg rm :: s
  else if disp.toInt ≤ 127 ∧ -128 ≤ disp.toInt then modrm 1 reg rm :: s ++ [disp.setWidth 8]
  else modrm 2 reg rm :: s ++ dword disp

/-- `mem` -/
def mem (reg : Nat) (addr : Word) : List Byte := modrm 0 reg 5 :: dword addr

/-- An operand in memory, with the digit or register `reg`. -/
def memArg {L : Type} (reg : Nat) : Arg L → Option (List Byte)
  | .regmem base off => some (rmem reg base off 0 NOINDEX)
  | .regmemscaled base off scale index => some (rmem reg base off scale index)
  | .absmem addr => some (mem reg addr)
  | _ => none

/-- A register or an operand in memory. -/
def rmArg {L : Type} (reg : Nat) : Arg L → Option (List Byte)
  | .reg r => some [modrm 3 reg r]
  | a => memArg reg a

/-! ## The first pass -/

/-- ADD, OR, AND, SUB, XOR and CMP, which differ by the digit of their opcodes. -/
def arith (digit : Nat) : Arg Nat → Arg Nat → Option (List Byte)
  | .reg d, .imm v =>
    if d = EAX then some (BitVec.ofNat 8 (digit * 8 + 5) :: dword v)
    else some (0x81 :: modrm 3 digit d :: dword v)
  | .reg d, .reg s => some [BitVec.ofNat 8 (digit * 8 + 1), modrm 3 s d]
  | .reg d, src => (memArg d src).map (BitVec.ofNat 8 (digit * 8 + 3) :: ·)
  | dst, .imm v => (memArg digit dst).map (fun m => 0x81 :: m ++ dword v)
  | _, _ => none

def encodeMov : Arg Nat → Arg Nat → Option (List Byte)
  | .reg d, .reg s => some [0x89, modrm 3 s d]
  | .absmem a, .reg s =>
    if s = EAX then some (0xA3 :: dword a) else some (0x89 :: modrm 0 s 5 :: dword a)
  | .reg d, .absmem a => if d = EAX then some (0xA1 :: dword a) else some (0x8B :: mem d a)
  | .reg d, .imm v => some (BitVec.ofNat 8 (0xB8 + d) :: dword v)
  | .reg d, .label _ => some (BitVec.ofNat 8 (0xB8 + d) :: dword 0)
  | .reg d, src => (memArg d src).map (0x8B :: ·)
  | dst, .reg s => (memArg s dst).map (0x89 :: ·)
  | dst, .imm v => (memArg 0 dst).map (fun m => 0xC7 :: m ++ dword v)
  | _, _ => none

/-- The nine shapes with a register destination end in a silent `else`. -/
def encodeImul : Arg Nat → Arg Nat → Option (List Byte)
  | .reg d, .imm v => some (0x69 :: modrm 3 d d :: dword v)
  | .reg d, .reg s => some [0x0F, 0xAF, modrm 3 d s]
  | .reg d, src =>
    match memArg d src with
    | some m => some (0x0F :: 0xAF :: m)
    | none => some []
  | _, _ => some []

/-- An arithmetic instruction of the FPU: `st` is its opcode for a register, `m` for memory. -/
def encodeFpu (st : Byte × Nat) (m : Byte × Nat) : Arg Nat → Option (List Byte)
  | .reg r => some [st.1, BitVec.ofNat 8 (st.2 + r)]
  | dst => (memArg m.2 dst).map (m.1 :: ·)

/-- A shift by a constant. -/
def encodeShift (digit : Nat) : Arg Nat → Arg Nat → Option (List Byte)
  | .reg d, .imm v => some [0xC1, modrm 3 digit d, v.setWidth 8]
  | _, _ => none

/-- A conditional jump. The bytes are left as they are in memory. -/
def reserve (room : List Byte) : Arg Nat → Option (List Byte)
  | .label _ => some room
  | _ => none

/-- The bytes of the first pass; `room` is what is in memory before a conditional jump is
written. -/
def firstPass (room : List Byte) (i : X86Instr) : Option (List Byte) :=
  match i.op with
  | .push =>
    match i.dst with
    | .imm v => some (0x68 :: dword v)
    | .reg r => some [BitVec.ofNat 8 (0x50 + r)]
    | dst => (memArg 6 dst).map (0xFF :: ·)
  | .pop =>
    match i.dst with
    | .reg r => some [BitVec.ofNat 8 (0x58 + r)]
    | dst => (memArg 0 dst).map (0x8F :: ·)
  | .shl => encodeShift 4 i.dst i.src
  | .shr => encodeShift 5 i.dst i.src
  | .mov => encodeMov i.dst i.src
  | .add => arith 0 i.dst i.src
  | .or => arith 1 i.dst i.src
  | .and => arith 4 i.dst i.src
  | .sub => arith 5 i.dst i.src
  | .xor => arith 6 i.dst i.src
  | .cmp => arith 7 i.dst i.src
  | .jmp =>
    match i.dst with
    | .label _ => some (0xE9 :: dword 0)
    | dst => (rmArg 4 dst).map (0xFF :: ·)
  | .call =>
    match i.dst with
    | .label _ => some (0xE8 :: dword 0)
    | dst => (rmArg 2 dst).map (0xFF :: ·)
  | .jz | .jne | .jg | .jge | .jl | .jle | .jnb | .jnbe | .jna | .jnae => reserve room i.dst
  | .ret => some [0xC3]
  | .leave => some [0xC9]
  | .not => (rmArg 2 i.dst).map (0xF7 :: ·)
  | .idiv => (rmArg 7 i.dst).map (0xF7 :: ·)
  | .nop => some [0x90]
  | .pushad => some [0x60]
  | .popad => some [0x61]
  | .imul => encodeImul i.dst i.src
  | .lea =>
    match i.dst with
    | .reg d => (memArg d i.src).map (0x8D :: ·)
    | _ => none
  | .fld64 => encodeFpu (0xD9, 0xC0) (0xDD, 0) i.dst
  | .fst64 => encodeFpu (0xDD, 0xD0) (0xDD, 2) i.dst
  | .fstp64 => encodeFpu (0xDD, 0xD8) (0xDD, 3) i.dst
  | .fild => (memArg 0 i.dst).map (0xDB :: ·)
  | .fadd => encodeFpu (0xD8, 0xC0) (0xDC, 0) i.dst
  | .fsub => encodeFpu (0xD8, 0xE0) (0xDC, 4) i.dst
  | .fmul => encodeFpu (0xD8, 0xC8) (0xDC, 1) i.dst
  | .fdiv => encodeFpu (0xD8, 0xF0) (0xDC, 6) i.dst
  | .fucompp => some [0xDA, 0xE9]
  | .fnstswAx => some [0xDF, 0xE0]
  | .sahf => some [0x9E]
  | .fsqrt => some [0xD9, 0xFA]
  | .int3 => some [0xCC]
  | .pushf => some [0x9C]
  | .popf => some [0x9D]
  | .none => some []

/-- The instructions with their addresses and bytes, from the address `addr` on. `room` is the
memory that the code is written to. -/
def layout (labels : Nat) (room : Nat → Byte) : Nat → List X86Instr →
    Option (List (Nat × List Byte))
  | _, [] => some []
  | addr, i :: is => do
    guard (∀ l ∈ i.label, l < labels)
    let bytes ← firstPass ((List.range 6).map (fun k => room (addr + k))) i
    let rest ← layout labels room (addr + bytes.length) is
    return (addr, bytes) :: rest

/-- `labeladdrs` after the first pass. -/
def labelAddrs (is : List X86Instr) (chunks : List (Nat × List Byte)) : Nat → Nat :=
  (is.zip chunks).foldl (fun addrs ic =>
    match ic.1.label with
    | some l => Function.update addrs l ic.2.1
    | none => addrs) (fun _ => 0)

/-! ## The second pass -/

/-- The distance from the end of an instruction of `size` bytes at `addr` to a label. -/
def relative (labeladdr addr size : Nat) : Word := BitVec.ofInt 32 ((labeladdr : Int) - addr - size)

/-- The second opcode byte of the conditional jumps. -/
def Op.condition : Op → Option Byte
  | .jz => some 0x84
  | .jne => some 0x85
  | .jg => some 0x8F
  | .jge => some 0x8D
  | .jl => some 0x8C
  | .jle => some 0x8E
  | .jnb => some 0x83
  | .jnbe => some 0x87
  | .jna => some 0x86
  | .jnae => some 0x82
  | _ => Option.none

/-- The bytes that the second pass writes over an instruction at `addr`, if any. `isgetnextaddr` is
never set, so ADD is not written again. -/
def secondPass (labels : Nat) (labeladdrs : Nat → Nat) (addr : Nat) (i : X86Instr) :
    Option (List Byte) :=
  match i.op, i.dst, i.src with
  | .mov, .reg d, .label l =>
    some (BitVec.ofNat 8 (0xB8 + d) :: dword (BitVec.ofNat 32 (labeladdrs l)))
  | .jmp, .label l, _ => do
    guard (l < labels)
    return 0xE9 :: dword (relative (labeladdrs l) addr 5)
  | .call, .label l, _ => do
    guard (l < labels)
    return 0xE8 :: dword (relative (labeladdrs l) addr 5)
  | op, .label l, _ =>
    match op.condition with
    | some cc => do
      guard (l < labels)
      return 0x0F :: cc :: dword (relative (labeladdrs l) addr 6)
    | none => some []
  | _, _, _ => some []

/-- Bytes written over those at `addr`. -/
def overwrite (code : List Byte) (addr : Nat) (bytes : List Byte) : List Byte :=
  code.take addr ++ bytes ++ code.drop (addr + bytes.length)

/-- The loop of the second pass. -/
def patchAll (labels : Nat) (labeladdrs : Nat → Nat) : List Byte → List (X86Instr × Nat) →
    Option (List Byte)
  | code, [] => some code
  | code, (i, addr) :: rest => do
    let bytes ← secondPass labels labeladdrs addr i
    patchAll labels labeladdrs (overwrite code addr bytes) rest

/-- `x86_assemble` on an empty array: the code, and the field `addr` of each instruction. -/
def x86Assemble (labels : Nat) (room : Nat → Byte) (is : List X86Instr) :
    Option (List Byte × List Nat) := do
  let chunks ← layout labels room 0 is
  let addrs := chunks.map Prod.fst
  let code ← patchAll labels (labelAddrs is chunks) (chunks.flatMap Prod.snd) (is.zip addrs)
  return (code, addrs)

end Native
end NReduce
