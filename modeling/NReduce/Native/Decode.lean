import NReduce.Native.Assembler

/-!
# NReduce.Native.Decode

A decoder for the part of the IA-32 instruction set that the code generator uses, written from the
tables of the architecture and not from the assembler: the opcode maps, the groups whose ModRM byte
extends the opcode, the escape opcodes of the FPU, and the operands of a ModRM byte with its SIB
byte and displacement.
-/

namespace NReduce
namespace Native

/-- An operand as the processor reads it. -/
inductive Operand where
  | imm (val : Word)
  | reg (r : Reg)
  /-- `[base + index << scale + disp]` -/
  | mem (base : Option Reg) (index : Option (Fin 4 × Reg)) (disp : Word)
  /-- a distance from the end of the instruction -/
  | rel (dist : Word)
  | target (addr : Word)
  | none
  deriving DecidableEq

structure Decoded where
  op : Op
  dst : Operand
  src : Operand
  deriving DecidableEq

/-! ## Operands -/

def readDword : List Byte → Option (Word × List Byte)
  | a :: b :: c :: d :: rest => some (d ++ c ++ b ++ a, rest)
  | _ => none

/-- The two bits at the top of a ModRM or SIB byte, and the two fields of three bits. -/
def fields (b : Byte) : Fin 4 × Reg × Reg :=
  (Fin.ofNat 4 (b.toNat / 64), Fin.ofNat 8 (b.toNat / 8), Fin.ofNat 8 b.toNat)

/-- The displacement that follows the ModRM byte and the SIB byte. -/
def readDisp : Fin 4 → List Byte → Option (Word × List Byte)
  | 0, bs => some (0, bs)
  | 1, b :: bs => some (b.signExtend 32, bs)
  | 2, bs => readDword bs
  | _, _ => none

/-- The operand of a SIB byte. Without a displacement in the ModRM byte, base 5 stands for a
displacement of four bytes and no base. -/
def readSib (mod : Fin 4) : List Byte → Option (Operand × List Byte)
  | [] => none
  | s :: bs => do
    let (scale, index, base) := fields s
    let idx := if index = 4 then Option.none else some (scale, index)
    if mod = 0 ∧ base = 5 then
      let (disp, bs) ← readDword bs
      return (.mem Option.none idx disp, bs)
    else
      let (disp, bs) ← readDisp mod bs
      return (.mem (some base) idx disp, bs)

/-- A ModRM byte with all that belongs to it: the field `reg`, and the operand `r/m`. -/
def readModRM : List Byte → Option (Reg × Operand × List Byte)
  | [] => none
  | m :: bs => do
    let (mod, reg, rm) := fields m
    if mod = 3 then return (reg, .reg rm, bs)
    else if rm = 4 then
      let (o, bs) ← readSib mod bs
      return (reg, o, bs)
    else if mod = 0 ∧ rm = 5 then
      let (disp, bs) ← readDword bs
      return (reg, .mem Option.none Option.none disp, bs)
    else
      let (disp, bs) ← readDisp mod bs
      return (reg, .mem (some rm) Option.none disp, bs)

/-! ## Opcodes -/

/-- What follows an opcode, in the order in which the operands are written. -/
inductive Form where
  | none (op : Op)
  /-- `r/m32, r32` -/
  | rmReg (op : Op)
  /-- `r32, r/m32` -/
  | regRm (op : Op)
  /-- `r32, m` -/
  | regMem (op : Op)
  /-- `r32, imm32`, the register repeated in the ModRM byte -/
  | regRegImm (op : Op)
  /-- a register in the opcode -/
  | opReg (op : Op) (r : Reg)
  /-- a register in the opcode, and an `imm32` -/
  | opRegImm (op : Op) (r : Reg)
  | imm (op : Op)
  /-- `EAX, moffs32` -/
  | accMem (op : Op)
  /-- `moffs32, EAX` -/
  | memAcc (op : Op)
  | relative (op : Op)
  /-- the field `reg` of the ModRM byte is a part of the opcode -/
  | group (opcode : Nat)
  | fpu (opcode : Nat)
  | twoByte
  deriving DecidableEq

/-- The arithmetic instructions, by the digit in their opcodes. -/
def aluOp : Nat → Option Op
  | 0 => some .add
  | 1 => some .or
  | 4 => some .and
  | 5 => some .sub
  | 6 => some .xor
  | 7 => some .cmp
  | _ => none

/-- The one-byte opcodes: eight to a row. -/
def opcodeMap (row col : Nat) : Option Form :=
  match row, col with
  | 0x01, 7 => some .twoByte
  | 0x0A, r => some (.opReg .push (Fin.ofNat 8 r))
  | 0x0B, r => some (.opReg .pop (Fin.ofNat 8 r))
  | 0x0C, 0 => some (.none .pushad)
  | 0x0C, 1 => some (.none .popad)
  | 0x0D, 0 => some (.imm .push)
  | 0x0D, 1 => some (.regRegImm .imul)
  | 0x10, 1 => some (.group 0x81)
  | 0x11, 1 => some (.rmReg .mov)
  | 0x11, 3 => some (.regRm .mov)
  | 0x11, 5 => some (.regMem .lea)
  | 0x11, 7 => some (.group 0x8F)
  | 0x12, 0 => some (.none .nop)
  | 0x13, 4 => some (.none .pushf)
  | 0x13, 5 => some (.none .popf)
  | 0x13, 6 => some (.none .sahf)
  | 0x14, 1 => some (.accMem .mov)
  | 0x14, 3 => some (.memAcc .mov)
  | 0x17, r => some (.opRegImm .mov (Fin.ofNat 8 r))
  | 0x18, 1 => some (.group 0xC1)
  | 0x18, 3 => some (.none .ret)
  | 0x18, 7 => some (.group 0xC7)
  | 0x19, 1 => some (.none .leave)
  | 0x19, 4 => some (.none .int3)
  | 0x1B, c => some (.fpu c)
  | 0x1D, 0 => some (.relative .call)
  | 0x1D, 1 => some (.relative .jmp)
  | 0x1E, 7 => some (.group 0xF7)
  | 0x1F, 7 => some (.group 0xFF)
  | d, 1 => (aluOp d).map .rmReg
  | d, 3 => (aluOp d).map .regRm
  | d, 5 => (aluOp d).map (.opRegImm · EAX)
  | _, _ => none

/-- The opcode of a byte. -/
def formOf (b : Byte) : Option Form := opcodeMap (b.toNat / 8) (b.toNat % 8)

/-- The opcodes after 0F. -/
def twoByteMap : Nat → Option Form
  | 0x82 => some (.relative .jnae)
  | 0x83 => some (.relative .jnb)
  | 0x84 => some (.relative .jz)
  | 0x85 => some (.relative .jne)
  | 0x86 => some (.relative .jna)
  | 0x87 => some (.relative .jnbe)
  | 0x8C => some (.relative .jl)
  | 0x8D => some (.relative .jge)
  | 0x8E => some (.relative .jle)
  | 0x8F => some (.relative .jg)
  | 0xAF => some (.regRm .imul)
  | _ => none

/-- The size of the immediate of an instruction in a group. -/
inductive ImmSize where
  | zero | byte | dword

def groupMap : Nat → Nat → Option (Op × ImmSize)
  | 0x81, d => (aluOp d).map (·, .dword)
  | 0x8F, 0 => some (.pop, .zero)
  | 0xC1, 4 => some (.shl, .byte)
  | 0xC1, 5 => some (.shr, .byte)
  | 0xC7, 0 => some (.mov, .dword)
  | 0xF7, 2 => some (.not, .zero)
  | 0xF7, 7 => some (.idiv, .zero)
  | 0xFF, 2 => some (.call, .zero)
  | 0xFF, 4 => some (.jmp, .zero)
  | 0xFF, 6 => some (.push, .zero)
  | _, _ => none

/-- The escape opcodes D8 to DF with an operand in memory. -/
def fpuMemMap : Nat → Nat → Option Op
  | 3, 0 => some .fild
  | 4, 0 => some .fadd
  | 4, 1 => some .fmul
  | 4, 4 => some .fsub
  | 4, 6 => some .fdiv
  | 5, 0 => some .fld64
  | 5, 2 => some .fst64
  | 5, 3 => some .fstp64
  | _, _ => none

/-- The escape opcodes with a ModRM byte of C0 or more: the instruction, and whether the field
`r/m` is a register of the FPU stack. -/
def fpuRegMap : Nat → Nat → Reg → Option (Op × Bool)
  | 0, 0, _ => some (.fadd, true)
  | 0, 1, _ => some (.fmul, true)
  | 0, 4, _ => some (.fsub, true)
  | 0, 6, _ => some (.fdiv, true)
  | 1, 0, _ => some (.fld64, true)
  | 1, 7, 2 => some (.fsqrt, false)
  | 2, 5, 1 => some (.fucompp, false)
  | 5, 2, _ => some (.fst64, true)
  | 5, 3, _ => some (.fstp64, true)
  | 7, 4, 0 => some (.fnstswAx, false)
  | _, _, _ => none

/-! ## Instructions -/

def decodeImm : ImmSize → List Byte → Option (Operand × List Byte)
  | .zero, bs => some (.none, bs)
  | .byte, b :: bs => some (.imm (b.setWidth 32), bs)
  | .byte, [] => none
  | .dword, bs => (readDword bs).map (fun p => (.imm p.1, p.2))

def decodeFpu (opcode : Nat) (bs : List Byte) : Option (Decoded × List Byte) := do
  let (digit, o, bs) ← readModRM bs
  match o with
  | .reg r =>
    let (op, st) ← fpuRegMap opcode digit r
    return (⟨op, if st then o else .none, .none⟩, bs)
  | _ =>
    let op ← fpuMemMap opcode digit
    return (⟨op, o, .none⟩, bs)

/-- The instruction of a form whose operands are read from `bs`. -/
def decodeForm (bs : List Byte) : Form → Option (Decoded × List Byte)
  | .none op => some (⟨op, .none, .none⟩, bs)
  | .rmReg op => do
    let (r, o, bs) ← readModRM bs
    return (⟨op, o, .reg r⟩, bs)
  | .regRm op => do
    let (r, o, bs) ← readModRM bs
    return (⟨op, .reg r, o⟩, bs)
  | .regMem op => do
    let (r, o, bs) ← readModRM bs
    match o with
    | .mem _ _ _ => return (⟨op, .reg r, o⟩, bs)
    | _ => Option.none
  | .regRegImm op => do
    let (r, o, bs) ← readModRM bs
    let (v, bs) ← readDword bs
    guard (o = .reg r)
    return (⟨op, .reg r, .imm v⟩, bs)
  | .opReg op r => some (⟨op, .reg r, .none⟩, bs)
  | .opRegImm op r => do
    let (v, bs) ← readDword bs
    return (⟨op, .reg r, .imm v⟩, bs)
  | .imm op => do
    let (v, bs) ← readDword bs
    return (⟨op, .imm v, .none⟩, bs)
  | .accMem op => do
    let (a, bs) ← readDword bs
    return (⟨op, .reg EAX, .mem Option.none Option.none a⟩, bs)
  | .memAcc op => do
    let (a, bs) ← readDword bs
    return (⟨op, .mem Option.none Option.none a, .reg EAX⟩, bs)
  | .relative op => do
    let (d, bs) ← readDword bs
    return (⟨op, .rel d, .none⟩, bs)
  | .group opcode => do
    let (digit, o, bs) ← readModRM bs
    let (op, size) ← groupMap opcode digit
    let (v, bs) ← decodeImm size bs
    return (⟨op, o, v⟩, bs)
  | .fpu opcode => decodeFpu opcode bs
  | .twoByte => none

/-- The instruction at the start of some bytes, and the bytes after it. -/
def decodeOne : List Byte → Option (Decoded × List Byte)
  | [] => none
  | b :: bs => do
    match ← formOf b, bs with
    | .twoByte, [] => none
    | .twoByte, b' :: bs' => decodeForm bs' (← twoByteMap b'.toNat)
    | form, bs => decodeForm bs form

/-- A distance from `next`, the address after the instruction, made an address. -/
def Operand.resolve (next : Nat) : Operand → Operand
  | .rel d => .target (BitVec.ofNat 32 next + d)
  | o => o

/-- The instructions of a piece of code that starts at `addr`, with their addresses. -/
def decodeAll : Nat → Nat → List Byte → Option (List (Nat × Decoded))
  | _, _, [] => some []
  | 0, _, _ :: _ => none
  | fuel + 1, addr, b :: bs => do
    let (i, rest) ← decodeOne (b :: bs)
    let next := addr + ((b :: bs).length - rest.length)
    let is ← decodeAll fuel next rest
    return (addr, { i with dst := i.dst.resolve next }) :: is

/-- Code from offset 0 on. -/
def decode (code : List Byte) : Option (List (Nat × Decoded)) := decodeAll code.length 0 code

end Native
end NReduce
