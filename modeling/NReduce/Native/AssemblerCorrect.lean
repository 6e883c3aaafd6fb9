import NReduce.Native.Decode
import Mathlib.Data.Option.Basic

/-!
# NReduce.Native.AssemblerCorrect

What the assembler writes, the decoder reads back: first the operands, then each instruction, then
a whole list of instructions with its labels.
-/

namespace NReduce
namespace Native

/-! ## Bytes and operands -/

theorem fields_modrm (mod : Fin 4) (reg rm : Reg) :
    fields (modrm mod reg rm) = (mod, reg, rm) := by
  decide +revert

theorem fields_sib (scale : Fin 4) (index base : Reg) :
    fields (sib scale index base) = (scale, index, base) :=
  fields_modrm scale index base

@[simp] theorem readDword_dword (v : Word) (bs : List Byte) :
    readDword (dword v ++ bs) = some (v, bs) := by
  have hv : v.extractLsb' 24 8 ++ v.extractLsb' 16 8 ++ v.extractLsb' 8 8 ++ v.extractLsb' 0 8
      = v := by
    ext i hi
    simp only [BitVec.getElem_append, BitVec.getElem_extractLsb']
    grind
  simp [dword, readDword, hv]

theorem signExtend_setWidth {v : Word} (hle : v.toInt ≤ 127) (hge : -128 ≤ v.toInt) :
    (v.setWidth 8).signExtend 32 = v := by
  apply BitVec.eq_of_toInt_eq
  rw [BitVec.toInt_signExtend_of_le (by decide), BitVec.toInt_setWidth]
  grind

/-- The mode of the ModRM byte that `rmem` writes, and the bytes of its displacement. -/
def dispOf (base : Reg) (disp : Word) : Fin 4 × List Byte :=
  if disp = 0 ∧ base ≠ EBP then (0, [])
  else if disp.toInt ≤ 127 ∧ -128 ≤ disp.toInt then (1, [disp.setWidth 8])
  else (2, dword disp)

theorem rmem_eq (reg : Nat) (base : Reg) (disp : Word) (scale : Fin 4) (index : Reg) :
    rmem reg base disp scale index =
      if base = ESP ∨ index ≠ NOINDEX then
        modrm (dispOf base disp).1 reg 4 :: sib scale index base :: (dispOf base disp).2
      else modrm (dispOf base disp).1 reg base :: (dispOf base disp).2 := by
  unfold rmem dispOf
  by_cases hs : base = ESP ∨ index ≠ NOINDEX <;> simp only [hs, if_true, if_false] <;>
    split_ifs <;> rfl

theorem readDisp_dispOf (base : Reg) (disp : Word) (bs : List Byte) :
    readDisp (dispOf base disp).1 ((dispOf base disp).2 ++ bs) = some (disp, bs) := by
  unfold dispOf
  split_ifs with h0 h8
  · simp [readDisp, h0.1]
  · simp [readDisp, signExtend_setWidth h8.1 h8.2]
  · simp [readDisp]

theorem dispOf_ne_three (base : Reg) (disp : Word) : (dispOf base disp).1 ≠ 3 := by
  unfold dispOf
  split_ifs <;> simp

theorem dispOf_zero {base : Reg} {disp : Word} (h : (dispOf base disp).1 = 0) : base ≠ EBP := by
  unfold dispOf at h
  split_ifs at h with h0 h8
  · exact h0.2
  · simp at h
  · simp at h

theorem readModRM_rmem (reg : Reg) (base : Reg) (disp : Word) (scale : Fin 4) (index : Reg)
    (bs : List Byte) :
    readModRM (rmem reg base disp scale index ++ bs) =
      some (reg, .mem (some base) (if index = NOINDEX then none else some (scale, index)) disp,
        bs) := by
  have hm := dispOf_ne_three base disp
  have hd := readDisp_dispOf base disp bs
  have hz : ¬ ((dispOf base disp).1 = 0 ∧ base = 5) := fun h => dispOf_zero h.1 h.2
  rw [rmem_eq]
  by_cases hs : base = ESP ∨ index ≠ NOINDEX
  · have hf : fields (modrm (dispOf base disp).1 reg 4) = ((dispOf base disp).1, reg, 4) :=
      fields_modrm _ _ 4
    rw [if_pos hs]
    simp [readModRM, hf, readSib, fields_sib, hm, hz, hd]
    rfl
  · obtain ⟨hb, hi⟩ := not_or.mp hs
    have hb4 : base ≠ 4 := hb
    rw [if_neg hs, not_not.mp hi]
    simp [readModRM, fields_modrm, hm, hz, hd, hb4]

theorem readModRM_mem (reg : Reg) (addr : Word) (bs : List Byte) :
    readModRM (mem reg addr ++ bs) = some (reg, .mem none none addr, bs) := by
  have hf : fields (modrm 0 reg 5) = (0, reg, 5) := fields_modrm 0 _ 5
  simp [mem, readModRM, hf]

theorem readModRM_reg (reg r : Reg) (bs : List Byte) :
    readModRM (modrm 3 reg r :: bs) = some (reg, .reg r, bs) := by
  have hf : fields (modrm 3 reg r) = (3, reg, r) := fields_modrm 3 _ _
  simp [readModRM, hf]

/-- What an operand of an instruction says; `label` says it of a label. -/
def Arg.operand (label : Nat → Operand) : Arg Nat → Operand
  | .imm v => .imm v
  | .reg r => .reg r
  | .regmem base off => .mem (some base) Option.none off
  | .regmemscaled base off scale index => .mem (some base) (some (scale, index.val)) off
  | .absmem addr => .mem Option.none Option.none addr
  | .label l => label l
  | .none => .none

theorem memArg_inv {reg : Reg} {a : Arg Nat} {m : List Byte} (h : memArg reg a = some m)
    (label : Nat → Operand) :
    (∃ base index disp, a.operand label = .mem base index disp) ∧
      ∀ bs, readModRM (m ++ bs) = some (reg, a.operand label, bs) := by
  cases a with
  | regmem base off =>
    cases h
    exact ⟨⟨_, _, _, rfl⟩, fun bs => readModRM_rmem reg base off 0 NOINDEX bs⟩
  | regmemscaled base off scale index =>
    cases h
    refine ⟨⟨_, _, _, rfl⟩, fun bs => ?_⟩
    rw [readModRM_rmem, if_neg index.2]
    rfl
  | absmem addr =>
    cases h
    exact ⟨⟨_, _, _, rfl⟩, fun bs => readModRM_mem reg addr bs⟩
  | imm v => cases h
  | reg r => cases h
  | label l => cases h
  | none => cases h

theorem rmArg_reg (reg : Nat) (r : Reg) : rmArg reg (.reg r : Arg Nat) = some [modrm 3 reg r] := rfl

theorem rmArg_inv {reg : Reg} {a : Arg Nat} {m : List Byte} (h : rmArg reg a = some m)
    (label : Nat → Operand) (bs : List Byte) :
    readModRM (m ++ bs) = some (reg, a.operand label, bs) := by
  have hmem (ha : rmArg (reg : Nat) a = memArg reg a) :
      readModRM (m ++ bs) = some (reg, a.operand label, bs) :=
    (memArg_inv (ha ▸ h) label).2 bs
  cases a with
  | reg r =>
    cases h
    exact readModRM_reg reg r bs
  | imm v => cases h
  | label l => cases h
  | none => cases h
  | regmem base off => exact hmem rfl
  | regmemscaled base off scale index => exact hmem rfl
  | absmem addr => exact hmem rfl

/-! ## Instructions -/

theorem decodeOne_eq {b : Byte} {form : Form} (h : formOf b = some form)
    (ht : form ≠ .twoByte) (bs : List Byte) : decodeOne (b :: bs) = decodeForm bs form := by
  simp only [decodeOne, h]
  cases form <;> simp_all

theorem decodeOne_twoByte {b : Byte} {form : Form} (h : twoByteMap b.toNat = some form)
    (bs : List Byte) : decodeOne (0x0F :: b :: bs) = decodeForm bs form := by
  have h0F : formOf 0x0F#8 = some .twoByte := rfl
  simp [decodeOne, h0F, h]

theorem formOf_push (r : Reg) : formOf (BitVec.ofNat 8 (0x50 + r)) = some (.opReg .push r) := by
  decide +revert

theorem formOf_pop (r : Reg) : formOf (BitVec.ofNat 8 (0x58 + r)) = some (.opReg .pop r) := by
  decide +revert

theorem formOf_mov (r : Reg) : formOf (BitVec.ofNat 8 (0xB8 + r)) = some (.opRegImm .mov r) := by
  decide +revert

variable (dl sl : Nat → Operand) (bs : List Byte)

theorem decodeOne_rmReg {b : Byte} {op : Op} {r : Reg} {a : Arg Nat} {m : List Byte}
    (hb : formOf b = some (.rmReg op)) (hm : rmArg r a = some m) :
    decodeOne (b :: m ++ bs) = some (⟨op, a.operand dl, .reg r⟩, bs) := by
  rw [List.cons_append, decodeOne_eq hb (by simp)]
  simp [decodeForm, rmArg_inv hm dl]

theorem decodeOne_regRm {b : Byte} {op : Op} {r : Reg} {a : Arg Nat} {m : List Byte}
    (hb : formOf b = some (.regRm op)) (hm : rmArg r a = some m) :
    decodeOne (b :: m ++ bs) = some (⟨op, .reg r, a.operand sl⟩, bs) := by
  rw [List.cons_append, decodeOne_eq hb (by simp)]
  simp [decodeForm, rmArg_inv hm sl]

theorem decodeOne_opRegImm {b : Byte} {op : Op} {r : Reg} (v : Word)
    (hb : formOf b = some (.opRegImm op r)) :
    decodeOne (b :: dword v ++ bs) = some (⟨op, .reg r, .imm v⟩, bs) := by
  rw [List.cons_append, decodeOne_eq hb (by simp)]
  simp [decodeForm]

theorem decodeOne_group {b : Byte} {g : Nat} {op : Op} {d : Reg} {a : Arg Nat} {c : List Byte}
    (hb : formOf b = some (.group g)) (hg : groupMap g d = some (op, .zero))
    (h : (rmArg d a).map (b :: ·) = some c) :
    decodeOne (c ++ bs) = some (⟨op, a.operand dl, .none⟩, bs) := by
  obtain ⟨m, hm, rfl⟩ := Option.map_eq_some_iff.mp h
  rw [List.cons_append, decodeOne_eq hb (by simp)]
  simp [decodeForm, rmArg_inv hm dl, hg, decodeImm]

theorem decodeOne_groupImm {b : Byte} {g : Nat} {op : Op} {d : Reg} {a : Arg Nat} {m : List Byte}
    (v : Word) (hb : formOf b = some (.group g)) (hg : groupMap g d = some (op, .dword))
    (hm : rmArg d a = some m) :
    decodeOne (b :: m ++ dword v ++ bs) = some (⟨op, a.operand dl, .imm v⟩, bs) := by
  rw [List.append_assoc, List.cons_append, decodeOne_eq hb (by simp)]
  simp [decodeForm, rmArg_inv hm dl, hg, decodeImm]

theorem decodeOne_relative {b : Byte} {op : Op} (d : Word) (hb : formOf b = some (.relative op)) :
    decodeOne (b :: dword d ++ bs) = some (⟨op, .rel d, .none⟩, bs) := by
  rw [List.cons_append, decodeOne_eq hb (by simp)]
  simp [decodeForm]

theorem decodeOne_imm (v : Word) :
    decodeOne (0x68 :: dword v ++ bs) = some (⟨.push, .imm v, .none⟩, bs) := by
  have hb : formOf 0x68 = some (.imm .push) := rfl
  rw [List.cons_append, decodeOne_eq hb (by simp)]
  simp [decodeForm]

theorem decodeOne_memAcc (a : Word) :
    decodeOne (0xA3 :: dword a ++ bs) = some (⟨.mov, .mem none none a, .reg EAX⟩, bs) := by
  have hb : formOf 0xA3 = some (.memAcc .mov) := rfl
  rw [List.cons_append, decodeOne_eq hb (by simp)]
  simp [decodeForm]

theorem decodeOne_accMem (a : Word) :
    decodeOne (0xA1 :: dword a ++ bs) = some (⟨.mov, .reg EAX, .mem none none a⟩, bs) := by
  have hb : formOf 0xA1 = some (.accMem .mov) := rfl
  rw [List.cons_append, decodeOne_eq hb (by simp)]
  simp [decodeForm]

theorem decodeOne_none {b : Byte} {op : Op} (hb : formOf b = some (.none op)) :
    decodeOne ([b] ++ bs) = some (⟨op, .none, .none⟩, bs) := by
  rw [List.cons_append, decodeOne_eq hb (by simp)]
  rfl

/-- An operand in memory is one of the operands that `rmArg` encodes. -/
theorem rmArg_of_memArg {reg : Nat} {a : Arg Nat} {m : List Byte} (h : memArg reg a = some m) :
    rmArg reg a = some m := by
  cases a with
  | reg r => cases h
  | imm v => cases h
  | label l => cases h
  | none => cases h
  | regmem base off => exact h
  | regmemscaled base off scale index => exact h
  | absmem addr => exact h

theorem aluOp_inv {d : Nat} {op : Op} (h : aluOp d = some op) :
    d < 8 ∧ formOf (BitVec.ofNat 8 (d * 8 + 1)) = some (.rmReg op) ∧
      formOf (BitVec.ofNat 8 (d * 8 + 3)) = some (.regRm op) ∧
      formOf (BitVec.ofNat 8 (d * 8 + 5)) = some (.opRegImm op EAX) := by
  unfold aluOp at h
  split at h <;> cases h <;> exact ⟨by decide, rfl, rfl, rfl⟩

theorem decodeOne_arith {digit : Nat} {op : Op} (hop : aluOp digit = some op) {dst src : Arg Nat}
    {b : List Byte} (h : arith digit dst src = some b) :
    decodeOne (b ++ bs) = some (⟨op, dst.operand dl, src.operand sl⟩, bs) := by
  obtain ⟨hlt, h1, h3, h5⟩ := aluOp_inv hop
  obtain ⟨digit, rfl⟩ : ∃ d : Reg, (d : Nat) = digit := ⟨⟨digit, hlt⟩, rfl⟩
  have hg : groupMap 0x81 digit = some (op, .dword) := by simp [groupMap, hop]
  have hsrc {d : Reg} (h : (memArg d src).map (BitVec.ofNat 8 (digit * 8 + 3) :: ·) = some b) :
      decodeOne (b ++ bs) = some (⟨op, .reg d, src.operand sl⟩, bs) := by
    obtain ⟨m, hm, rfl⟩ := Option.map_eq_some_iff.mp h
    exact decodeOne_regRm sl bs h3 (rmArg_of_memArg hm)
  have hdst {v : Word} (h : (memArg digit dst).map (fun m => 0x81 :: m ++ dword v) = some b) :
      decodeOne (b ++ bs) = some (⟨op, dst.operand dl, .imm v⟩, bs) := by
    obtain ⟨m, hm, rfl⟩ := Option.map_eq_some_iff.mp h
    exact decodeOne_groupImm dl bs v rfl hg (rmArg_of_memArg hm)
  revert h hsrc hdst
  fun_cases arith digit dst src
  · intro h _ _
    cases h
    exact decodeOne_opRegImm bs _ h5
  · intro h _ _
    cases h
    exact decodeOne_groupImm dl bs _ rfl hg (rmArg_reg digit _)
  · intro h _ _
    cases h
    exact decodeOne_rmReg dl bs h1 rfl
  · intro h hsrc _
    exact hsrc h
  · intro h _ hdst
    exact hdst h
  · intro h
    cases h

theorem decodeOne_mov {dst src : Arg Nat} {b : List Byte} (h : encodeMov dst src = some b)
    (hl : ∀ l, src ≠ .label l) :
    decodeOne (b ++ bs) = some (⟨.mov, dst.operand dl, src.operand sl⟩, bs) := by
  have hload {d : Reg} (h : (memArg d src).map (0x8B :: ·) = some b) :
      decodeOne (b ++ bs) = some (⟨.mov, .reg d, src.operand sl⟩, bs) := by
    obtain ⟨m, hm, rfl⟩ := Option.map_eq_some_iff.mp h
    exact decodeOne_regRm sl bs rfl (rmArg_of_memArg hm)
  have hstore {s : Reg} (h : (memArg s dst).map (0x89 :: ·) = some b) :
      decodeOne (b ++ bs) = some (⟨.mov, dst.operand dl, .reg s⟩, bs) := by
    obtain ⟨m, hm, rfl⟩ := Option.map_eq_some_iff.mp h
    exact decodeOne_rmReg dl bs rfl (rmArg_of_memArg hm)
  have hset {v : Word} (h : (memArg 0 dst).map (fun m => 0xC7 :: m ++ dword v) = some b) :
      decodeOne (b ++ bs) = some (⟨.mov, dst.operand dl, .imm v⟩, bs) := by
    obtain ⟨m, hm, rfl⟩ := Option.map_eq_some_iff.mp h
    exact decodeOne_groupImm (d := 0) dl bs v rfl rfl (rmArg_of_memArg hm)
  revert h hl hload hstore hset
  fun_cases encodeMov dst src
  · intro h _ _ _ _
    cases h
    exact decodeOne_rmReg dl bs rfl (rmArg_reg _ _)
  · intro h _ _ _ _
    cases h
    exact decodeOne_memAcc bs _
  · intro _ _ _ hstore _
    exact hstore ‹_›
  · intro h _ _ _ _
    cases h
    exact decodeOne_accMem bs _
  · intro h _ hload _ _
    exact hload h
  · intro h _ _ _ _
    cases h
    exact decodeOne_opRegImm bs _ (formOf_mov _)
  · intro _ hl
    exact absurd rfl (hl _)
  · intro h _ hload _ _
    exact hload h
  · intro h _ _ hstore _
    exact hstore h
  · intro h _ _ _ hset
    exact hset h
  · intro h
    cases h

theorem decodeOne_movLabel (d : Reg) (v : Word) :
    decodeOne (BitVec.ofNat 8 (0xB8 + d) :: dword v ++ bs) = some (⟨.mov, .reg d, .imm v⟩, bs) :=
  decodeOne_opRegImm bs v (formOf_mov d)

theorem decodeOne_imul {d : Reg} {src : Arg Nat} {b : List Byte}
    (h : encodeImul (.reg d) src = some b) (hn : src ≠ .none) (hl : ∀ l, src ≠ .label l) :
    decodeOne (b ++ bs) = some (⟨.imul, .reg d, src.operand sl⟩, bs) := by
  have h69 : formOf 0x69 = some (.regRegImm .imul) := rfl
  have hAF {m : List Byte} (hm : rmArg d src = some m) :
      decodeOne (0x0F :: 0xAF :: m ++ bs) = some (⟨.imul, .reg d, src.operand sl⟩, bs) := by
    have hb : twoByteMap (0xAF : Byte).toNat = some (.regRm .imul) := rfl
    rw [List.cons_append, List.cons_append, decodeOne_twoByte hb]
    simp [decodeForm, rmArg_inv hm sl]
  cases src with
  | imm v =>
    cases h
    rw [List.cons_append, decodeOne_eq h69 (by simp)]
    simp [decodeForm, readModRM_reg, Arg.operand]
  | reg s =>
    cases h
    exact hAF rfl
  | regmem base off =>
    cases h
    exact hAF rfl
  | regmemscaled base off scale index =>
    cases h
    exact hAF rfl
  | absmem addr =>
    cases h
    exact hAF rfl
  | label l => exact absurd rfl (hl l)
  | none => exact absurd rfl hn

theorem decodeOne_shift {d : Reg} {op : Op} {dst src : Arg Nat} {b : List Byte}
    (hg : groupMap 0xC1 d = some (op, .byte)) (h : encodeShift d dst src = some b)
    (hv : ∀ v, src = .imm v → v.toNat < 256) :
    decodeOne (b ++ bs) = some (⟨op, dst.operand dl, src.operand sl⟩, bs) := by
  have hC1 : formOf 0xC1 = some (.group 0xC1) := rfl
  revert h hv
  fun_cases encodeShift (d : Nat) dst src with
  | case1 r v =>
    intro h hv
    cases h
    have hw : (v.setWidth 8).setWidth 32 = v := by
      have := hv v rfl
      apply BitVec.eq_of_toNat_eq
      simp
      omega
    rw [List.cons_append, decodeOne_eq hC1 (by simp)]
    simp [decodeForm, readModRM_reg, hg, decodeImm, hw, Arg.operand]
  | case2 =>
    intro h
    cases h

theorem decodeOne_fpuMem {b : Byte} {k : Nat} {d : Reg} {op : Op} {dst : Arg Nat} {m : List Byte}
    (hb : formOf b = some (.fpu k)) (hop : fpuMemMap k d = some op) (hm : memArg d dst = some m) :
    decodeOne (b :: m ++ bs) = some (⟨op, dst.operand dl, .none⟩, bs) := by
  obtain ⟨⟨base, index, disp, hd⟩, hr⟩ := memArg_inv hm dl
  rw [List.cons_append, decodeOne_eq hb (by simp)]
  simp [decodeForm, decodeFpu, hr, hd, hop]

theorem decodeOne_fpuReg {b : Byte} {k : Nat} {d r : Reg} {op : Op} {st : Bool}
    (hb : formOf b = some (.fpu k)) (hop : fpuRegMap k d r = some (op, st)) :
    decodeOne ([b, modrm 3 d r] ++ bs) = some (⟨op, if st then .reg r else .none, .none⟩, bs) := by
  rw [List.cons_append, decodeOne_eq hb (by simp)]
  simp [decodeForm, decodeFpu, readModRM_reg, hop]

theorem decodeOne_fpu {st m : Byte × Nat} {k k' : Nat} {d e : Reg} {op : Op} {dst : Arg Nat}
    {b : List Byte} (h : encodeFpu st m dst = some b)
    (hst : formOf st.1 = some (.fpu k)) (hd : ∀ r : Reg, BitVec.ofNat 8 (st.2 + r) = modrm 3 d r)
    (hop : ∀ r, fpuRegMap k d r = some (op, true))
    (hm : formOf m.1 = some (.fpu k')) (he : m.2 = e) (hop' : fpuMemMap k' e = some op) :
    decodeOne (b ++ bs) = some (⟨op, dst.operand dl, .none⟩, bs) := by
  revert h
  fun_cases encodeFpu st m dst with
  | case1 r =>
    intro h
    cases h
    rw [hd]
    exact decodeOne_fpuReg bs hst (hop r)
  | case2 =>
    intro h
    obtain ⟨m', hm', rfl⟩ := Option.map_eq_some_iff.mp h
    rw [he] at hm'
    exact decodeOne_fpuMem dl bs hm hop' hm'

theorem decodeOne_opReg {b : Byte} {op : Op} {r : Reg} (hb : formOf b = some (.opReg op r)) :
    decodeOne ([b] ++ bs) = some (⟨op, .reg r, .none⟩, bs) := by
  rw [List.cons_append, decodeOne_eq hb (by simp)]
  rfl

theorem decodeOne_lea {d : Reg} {src : Arg Nat} {m : List Byte} (hm : memArg d src = some m) :
    decodeOne (0x8D :: m ++ bs) = some (⟨.lea, .reg d, src.operand sl⟩, bs) := by
  obtain ⟨⟨base, index, disp, hd⟩, hr⟩ := memArg_inv hm sl
  have hb : formOf 0x8D = some (.regMem .lea) := rfl
  rw [List.cons_append, decodeOne_eq hb (by simp)]
  simp [decodeForm, hr, hd]

theorem decodeOne_condition {op : Op} {cc : Byte} (d : Word) (h : op.condition = some cc) :
    decodeOne (0x0F :: cc :: dword d ++ bs) = some (⟨op, .rel d, .none⟩, bs) := by
  have hb : twoByteMap cc.toNat = some (.relative op) := by
    cases op <;> cases h <;> rfl
  rw [List.cons_append, List.cons_append, decodeOne_twoByte hb]
  simp [decodeForm]

/-- How many operands an instruction takes. -/
def Op.arity : Op → Nat
  | .ret | .leave | .nop | .pushad | .popad | .fucompp | .fnstswAx | .sahf | .fsqrt | .int3
  | .pushf | .popf | .none => 0
  | .push | .pop | .jmp | .jz | .jne | .jg | .jge | .jl | .jle | .jnb | .jnbe | .jna | .jnae
  | .call | .not | .idiv | .fld64 | .fst64 | .fstp64 | .fadd | .fsub | .fmul | .fdiv | .fild => 1
  | .mov | .cmp | .add | .sub | .and | .or | .xor | .imul | .lea | .shl | .shr => 2

/-- An instruction has no operands but those it takes, as the macros `I_*` build it; the count of a
shift is a byte, and the operands of IMUL are a register and a value, a register or memory. -/
structure X86Instr.Regular (i : X86Instr) : Prop where
  dst : i.op.arity = 0 → i.dst = .none
  src : i.op.arity ≤ 1 → i.src = .none
  shift : i.op = .shl ∨ i.op = .shr → ∀ v, i.src = .imm v → v.toNat < 256
  imul : i.op = .imul → (∃ d, i.dst = .reg d) ∧ i.src ≠ .none ∧ ∀ l, i.src ≠ .label l

/-- The instruction that the processor is to read; `dl` and `sl` say what stands for a label. -/
def X86Instr.decoded (dl sl : Nat → Operand) (i : X86Instr) : Decoded :=
  ⟨i.op, i.dst.operand dl, i.src.operand sl⟩

theorem decodeOne_firstPass {room : List Byte} {i : X86Instr} {b : List Byte}
    (h : firstPass room i = some b) (hr : i.Regular) (hn : i.op ≠ .none)
    (hd : ∀ l, i.dst ≠ .label l) (hs : ∀ l, i.src ≠ .label l) :
    decodeOne (b ++ bs) = some (i.decoded dl sl, bs) := by
  obtain ⟨op, dst, src, lab⟩ := i
  obtain ⟨hr0, hr1, hrs, hri⟩ := hr
  dsimp only at hr0 hr1 hrs hri hn hd hs
  simp only [firstPass] at h
  cases op with
  | push =>
    cases hr1 (by decide)
    cases dst with
    | imm v =>
      cases h
      exact decodeOne_imm bs v
    | reg r =>
      cases h
      exact decodeOne_opReg bs (formOf_push r)
    | regmem base off => exact decodeOne_group (d := 6) dl bs rfl rfl h
    | regmemscaled base off scale index => exact decodeOne_group (d := 6) dl bs rfl rfl h
    | absmem addr => exact decodeOne_group (d := 6) dl bs rfl rfl h
    | label l => cases h
    | none => cases h
  | pop =>
    cases hr1 (by decide)
    cases dst with
    | reg r =>
      cases h
      exact decodeOne_opReg bs (formOf_pop r)
    | regmem base off => exact decodeOne_group (d := 0) dl bs rfl rfl h
    | regmemscaled base off scale index => exact decodeOne_group (d := 0) dl bs rfl rfl h
    | absmem addr => exact decodeOne_group (d := 0) dl bs rfl rfl h
    | imm v => cases h
    | label l => cases h
    | none => cases h
  | jmp =>
    cases hr1 (by decide)
    cases dst with
    | label l => exact absurd rfl (hd l)
    | _ => exact decodeOne_group (d := 4) dl bs rfl rfl h
  | call =>
    cases hr1 (by decide)
    cases dst with
    | label l => exact absurd rfl (hd l)
    | _ => exact decodeOne_group (d := 2) dl bs rfl rfl h
  | mov => exact decodeOne_mov dl sl bs h hs
  | cmp => exact decodeOne_arith dl sl bs rfl h
  | add => exact decodeOne_arith dl sl bs rfl h
  | sub => exact decodeOne_arith dl sl bs rfl h
  | and => exact decodeOne_arith dl sl bs rfl h
  | or => exact decodeOne_arith dl sl bs rfl h
  | xor => exact decodeOne_arith dl sl bs rfl h
  | not =>
    cases hr1 (by decide)
    exact decodeOne_group (d := 2) dl bs rfl rfl h
  | idiv =>
    cases hr1 (by decide)
    exact decodeOne_group (d := 7) dl bs rfl rfl h
  | shl => exact decodeOne_shift (d := 4) dl sl bs rfl h (hrs (.inl rfl))
  | shr => exact decodeOne_shift (d := 5) dl sl bs rfl h (hrs (.inr rfl))
  | imul =>
    obtain ⟨⟨d, rfl⟩, hnone, hlabel⟩ := hri rfl
    exact decodeOne_imul sl bs h hnone hlabel
  | lea =>
    cases dst with
    | reg d =>
      obtain ⟨m, hm, rfl⟩ := Option.map_eq_some_iff.mp h
      exact decodeOne_lea sl bs hm
    | _ => cases h
  | fld64 =>
    cases hr1 (by decide)
    exact decodeOne_fpu (d := 0) (e := 0) dl bs h rfl (by decide) (fun _ => rfl) rfl rfl rfl
  | fst64 =>
    cases hr1 (by decide)
    exact decodeOne_fpu (d := 2) (e := 2) dl bs h rfl (by decide) (fun _ => rfl) rfl rfl rfl
  | fstp64 =>
    cases hr1 (by decide)
    exact decodeOne_fpu (d := 3) (e := 3) dl bs h rfl (by decide) (fun _ => rfl) rfl rfl rfl
  | fadd =>
    cases hr1 (by decide)
    exact decodeOne_fpu (d := 0) (e := 0) dl bs h rfl (by decide) (fun _ => rfl) rfl rfl rfl
  | fsub =>
    cases hr1 (by decide)
    exact decodeOne_fpu (d := 4) (e := 4) dl bs h rfl (by decide) (fun _ => rfl) rfl rfl rfl
  | fmul =>
    cases hr1 (by decide)
    exact decodeOne_fpu (d := 1) (e := 1) dl bs h rfl (by decide) (fun _ => rfl) rfl rfl rfl
  | fdiv =>
    cases hr1 (by decide)
    exact decodeOne_fpu (d := 6) (e := 6) dl bs h rfl (by decide) (fun _ => rfl) rfl rfl rfl
  | fild =>
    cases hr1 (by decide)
    obtain ⟨m, hm, rfl⟩ := Option.map_eq_some_iff.mp h
    exact decodeOne_fpuMem (d := 0) dl bs rfl rfl hm
  | fucompp =>
    cases hr0 rfl
    cases hr1 (by decide)
    cases h
    exact decodeOne_fpuReg (k := 2) (d := 5) (r := 1) bs rfl rfl
  | fnstswAx =>
    cases hr0 rfl
    cases hr1 (by decide)
    cases h
    exact decodeOne_fpuReg (k := 7) (d := 4) (r := 0) bs rfl rfl
  | fsqrt =>
    cases hr0 rfl
    cases hr1 (by decide)
    cases h
    exact decodeOne_fpuReg (k := 1) (d := 7) (r := 2) bs rfl rfl
  | none => exact absurd rfl hn
  | ret | leave | nop | pushad | popad | sahf | int3 | pushf | popf =>
    cases hr0 rfl
    cases hr1 (by decide)
    cases h
    exact decodeOne_none bs rfl
  | jz | jne | jg | jge | jl | jle | jnb | jnbe | jna | jnae =>
    cases dst with
    | label l => exact absurd rfl (hd l)
    | _ => cases h

/-! ## Labels -/

/-- The instructions that take a label as a destination, with the bytes of the first pass. -/
theorem firstPass_dst_label {room : List Byte} {i : X86Instr} {b : List Byte} {l : Nat}
    (h : firstPass room i = some b) (hr : i.Regular) (hn : i.op ≠ .none) (hd : i.dst = .label l) :
    i.src = .none ∧
      (i.op = .jmp ∧ b.length = 5 ∨ i.op = .call ∧ b.length = 5 ∨
        (∃ cc, i.op.condition = some cc) ∧ b = room) := by
  obtain ⟨op, dst, src, lab⟩ := i
  obtain ⟨hr0, hr1, hrs, hri⟩ := hr
  dsimp only at hr0 hr1 hri hn hd
  subst hd
  simp only [firstPass] at h
  cases op with
  | jmp =>
    cases h
    exact ⟨hr1 (by decide), .inl ⟨rfl, rfl⟩⟩
  | call =>
    cases h
    exact ⟨hr1 (by decide), .inr (.inl ⟨rfl, rfl⟩)⟩
  | jz | jne | jg | jge | jl | jle | jnb | jnbe | jna | jnae =>
    cases h
    exact ⟨hr1 (by decide), .inr (.inr ⟨⟨_, rfl⟩, rfl⟩)⟩
  | none => exact absurd rfl hn
  | imul =>
    obtain ⟨⟨d, hd⟩, -⟩ := hri rfl
    cases hd
  | ret | leave | nop | pushad | popad | sahf | int3 | pushf | popf | fucompp | fnstswAx
  | fsqrt => cases hr0 rfl
  | mov | cmp | add | sub | and | or | xor | shl | shr => cases src <;> cases h
  | push | pop | lea | not | idiv | fld64 | fst64 | fstp64 | fadd | fsub | fmul | fdiv | fild =>
    cases h

/-- MOV is the instruction that takes a label as a source. -/
theorem firstPass_src_label {room : List Byte} {i : X86Instr} {b : List Byte} {l : Nat}
    (h : firstPass room i = some b) (hr : i.Regular) (hs : i.src = .label l) :
    i.op = .mov ∧ ∃ d, i.dst = .reg d ∧ b.length = 5 := by
  obtain ⟨op, dst, src, lab⟩ := i
  obtain ⟨hr0, hr1, hrs, hri⟩ := hr
  dsimp only at hr0 hr1 hri hs
  subst hs
  simp only [firstPass] at h
  by_cases ha : op.arity ≤ 1
  · cases hr1 ha
  cases op with
  | mov =>
    cases dst with
    | reg d =>
      cases h
      exact ⟨rfl, d, rfl, rfl⟩
    | _ => cases h
  | imul => exact absurd rfl ((hri rfl).2.2 l)
  | cmp | add | sub | and | or | xor | shl | shr | lea => cases dst <;> cases h
  | _ => exact absurd (by decide) ha

/-- What is in memory at an instruction after the second pass. -/
def rewritten (b b' : List Byte) : List Byte := if b' = [] then b else b'

section SecondPass

variable {labels addr : Nat} {A : Nat → Nat} {room b b' : List Byte} {i : X86Instr}

theorem secondPass_condition {op : Op} {cc : Byte} {l : Nat} {src : Arg Nat} {lab : Option Nat}
    (hcc : op.condition = some cc)
    (h : secondPass labels A addr ⟨op, .label l, src, lab⟩ = some b') :
    b' = 0x0F :: cc :: dword (relative (A l) addr 6) := by
  have heq : secondPass labels A addr ⟨op, .label l, src, lab⟩ = (do
      guard (l < labels)
      return 0x0F :: cc :: dword (relative (A l) addr 6)) := by
    cases op <;> cases hcc <;> rfl
  rw [heq] at h
  simp only [Option.bind_eq_bind, Option.bind_eq_some_iff] at h
  obtain ⟨-, -, h⟩ := h
  cases h
  rfl

theorem secondPass_no_label (hd : ∀ l, i.dst ≠ .label l) (hs : ∀ l, i.src ≠ .label l) :
    secondPass labels A addr i = some [] := by
  unfold secondPass
  split
  · exact absurd ‹_› (hs _)
  · exact absurd ‹_› (hd _)
  · exact absurd ‹_› (hd _)
  · exact absurd ‹_› (hd _)
  · rfl

/-- The second pass writes a jump, a call or a MOV again in as many bytes, and nothing else. -/
theorem secondPass_inv (h : firstPass room i = some b) (h' : secondPass labels A addr i = some b')
    (hr : i.Regular) (hn : i.op ≠ .none) (hroom : room.length = 6) :
    (rewritten b b').length = b.length ∧ ∀ bs, decodeOne (rewritten b b' ++ bs) =
      some (i.decoded (fun l => .rel (relative (A l) addr b.length))
        (fun l => .imm (BitVec.ofNat 32 (A l))), bs) := by
  by_cases hd : ∃ l, i.dst = .label l
  · obtain ⟨l, hd⟩ := hd
    obtain ⟨hs, hop⟩ := firstPass_dst_label h hr hn hd
    obtain ⟨op, dst, src, lab⟩ := i
    dsimp only at hd hs hop
    subst hd hs
    rcases hop with ⟨rfl, hb⟩ | ⟨rfl, hb⟩ | ⟨⟨cc, hcc⟩, hb⟩
    · simp only [secondPass, Option.bind_eq_bind, Option.bind_eq_some_iff] at h'
      obtain ⟨-, -, h'⟩ := h'
      cases h'
      rw [hb]
      exact ⟨rfl, fun bs => decodeOne_relative bs _ rfl⟩
    · simp only [secondPass, Option.bind_eq_bind, Option.bind_eq_some_iff] at h'
      obtain ⟨-, -, h'⟩ := h'
      cases h'
      rw [hb]
      exact ⟨rfl, fun bs => decodeOne_relative bs _ rfl⟩
    · cases secondPass_condition hcc h'
      rw [hb, hroom]
      exact ⟨rfl, fun bs => decodeOne_condition bs _ hcc⟩
  · have hd : ∀ l, i.dst ≠ .label l := fun l h => hd ⟨l, h⟩
    by_cases hs : ∃ l, i.src = .label l
    · obtain ⟨l, hs⟩ := hs
      obtain ⟨hop, d, hdst, hb⟩ := firstPass_src_label h hr hs
      obtain ⟨op, dst, src, lab⟩ := i
      dsimp only at hop hdst hs
      subst hop hdst hs
      cases h'
      rw [hb]
      exact ⟨rfl, fun bs => decodeOne_movLabel bs d _⟩
    · have hs : ∀ l, i.src ≠ .label l := fun l h => hs ⟨l, h⟩
      rw [secondPass_no_label hd hs] at h'
      cases h'
      exact ⟨rfl, fun bs => decodeOne_firstPass _ _ bs h hr hn hd hs⟩

theorem secondPass_none (hr : i.Regular) (hn : i.op = .none) (h : firstPass room i = some b)
    (h' : secondPass labels A addr i = some b') : b = [] ∧ b' = [] := by
  obtain ⟨op, dst, src, lab⟩ := i
  dsimp only at hn
  subst hn
  have hd : dst = .none := hr.dst rfl
  subst hd
  cases h
  cases h'
  exact ⟨rfl, rfl⟩

end SecondPass

/-! ## Lists of instructions -/

/-- The instructions that the processor is to read, with their addresses. -/
def listing (target : Nat → Word) (is : List X86Instr) (addrs : List Nat) :
    List (Nat × Decoded) :=
  ((is.zip addrs).filter (fun p => p.1.op ≠ .none)).map
    (fun p => (p.2, p.1.decoded (fun l => .target (target l)) (fun l => .imm (target l))))

theorem resolve_relative (A addr size : Nat) :
    BitVec.ofNat 32 (addr + size) + relative A addr size = BitVec.ofNat 32 A := by
  rw [relative, ← BitVec.ofInt_natCast, ← BitVec.ofInt_natCast, ← BitVec.ofInt_add]
  congr 1
  push_cast
  omega

theorem overwrite_nil (code : List Byte) (addr : Nat) : overwrite code addr [] = code := by
  simp [overwrite]

theorem overwrite_append (pre b b' post : List Byte) (h : (rewritten b b').length = b.length) :
    overwrite (pre ++ (b ++ post)) pre.length b' = pre ++ rewritten b b' ++ post := by
  unfold rewritten at h ⊢
  unfold overwrite
  split_ifs at h ⊢ with hb
  · simp [hb]
  · simp [List.drop_append, h]

theorem decodeAll_append {c rest : List Byte} {d : Decoded} (hc : c ≠ [])
    (h : decodeOne (c ++ rest) = some (d, rest)) (fuel addr : Nat) :
    decodeAll (fuel + 1) addr (c ++ rest) =
      (decodeAll fuel (addr + c.length) rest).map
        ((addr, { d with dst := d.dst.resolve (addr + c.length) }) :: ·) := by
  cases c with
  | nil => exact absurd rfl hc
  | cons b c =>
    have hlen : (b :: (c ++ rest)).length - rest.length = (b :: c).length := by
      simp only [List.length_cons, List.length_append]
      omega
    rw [List.cons_append] at h ⊢
    simp only [decodeAll, h, Option.bind_eq_bind, Option.bind_some, hlen]
    cases decodeAll fuel (addr + (b :: c).length) rest <;> rfl

theorem operand_resolve (A : Nat → Nat) (addr size : Nat) (a : Arg Nat) :
    (a.operand (fun l => .rel (relative (A l) addr size))).resolve (addr + size) =
      a.operand (fun l => .target (BitVec.ofNat 32 (A l))) := by
  cases a with
  | label l => exact congrArg Operand.target (resolve_relative (A l) addr size)
  | _ => rfl

theorem decodeAll_patchAll {labels : Nat} {room : Nat → Byte} {A : Nat → Nat}
    {is : List X86Instr} :
    ∀ {addr : Nat} {chunks : List (Nat × List Byte)} {pre code : List Byte},
      layout labels room addr is = some chunks → pre.length = addr → (∀ i ∈ is, i.Regular) →
      patchAll labels A (pre ++ chunks.flatMap Prod.snd) (is.zip (chunks.map Prod.fst)) =
        some code →
      ∃ final, code = pre ++ final ∧ ∀ fuel, final.length ≤ fuel →
        decodeAll fuel addr final =
          some (listing (fun l => BitVec.ofNat 32 (A l)) is (chunks.map Prod.fst)) := by
  induction is with
  | nil =>
    intro addr chunks pre code hl hp hr h
    cases hl
    cases h
    refine ⟨[], ?_, ?_⟩
    · simp
    · intro fuel _
      cases fuel <;> rfl
  | cons i is ih =>
    intro addr chunks pre code hl hp hr h
    simp only [layout, Option.bind_eq_bind, Option.bind_eq_some_iff] at hl
    obtain ⟨-, -, b, hb, rest, hrest, hl⟩ := hl
    cases hl
    simp only [List.map_cons, List.zip_cons_cons, patchAll, Option.bind_eq_bind,
      Option.bind_eq_some_iff, List.flatMap_cons] at h
    obtain ⟨b', hb', h⟩ := h
    have hri := hr i (by simp)
    have hrs : ∀ j ∈ is, j.Regular := fun j hj => hr j (by simp [hj])
    by_cases hn : i.op = .none
    · -- a label takes no room
      obtain ⟨rfl, rfl⟩ := secondPass_none hri hn hb hb'
      rw [overwrite_nil] at h
      obtain ⟨final, rfl, hfinal⟩ := ih hrest hp hrs h
      exact ⟨final, rfl, fun fuel hf => by simpa [listing, hn] using hfinal fuel hf⟩
    · obtain ⟨hlen, hdec⟩ := secondPass_inv hb hb' hri hn (by simp)
      rw [← hp, overwrite_append _ _ _ _ hlen] at h
      obtain ⟨final, rfl, hfinal⟩ := ih hrest (by simp [hlen, hp]) hrs h
      refine ⟨rewritten b b' ++ final, by simp, ?_⟩
      intro fuel hf
      have hne : rewritten b b' ≠ [] := by
        intro he
        have := hdec []
        rw [he] at this
        cases this
      cases fuel with
      | zero =>
        rw [Nat.le_zero, List.length_append] at hf
        exact absurd (List.length_eq_zero_iff.mp (by omega)) hne
      | succ fuel =>
        have hpos := List.length_pos_iff.mpr hne
        rw [List.length_append] at hf
        rw [decodeAll_append hne (hdec final), hlen, hfinal fuel (by omega)]
        simp [listing, hn, X86Instr.decoded, operand_resolve]

theorem layout_length {labels : Nat} {room : Nat → Byte} {is : List X86Instr} :
    ∀ {addr : Nat} {chunks : List (Nat × List Byte)},
      layout labels room addr is = some chunks → chunks.length = is.length := by
  induction is with
  | nil =>
    intro addr chunks h
    cases h
    rfl
  | cons i is ih =>
    intro addr chunks h
    simp only [layout, Option.bind_eq_bind, Option.bind_eq_some_iff] at h
    obtain ⟨-, -, b, -, rest, hrest, h⟩ := h
    cases h
    simp [ih hrest]

theorem layout_head {labels addr : Nat} {room : Nat → Byte} {is : List X86Instr}
    {chunks : List (Nat × List Byte)} (h : layout labels room addr is = some chunks)
    (hne : is ≠ []) : chunks[0]?.map Prod.fst = some addr := by
  cases is with
  | nil => exact absurd rfl hne
  | cons i is =>
    simp only [layout, Option.bind_eq_bind, Option.bind_eq_some_iff] at h
    obtain ⟨-, -, b, -, rest, -, h⟩ := h
    cases h
    rfl

/-- NONE takes no room. -/
theorem layout_none {labels : Nat} {room : Nat → Byte} {is : List X86Instr} {i : X86Instr} :
    ∀ {addr k : Nat} {chunks : List (Nat × List Byte)},
      layout labels room addr is = some chunks → is[k]? = some i → i.op = .none →
      k + 1 < is.length → chunks[k + 1]?.map Prod.fst = chunks[k]?.map Prod.fst := by
  induction is with
  | nil =>
    intro addr k chunks _ hk
    cases hk
  | cons j is ih =>
    intro addr k chunks h hk hn hlt
    simp only [layout, Option.bind_eq_bind, Option.bind_eq_some_iff] at h
    obtain ⟨-, -, b, hb, rest, hrest, h⟩ := h
    cases h
    cases k with
    | zero =>
      cases hk
      have hb0 : b = [] := by simpa [firstPass, hn] using hb.symm
      subst hb0
      exact layout_head hrest (by rintro rfl; simp at hlt)
    | succ k =>
      rw [List.getElem?_cons_succ] at hk
      rw [List.getElem?_cons_succ, List.getElem?_cons_succ]
      exact ih hrest hk hn (by simpa using hlt)

/-- The address of the instruction that carries the label `l`. -/
def labelTarget (is : List X86Instr) (addrs : List Nat) (l : Nat) : Nat :=
  addrs.getD (is.findIdx (fun i => i.label = some l)) 0

def X86Instr.Refers (i : X86Instr) (l : Nat) : Prop := i.dst = .label l ∨ i.src = .label l

theorem foldl_label_of_count_zero {is : List X86Instr} {l : Nat} :
    ∀ {chunks : List (Nat × List Byte)} {A : Nat → Nat},
      (is.map X86Instr.label).count (some l) = 0 →
      (is.zip chunks).foldl (fun addrs ic =>
        match ic.1.label with
        | some l => Function.update addrs l ic.2.1
        | none => addrs) A l = A l := by
  induction is with
  | nil =>
    intro chunks A _
    rfl
  | cons i is ih =>
    intro chunks A h
    cases chunks with
    | nil => rfl
    | cons c chunks =>
      rw [List.map_cons, List.count_cons] at h
      have hi : i.label ≠ some l := by
        intro hi
        simp [hi] at h
      rw [List.zip_cons_cons, List.foldl_cons, ih (by omega)]
      cases hlab : i.label with
      | none => rfl
      | some k =>
        have hk : l ≠ k := fun hk => hi (by rw [hlab, hk])
        simp [hk]

theorem foldl_label_of_count_one {is : List X86Instr} {l : Nat} :
    ∀ {chunks : List (Nat × List Byte)} {A : Nat → Nat}, chunks.length = is.length →
      (is.map X86Instr.label).count (some l) = 1 →
      (is.zip chunks).foldl (fun addrs ic =>
        match ic.1.label with
        | some l => Function.update addrs l ic.2.1
        | none => addrs) A l = labelTarget is (chunks.map Prod.fst) l := by
  induction is with
  | nil =>
    intro chunks A _ h
    cases h
  | cons i is ih =>
    intro chunks A hlen h
    cases chunks with
    | nil => cases hlen
    | cons c chunks =>
      rw [List.map_cons, List.count_cons] at h
      rw [List.zip_cons_cons, List.foldl_cons]
      by_cases hi : i.label = some l
      · have hc : (is.map X86Instr.label).count (some l) = 0 := by simpa [hi] using h
        rw [foldl_label_of_count_zero hc]
        simp [hi, labelTarget, List.findIdx_cons]
      · have hc : (is.map X86Instr.label).count (some l) = 1 := by simpa [hi] using h
        rw [ih (by simpa using hlen) hc]
        simp [hi, labelTarget, List.findIdx_cons]

theorem operand_congr {a : Arg Nat} {f g : Nat → Operand} (h : ∀ l, a = .label l → f l = g l) :
    a.operand f = a.operand g := by
  cases a with
  | label l => exact h l rfl
  | _ => rfl

theorem listing_congr {is : List X86Instr} {addrs : List Nat} {f g : Nat → Word}
    (h : ∀ i ∈ is, ∀ l, i.Refers l → f l = g l) : listing f is addrs = listing g is addrs := by
  unfold listing
  apply List.map_congr_left
  rintro ⟨i, a⟩ hp
  have hi : i ∈ is := (List.of_mem_zip (List.mem_of_mem_filter hp)).1
  have hdst : i.dst.operand (fun l => .target (f l)) = i.dst.operand (fun l => .target (g l)) :=
    operand_congr (fun l hl => congrArg Operand.target (h i hi l (.inl hl)))
  have hsrc : i.src.operand (fun l => .imm (f l)) = i.src.operand (fun l => .imm (g l)) :=
    operand_congr (fun l hl => congrArg Operand.imm (h i hi l (.inr hl)))
  simp only [X86Instr.decoded, hdst, hsrc]

/-- Decoding the code of a list of instructions gives these instructions, each at the offset that
the assembler has recorded for it, and each label as the address of the instruction that carries
it. The instruction NONE of a label takes no room, so this is the address of the next one. -/
theorem decode_x86Assemble {labels : Nat} {room : Nat → Byte} {is : List X86Instr}
    {code : List Byte} {addrs : List Nat} (h : x86Assemble labels room is = some (code, addrs))
    (hr : ∀ i ∈ is, i.Regular)
    (hl : ∀ i ∈ is, ∀ l, i.Refers l → (is.map X86Instr.label).count (some l) = 1) :
    decode code = some (listing (fun l => BitVec.ofNat 32 (labelTarget is addrs l)) is addrs) ∧
      addrs.length = is.length ∧
      ∀ k i, is[k]? = some i → i.op = .none → k + 1 < is.length → addrs[k + 1]? = addrs[k]? := by
  simp only [x86Assemble, Option.bind_eq_bind, Option.bind_eq_some_iff] at h
  obtain ⟨chunks, hchunks, code', hcode, h⟩ := h
  cases h
  have hlen := layout_length hchunks
  obtain ⟨final, rfl, hfinal⟩ := decodeAll_patchAll hchunks List.length_nil hr hcode
  refine ⟨?_, ?_, ?_⟩
  · rw [decode, hfinal _ (Nat.le_refl _)]
    congr 1
    apply listing_congr
    intro i hi l hil
    congr 1
    exact foldl_label_of_count_one hlen (hl i hi l hil)
  · simpa using hlen
  · intro k i hk hn hlt
    simpa using layout_none hchunks hk hn hlt

/-- A loop that adds the elements of an array to a sum in memory. -/
def sumLoop : List X86Instr :=
  [⟨.mov, .reg 1, .imm 0, none⟩,
   ⟨.none, .none, .none, some 1⟩,
   ⟨.mov, .reg EAX, .regmemscaled EBP 8 2 ⟨1, by decide⟩, none⟩,
   ⟨.shl, .reg EAX, .imm 3, none⟩,
   ⟨.imul, .reg EAX, .regmem ESP 0, none⟩,
   ⟨.add, .absmem 0x1000, .imm 7, none⟩,
   ⟨.mov, .reg 2, .label 2, none⟩,
   ⟨.cmp, .reg 1, .reg 3, none⟩,
   ⟨.jne, .label 1, .none, none⟩,
   ⟨.call, .reg 2, .none, none⟩,
   ⟨.ret, .none, .none, some 2⟩]

theorem decode_x86Assemble_sumLoop :
    ∃ code addrs, x86Assemble 3 (fun _ => 0) sumLoop = some (code, addrs) ∧
      decode code = some (listing (fun l => BitVec.ofNat 32 (labelTarget sumLoop addrs l))
        sumLoop addrs) := by
  have hsome : (x86Assemble 3 (fun _ => 0) sumLoop).isSome := by decide
  obtain ⟨⟨code, addrs⟩, h⟩ := Option.isSome_iff_exists.mp hsome
  refine ⟨code, addrs, h, (decode_x86Assemble h ?_ ?_).1⟩
  · intro i hi
    simp only [sumLoop, List.mem_cons, List.not_mem_nil, or_false] at hi
    rcases hi with rfl | rfl | rfl | rfl | rfl | rfl | rfl | rfl | rfl | rfl | rfl <;>
      constructor <;> simp [Op.arity]
  · intro i hi l hl
    simp only [sumLoop, List.mem_cons, List.not_mem_nil, or_false] at hi
    rcases hi with rfl | rfl | rfl | rfl | rfl | rfl | rfl | rfl | rfl | rfl | rfl <;>
      simp [X86Instr.Refers] at hl <;> subst hl <;> decide

/-- What is accepted and not read back: the count of a shift that does not fit in its byte, an IMUL
whose source is not one it encodes, and an operand of an instruction that takes none. -/
theorem decode_x86Assemble_irregular :
    (∃ code addrs, x86Assemble 1 (fun _ => 0) [⟨.shl, .reg EAX, .imm 256, none⟩] =
        some (code, addrs) ∧
      ∀ target, decode code ≠ some (listing target [⟨.shl, .reg EAX, .imm 256, none⟩] addrs)) ∧
    (∃ code addrs, x86Assemble 1 (fun _ => 0) [⟨.imul, .reg EAX, .none, none⟩] =
        some (code, addrs) ∧
      ∀ target, decode code ≠ some (listing target [⟨.imul, .reg EAX, .none, none⟩] addrs)) ∧
    (∃ code addrs, x86Assemble 1 (fun _ => 0) [⟨.ret, .imm 8, .none, none⟩] =
        some (code, addrs) ∧
      ∀ target, decode code ≠ some (listing target [⟨.ret, .imm 8, .none, none⟩] addrs)) := by
  refine ⟨⟨[0xC1, 0xE0, 0], [0], rfl, ?_⟩, ⟨[], [0], rfl, ?_⟩, ⟨[0xC3], [0], rfl, ?_⟩⟩
  · intro target
    have hd : decode [0xC1, 0xE0, 0] = some [(0, ⟨.shl, .reg EAX, .imm 0⟩)] := by decide
    rw [hd]
    simp [listing, X86Instr.decoded, Arg.operand]
  · intro target
    simp [decode, decodeAll, listing]
  · intro target
    have hd : decode [0xC3] = some [(0, ⟨.ret, .none, .none⟩)] := by decide
    rw [hd]
    simp [listing, X86Instr.decoded, Arg.operand]

end Native
end NReduce
