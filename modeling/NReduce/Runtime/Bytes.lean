import NReduce.Logic.Codec
import NReduce.Runtime.Wire

/-!
# NReduce.Runtime.Bytes

The bytes of an object in a message (`data.c`): what the functions `write_*` append, and what the
functions `read_*` take. Tags are not written.

An `int` is its 32 bits, so that of -1 is the largest number.
-/

namespace NReduce
namespace Runtime

open Logic

variable {n : Nat}

/-! ## Writing -/

def intBytes (i : Nat) : List UInt8 := toBytes 4 i

def doubleBytes (d : UInt64) : List UInt8 := toBytes 8 d.toNat

def binaryBytes (b : List UInt8) : List UInt8 := intBytes b.length ++ b

def Gaddr.bytes (a : Gaddr n) : List UInt8 := intBytes a.tid ++ intBytes a.lid

def SocketId.bytes (s : SocketId) : List UInt8 :=
  intBytes s.ip.toNat ++ toBytes 2 s.port.toNat ++ intBytes s.localid.toNat ++ intBytes s.sid.toNat

namespace CellType

def cons : Nat := 0x03
def remoteref : Nat := 0x04
def aref : Nat := 0x07
def frame : Nat := 0x09
def cap : Nat := 0x0A
def nil : Nat := 0x0B
def number : Nat := 0x0C
def sysobject : Nat := 0x0E
def oArray : Nat := 0x10

end CellType

/-- `write_ref` -/
def Ref.bytes : Ref n → List UInt8
  | .number d => intBytes CellType.number ++ doubleBytes d
  | .nil => intBytes CellType.nil
  | .remote a => intBytes CellType.remoteref ++ a.bytes

/-- `sizeof(pntr)` -/
def pntrSize : Nat := 8

def Elements.elemsize {α : Type} : Elements α → Nat
  | .bytes _ => 1
  | .pntrs _ => pntrSize

def Elements.toBytes : Elements (Ref n) → List UInt8
  | .bytes b => binaryBytes b
  | .pntrs l => l.flatMap Ref.bytes

/-- `write_pntr` -/
def Obj.bytes : Obj n → List UInt8
  | .ref r => r.bytes
  | .cons addr head tail => intBytes CellType.cons ++ addr.bytes ++ head.bytes ++ tail.bytes
  | .aref addr index elements tail =>
    intBytes CellType.aref ++ addr.bytes ++ intBytes index ++ intBytes elements.elemsize ++
      intBytes elements.size ++ elements.toBytes ++ tail.bytes
  | .array addr elements =>
    intBytes CellType.oArray ++ addr.bytes ++ intBytes elements.elemsize ++
      intBytes elements.size ++ elements.toBytes
  | .frame addr address fetchers data _ =>
    intBytes CellType.frame ++ addr.bytes ++ intBytes address ++ intBytes fetchers.length ++
      fetchers.flatMap Gaddr.bytes ++ data.flatMap Ref.bytes
  | .cap addr arity address fno fileno lineno data =>
    intBytes CellType.cap ++ addr.bytes ++ intBytes arity ++ intBytes address ++ intBytes fno ++
      intBytes fileno ++ intBytes lineno ++ intBytes data.length ++ data.flatMap Ref.bytes
  | .sysobject addr type ownertid sockid =>
    intBytes CellType.sysobject ++ addr.bytes ++ intBytes type ++ intBytes ownertid ++ sockid.bytes

/-! ## Reading -/

abbrev ByteReader (α : Type) := Reader UInt8 α

def readInt : ByteReader Nat := readNat 4

def readDouble : ByteReader UInt64 := do return UInt64.ofNat (← readNat 8)

/-- The reader knows how long the data is. -/
def readBinary (len : Nat) : ByteReader (List UInt8) := do
  let blen ← readInt
  check (blen = len)
  takeItems len

/-- A number that is not that of a task of the group is in no message. -/
def readTid : ByteReader (Fin n) := do
  let i ← readInt
  if h : i < n then return ⟨i, h⟩ else failure

def readAddress : ByteReader (Gaddr n) := do
  let tid ← readTid
  let lid ← readInt
  return ⟨tid, lid⟩

def readSocketid : ByteReader SocketId := do
  let ip ← readInt
  let port ← readNat 2
  let localid ← readInt
  let sid ← readInt
  return ⟨.ofNat ip, .ofNat port, .ofNat localid, .ofNat sid⟩

/-- `read_pntr` where only a reference can be. -/
def readRefBytes : ByteReader (Ref n) := do
  let type ← readInt
  if type = CellType.number then return .number (← readDouble)
  else if type = CellType.nil then return .nil
  else if type = CellType.remoteref then return .remote (← readAddress)
  else failure

def readElementBytes (elemsize size : Nat) : ByteReader (Elements (Ref n)) := do
  if elemsize = 1 then return .bytes (← readBinary size)
  else do
    check (elemsize = pntrSize)
    return .pntrs (← many readRefBytes size)

/-- The bytes that `read_pntr` takes. A frame has as many slots as its instruction says. -/
def readBytes (expcount : Nat → Nat) : ByteReader (Obj n) := do
  let type ← readInt
  if type = CellType.number then return .ref (.number (← readDouble))
  else if type = CellType.nil then return .ref .nil
  else if type = CellType.remoteref then return .ref (.remote (← readAddress))
  else do
    let addr ← readAddress
    if type = CellType.aref then do
      let index ← readInt
      let elemsize ← readInt
      let size ← readInt
      let elements ← readElementBytes elemsize size
      let tail ← readRefBytes
      return .aref addr index elements tail
    else if type = CellType.oArray then do
      let elemsize ← readInt
      let size ← readInt
      let elements ← readElementBytes elemsize size
      return .array addr elements
    else if type = CellType.cons then do
      let head ← readRefBytes
      let tail ← readRefBytes
      return .cons addr head tail
    else if type = CellType.frame then do
      let address ← readInt
      let nfetchers ← readInt
      let fetchers ← many readAddress nfetchers
      let data ← many readRefBytes (expcount address)
      return .frame addr address fetchers data none
    else if type = CellType.cap then do
      let arity ← readInt
      let address ← readInt
      let fno ← readInt
      let fileno ← readInt
      let lineno ← readInt
      let count ← readInt
      let data ← many readRefBytes count
      return .cap addr arity address fno fileno lineno data
    else if type = CellType.sysobject then do
      let type ← readInt
      let ownertid ← readTid
      let sockid ← readSocketid
      return .sysobject addr type ownertid sockid
    else failure

/-! ## What is written is read back -/

/-- The numbers of a message are those of C. -/
def IsInt (i : Nat) : Prop := i < 256 ^ 4

instance (i : Nat) : Decidable (IsInt i) := inferInstanceAs (Decidable (i < 256 ^ 4))

def Gaddr.Fits (a : Gaddr n) : Prop := IsInt a.tid ∧ IsInt a.lid

def Ref.Fits : Ref n → Prop
  | .remote a => a.Fits
  | _ => True

def Elements.Fits : Elements (Ref n) → Prop
  | .bytes b => IsInt b.length
  | .pntrs l => IsInt l.length ∧ ∀ r ∈ l, r.Fits

def Obj.Fits : Obj n → Prop
  | .ref r => r.Fits
  | .cons addr head tail => addr.Fits ∧ head.Fits ∧ tail.Fits
  | .aref addr index elements tail => addr.Fits ∧ IsInt index ∧ elements.Fits ∧ tail.Fits
  | .array addr elements => addr.Fits ∧ elements.Fits
  | .frame addr address fetchers data _ =>
    addr.Fits ∧ IsInt address ∧ IsInt fetchers.length ∧ (∀ a ∈ fetchers, a.Fits) ∧
      ∀ r ∈ data, r.Fits
  | .cap addr arity address fno fileno lineno data =>
    addr.Fits ∧ IsInt arity ∧ IsInt address ∧ IsInt fno ∧ IsInt fileno ∧ IsInt lineno ∧
      IsInt data.length ∧ ∀ r ∈ data, r.Fits
  | .sysobject addr type ownertid _ => addr.Fits ∧ IsInt type ∧ IsInt ownertid

theorem readInt_reads {i : Nat} (h : IsInt i) : Reads readInt (intBytes i) i := Reads.readNat h

theorem readDouble_reads (d : UInt64) : Reads readDouble (doubleBytes d) d := by
  have h := (Reads.readNat (k := 8) (v := d.toNat) d.toNat_lt).map (f := UInt64.ofNat)
  rwa [UInt64.ofNat_toNat] at h

theorem readBinary_reads {b : List UInt8} (h : IsInt b.length) :
    Reads (readBinary b.length) (binaryBytes b) b :=
  (readInt_reads h).bind ((Reads.check rfl).bind (Reads.takeItems rfl))

theorem readTid_reads {t : Fin n} (h : IsInt t) : Reads readTid (intBytes t) t := by
  have hr : @Reads UInt8 _
      (if h : (t : Nat) < n then pure ⟨t, h⟩ else failure : Reader UInt8 (Fin n)) [] t := by
    rw [dif_pos t.isLt]
    exact Reads.ret t
  have hb := (readInt_reads h).bind
    (f := fun i => if h : i < n then pure (⟨i, h⟩ : Fin n) else failure) hr
  rwa [List.append_nil] at hb

theorem readAddress_reads {a : Gaddr n} (h : a.Fits) : Reads readAddress a.bytes a :=
  (readTid_reads h.1).bind (readInt_reads h.2).map

theorem readSocketid_reads (sockid : SocketId) : Reads readSocketid sockid.bytes sockid := by
  have hint : ∀ v : UInt32, IsInt v.toNat := fun v => v.toNat_lt
  have hport : sockid.port.toNat < 256 ^ 2 := sockid.port.toNat_lt
  have h : Reads readSocketid sockid.bytes
      ⟨.ofNat sockid.ip.toNat, .ofNat sockid.port.toNat, .ofNat sockid.localid.toNat,
        .ofNat sockid.sid.toNat⟩ := by
    simp only [SocketId.bytes, List.append_assoc]
    exact (readInt_reads (hint sockid.ip)).bind <| (Reads.readNat hport).bind <|
      (readInt_reads (hint sockid.localid)).bind (readInt_reads (hint sockid.sid)).map
  simpa only [UInt32.ofNat_toNat, UInt16.ofNat_toNat] using h

theorem readRefBytes_reads {r : Ref n} (h : r.Fits) : Reads readRefBytes r.bytes r := by
  cases r with
  | number d => exact (readInt_reads (by decide)).bind (readDouble_reads d).map
  | nil =>
    have hn := (readInt_reads (i := CellType.nil) (by decide)).map
      (f := fun _ => (Ref.nil : Ref n))
    exact hn
  | remote a => exact (readInt_reads (by decide)).bind (readAddress_reads h).map

theorem Elements.size_isInt {l : Elements (Ref n)} (h : l.Fits) : IsInt l.size := by
  cases l with
  | bytes b => exact h
  | pntrs l => exact h.1

theorem Elements.elemsize_isInt {α : Type} (l : Elements α) : IsInt l.elemsize := by
  cases l with
  | bytes b => exact (by decide : IsInt 1)
  | pntrs l => exact (by decide : IsInt pntrSize)

theorem readElementBytes_reads {l : Elements (Ref n)} (h : l.Fits) :
    Reads (readElementBytes l.elemsize l.size) l.toBytes l := by
  cases l with
  | bytes b => exact (readBinary_reads h).map
  | pntrs l =>
    have hm := Reads.many (fun r hr => readRefBytes_reads (h.2 r hr))
    exact (Reads.check rfl).bind hm.map

/-- The message does not have the origin of a frame. -/
def Obj.forget : Obj n → Obj n
  | .frame addr address fetchers data _ => .frame addr address fetchers data none
  | o => o

/-- A frame in a message has as many slots as the reader takes. -/
def Obj.Slots (expcount : Nat → Nat) : Obj n → Prop
  | .frame _ address _ data _ => data.length = expcount address
  | _ => True

theorem readBytes_reads (expcount : Nat → Nat) {o : Obj n} (h : o.Fits) (hs : o.Slots expcount) :
    Reads (readBytes expcount) o.bytes o.forget := by
  cases o with
  | ref r =>
    cases r with
    | number d => exact (readInt_reads (by decide)).bind (readDouble_reads d).map
    | nil =>
      have hn := (readInt_reads (i := CellType.nil) (by decide)).map
        (f := fun _ => Obj.ref (Ref.nil : Ref n))
      exact hn
    | remote a => exact (readInt_reads (by decide)).bind (readAddress_reads h).map
  | cons addr head tail =>
    obtain ⟨ha, hh, ht⟩ := h
    simp only [Obj.bytes, List.append_assoc]
    exact (readInt_reads (by decide)).bind <| (readAddress_reads ha).bind <|
      (readRefBytes_reads hh).bind (readRefBytes_reads ht).map
  | aref addr index elements tail =>
    obtain ⟨ha, hi, he, ht⟩ := h
    simp only [Obj.bytes, List.append_assoc]
    exact (readInt_reads (by decide)).bind <| (readAddress_reads ha).bind <|
      (readInt_reads hi).bind <| (readInt_reads elements.elemsize_isInt).bind <|
      (readInt_reads (Elements.size_isInt he)).bind <| (readElementBytes_reads he).bind
      (readRefBytes_reads ht).map
  | array addr elements =>
    obtain ⟨ha, he⟩ := h
    simp only [Obj.bytes, List.append_assoc]
    exact (readInt_reads (by decide)).bind <| (readAddress_reads ha).bind <|
      (readInt_reads elements.elemsize_isInt).bind <|
      (readInt_reads (Elements.size_isInt he)).bind (readElementBytes_reads he).map
  | frame addr address fetchers data origin =>
    obtain ⟨ha, hi, hl, hf, hd⟩ := h
    have hdata := Reads.many (fun r hr => readRefBytes_reads (hd r hr))
    have hslots : data.length = expcount address := hs
    rw [hslots] at hdata
    simp only [Obj.bytes, List.append_assoc]
    exact (readInt_reads (by decide)).bind <| (readAddress_reads ha).bind <|
      (readInt_reads hi).bind <| (readInt_reads hl).bind <|
      (Reads.many (fun a ha => readAddress_reads (hf a ha))).bind hdata.map
  | cap addr arity address fno fileno lineno data =>
    obtain ⟨ha, h1, h2, h3, h4, h5, hl, hd⟩ := h
    simp only [Obj.bytes, List.append_assoc]
    exact (readInt_reads (by decide)).bind <| (readAddress_reads ha).bind <|
      (readInt_reads h1).bind <| (readInt_reads h2).bind <| (readInt_reads h3).bind <|
      (readInt_reads h4).bind <| (readInt_reads h5).bind <| (readInt_reads hl).bind
      (Reads.many (fun r hr => readRefBytes_reads (hd r hr))).map
  | sysobject addr type ownertid sockid =>
    obtain ⟨ha, ht, ho⟩ := h
    simp only [Obj.bytes, List.append_assoc]
    exact (readInt_reads (by decide)).bind <| (readAddress_reads ha).bind <|
      (readInt_reads ht).bind <| (readTid_reads ho).bind (readSocketid_reads sockid).map

end Runtime
end NReduce
