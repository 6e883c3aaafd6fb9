import NReduce.Logic.Partial
import Mathlib.Data.List.Basic
import Mathlib.Tactic.Ring

/-!
# NReduce.Logic.Codec

Readers of a stream, and what they read back.

* `Reads d l a`: on a stream that starts with `l`, the reader `d` takes exactly `l` and gives `a`.
* one rule for each way to build a reader.
* numbers of a fixed width, the lowest byte first.
-/

namespace NReduce
namespace Logic

section

variable {ι α β : Type}

/-- A reader: the state is what is left of the stream. -/
abbrev Reader (ι α : Type) := Prog (List ι) α

def Reads (d : Reader ι α) (l : List ι) (a : α) : Prop := ∀ rest, d (l ++ rest) = some (a, rest)

theorem Reads.ret (a : α) : Reads (pure a : Reader ι α) [] a := fun _ => rfl

theorem Reads.bind {d : Reader ι α} {f : α → Reader ι β} {l l' : List ι} {a : α} {b : β}
    (hd : Reads d l a) (hf : Reads (f a) l' b) : Reads (d >>= f) (l ++ l') b := by
  intro rest
  rw [List.append_assoc]
  exact bind_eq_some.mpr ⟨a, l' ++ rest, hd (l' ++ rest), hf rest⟩

/-- The last step of a reader computes its result. -/
theorem Reads.map {d : Reader ι α} {f : α → β} {l : List ι} {a : α} (hd : Reads d l a) :
    Reads (d >>= fun x => pure (f x)) l (f a) := by
  have h := hd.bind (f := fun x => pure (f x)) (Reads.ret (f a))
  rwa [List.append_nil] at h

theorem Reads.check {c : Prop} [Decidable c] (hc : c) : Reads (check c : Reader ι Unit) [] () := by
  rw [check_true hc]
  exact Reads.ret ()

/-- The next `k` items. -/
def takeItems (k : Nat) : Reader ι (List ι) := fun l =>
  if k ≤ l.length then some (l.take k, l.drop k) else none

theorem Reads.takeItems {k : Nat} {l : List ι} (hl : l.length = k) : Reads (takeItems k) l l := by
  intro rest
  subst hl
  simp [Logic.takeItems]

/-- A reader, `k` times. -/
def many (d : Reader ι α) : Nat → Reader ι (List α)
  | 0 => pure []
  | k + 1 => do
    let a ← d
    let as ← many d k
    return a :: as

theorem Reads.many {d : Reader ι α} {enc : α → List ι} {as : List α}
    (h : ∀ a ∈ as, Reads d (enc a) a) : Reads (many d as.length) (as.flatMap enc) as := by
  induction as with
  | nil => exact Reads.ret []
  | cons a as ih =>
    have hrest := ih (fun b hb => h b (List.mem_cons_of_mem a hb))
    exact (h a List.mem_cons_self).bind hrest.map

end

/-! ## Numbers -/

/-- `k` bytes of a number, the lowest first. -/
def toBytes : Nat → Nat → List UInt8
  | 0, _ => []
  | k + 1, v => UInt8.ofNat v :: toBytes k (v / 256)

def ofBytes : List UInt8 → Nat
  | [] => 0
  | b :: l => b.toNat + 256 * ofBytes l

theorem toBytes_length (k v : Nat) : (toBytes k v).length = k := by
  induction k generalizing v with
  | zero => rfl
  | succ k ih => simp [toBytes, ih]

theorem ofBytes_toBytes {k v : Nat} (hv : v < 256 ^ k) : ofBytes (toBytes k v) = v := by
  induction k generalizing v with
  | zero =>
    have : v = 0 := by simpa using hv
    simp [toBytes, ofBytes, this]
  | succ k ih =>
    have hdiv : v / 256 < 256 ^ k := by
      apply Nat.div_lt_of_lt_mul
      rwa [pow_succ'] at hv
    simp only [toBytes, ofBytes, ih hdiv, UInt8.toNat_ofNat']
    omega

/-- A number of `k` bytes. -/
def readNat (k : Nat) : Reader UInt8 Nat := do
  let l ← takeItems k
  return ofBytes l

theorem Reads.readNat {k v : Nat} (hv : v < 256 ^ k) : Reads (readNat k) (toBytes k v) v := by
  have h := (Reads.takeItems (toBytes_length k v)).map (f := ofBytes)
  rwa [ofBytes_toBytes hv] at h

end Logic
end NReduce
