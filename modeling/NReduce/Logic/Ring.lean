import Mathlib.Data.List.Basic
import Mathlib.Data.Nat.ModEq
import Mathlib.Logic.Function.Basic

/-!
# NReduce.Logic.Ring

A queue in an array of `size` cells whose indices wrap around: the first element is at `first`, and
the next one that is put in goes to `last`.
-/

namespace NReduce
namespace Logic
namespace Ring

variable {α : Type} {cells : Nat → α} {size first last : Nat} {q : List α} {x : α}

/-- The queue `q` is in the array. -/
structure Holds (cells : Nat → α) (size first last : Nat) (q : List α) : Prop where
  first_lt : first < size
  length_le : q.length ≤ size
  last_eq : last = (first + q.length) % size
  cell : ∀ i (h : i < q.length), cells ((first + i) % size) = q.get ⟨i, h⟩

theorem Holds.nil (h : 0 < size) : Holds cells size 0 0 [] where
  first_lt := h
  length_le := Nat.zero_le _
  last_eq := (Nat.mod_eq_of_lt h).symm
  cell := fun _ hi => absurd hi (Nat.not_lt_zero _)

/-- Two places less than a turn apart are different cells. -/
theorem add_mod_ne {i j : Nat} (hij : i < j) (hj : j < size) :
    (first + i) % size ≠ (first + j) % size := by
  intro h
  have hd : j - i < size := by omega
  have hmod : (first + i + (j - i)) % size = (first + i + 0) % size := by
    have he : first + i + (j - i) = first + j := by omega
    rw [he, Nat.add_zero, h]
  have hz : (j - i) % size = 0 % size := Nat.ModEq.add_left_cancel' (first + i) hmod
  rw [Nat.mod_eq_of_lt hd, Nat.zero_mod] at hz
  omega

theorem Holds.push (h : Holds cells size first last q) (hlen : q.length < size) :
    Holds (Function.update cells last x) size first ((last + 1) % size) (q ++ [x]) where
  first_lt := h.first_lt
  length_le := by
    rw [List.length_append]
    exact hlen
  last_eq := by
    rw [h.last_eq, List.length_append, Nat.mod_add_mod]
    rfl
  cell := by
    intro i hi
    rw [List.length_append, List.length_singleton] at hi
    by_cases hq : i < q.length
    · have hne : (first + i) % size ≠ last := by
        rw [h.last_eq]
        exact add_mod_ne hq hlen
      rw [Function.update_of_ne hne, h.cell i hq]
      exact (List.getElem_append_left hq).symm
    · obtain rfl : i = q.length := by omega
      rw [← h.last_eq, Function.update_self]
      simp

theorem Holds.first_eq (h : Holds cells size first last (x :: q)) : cells first = x := by
  have hc := h.cell 0 (Nat.succ_pos _)
  rwa [Nat.add_zero, Nat.mod_eq_of_lt h.first_lt] at hc

theorem Holds.pop (h : Holds cells size first last (x :: q)) :
    Holds cells size ((first + 1) % size) last q where
  first_lt := Nat.mod_lt _ (Nat.zero_lt_of_lt h.first_lt)
  length_le := Nat.le_of_succ_le h.length_le
  last_eq := by
    rw [h.last_eq, Nat.mod_add_mod, List.length_cons]
    congr 1
    omega
  cell := by
    intro i hi
    have hc := h.cell (i + 1) (Nat.succ_lt_succ hi)
    rw [Nat.mod_add_mod]
    have he : first + 1 + i = first + (i + 1) := by omega
    rw [he, hc]
    rfl

end Ring
end Logic
end NReduce
