import Mathlib.Data.Nat.Basic

/-!
# NReduce.Logic.Circle

Places on a circle of `n` places, numbered from `0` on, and the tests of intervals of the circle by
comparisons of their numbers.

* `Between`, `Upto`: the open interval and the one that is closed above. Between a place and itself
  lies the whole circle.
* `way`  : how far it is from one place on to another.
* `turn` : the same, but it is a whole turn from a place to itself. It gets smaller with each step
  to a place in between.
* `First`: the member of a set that comes first, from a place on.

A number beyond the circle can be asked for too: it comes behind all places.
-/

namespace NReduce
namespace Logic
namespace Circle

variable {n a b c v x y z : Nat} {S : Nat → Prop}

def Between (v a b : Nat) : Prop := (a < b ∧ a < v ∧ v < b) ∨ (b ≤ a ∧ (a < v ∨ v < b))

def Upto (v a b : Nat) : Prop := (a < b ∧ a < v ∧ v ≤ b) ∨ (b ≤ a ∧ (a < v ∨ v ≤ b))

def way (n a b : Nat) : Nat := if a ≤ b then b - a else b + n - a

def turn (n a b : Nat) : Nat := if a < b then b - a else b + n - a

def First (n : Nat) (S : Nat → Prop) (a z : Nat) : Prop := S z ∧ ∀ x, S x → way n a z ≤ way n a x

/-- What is not in reach of the next place lies behind it. -/
theorem between_of_not_upto (h : ¬ Upto v a b) : Between b a v := by
  unfold Upto at h
  unfold Between
  omega

theorem turn_lt (ha : a < n) (hx : x < n) (h : Between x a b) : turn n x b < turn n a b := by
  unfold Between at h
  unfold turn
  split <;> split <;> omega

/-- There is no member between `a` and `z`, so `z` is the first one from each place on that lies in
between. -/
theorem first_of_upto (hS : ∀ x, S x → x < n) (hz : S z) (ha : S a)
    (hgap : ∀ x, S x → ¬ Between x a z) (hv : v < n) (h : Upto v a z) : First n S v z := by
  refine ⟨hz, fun x hx => ?_⟩
  have hxn := hS x hx
  have hzn := hS z hz
  have hgx := hgap x hx
  have hga := hgap a ha
  unfold Upto at h
  unfold Between at hgx hga
  unfold way
  split <;> split <;> omega

/-- From a number beyond the circle on, it is the first one of all. -/
theorem first_of_upto_beyond (hS : ∀ x, S x → x < n) (hz : S z)
    (hgap : ∀ x, S x → ¬ Between x a z) (hv : n ≤ v) (h : Upto v a z) : First n S 0 z := by
  refine ⟨hz, fun x hx => ?_⟩
  have hxn := hS x hx
  have hzn := hS z hz
  have hgx := hgap x hx
  unfold Upto at h
  unfold Between at hgx
  unfold way
  split <;> split <;> omega

/-- The first one of all is also the first one from `v` on if there is none before `v`. A member
behind `v` makes it necessary. -/
theorem first_iff_of_first_zero (hS : ∀ x, S x → x < n) (hz : First n S 0 z) (ha : S a)
    (hva : v ≤ a) : First n S v z ↔ ∀ x, S x → v ≤ x := by
  have hle : ∀ x, S x → z ≤ x := fun x hx => by
    have := hz.2 x hx
    unfold way at this
    simpa using this
  constructor
  · intro h x hx
    have hway := h.2 a ha
    have han := hS a ha
    have hzx := hle x hx
    unfold way at hway
    rw [if_pos hva] at hway
    split at hway <;> omega
  · intro h
    refine ⟨hz.1, fun x hx => ?_⟩
    have hvz := h z hz.1
    have hvx := h x hx
    have hzx := hle x hx
    unfold way
    rw [if_pos hvz, if_pos hvx]
    omega

end Circle
end Logic
end NReduce
