import Mathlib.Logic.Basic

/-!
# NReduce.Logic.Faults

Programs that may stop with a fault. Some faults are bad: they must never occur. The others are
allowed, and nothing is said about a program that stops with one of them.

* `Safe`: no bad fault occurs, and what is returned has a property.
* one rule for each way to build a program.
-/

namespace NReduce
namespace Logic

variable {ε α β : Type}

/-- Stop with a fault unless the condition holds. -/
def require (e : ε) (b : Prop) [Decidable b] : Except ε Unit := if b then .ok () else .error e

def Safe (bad : ε → Prop) (P : α → Prop) : Except ε α → Prop
  | .ok a => P a
  | .error e => ¬ bad e

namespace Safe

variable {bad : ε → Prop} {P Q : α → Prop} {R : β → Prop} {r : Except ε α}

theorem pure {a : α} (h : P a) : Safe bad P (.ok a) := h

theorem fault {e : ε} (h : ¬ bad e) : Safe bad P (.error e : Except ε α) := h

theorem mono (h : Safe bad P r) (hpq : ∀ a, P a → Q a) : Safe bad Q r := by
  cases r with
  | ok a => exact hpq a h
  | error e => exact h

theorem bind {f : α → Except ε β} (h : Safe bad P r) (hf : ∀ a, P a → Safe bad R (f a)) :
    Safe bad R (r >>= f) := by
  cases r with
  | ok a => exact hf a h
  | error e => exact h

/-- A check that may fail: behind it the condition is known. -/
theorem require {e : ε} {b : Prop} [Decidable b] (h : ¬ b → ¬ bad e) :
    Safe bad (fun _ => b) (Logic.require e b) := by
  unfold Logic.require
  split
  · next hb => exact hb
  · next hb => exact h hb

/-- Every turn of a loop keeps what holds at its start. -/
theorem foldlM {γ : Type} {f : α → γ → Except ε α} (hf : ∀ a c, P a → Safe bad P (f a c))
    (l : List γ) {a : α} (h : P a) : Safe bad P (l.foldlM f a) := by
  induction l generalizing a with
  | nil => exact h
  | cons c l ih =>
    rw [List.foldlM_cons]
    exact bind (hf a c h) fun a' h' => ih h'

theorem ok_of {a : α} (h : Safe bad P r) (hr : r = .ok a) : P a := by
  subst hr
  exact h

theorem not_bad {e : ε} (h : Safe bad P r) (hr : r = .error e) : ¬ bad e := by
  subst hr
  exact h

end Safe

theorem ok_bind (a : α) (f : α → Except ε β) : (Except.ok a >>= f) = f a := rfl

theorem require_true {e : ε} {b : Prop} [Decidable b] (h : b) : require e b = .ok () := if_pos h

end Logic
end NReduce
