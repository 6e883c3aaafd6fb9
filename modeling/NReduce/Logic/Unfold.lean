import Mathlib.Data.Seq.Basic

/-!
# NReduce.Logic.Unfold

What a process shows that gives items one after the other and may end: the sequence of its items,
finite or not, with the value it ends in as the last entry.

* `unfold_item`, `unfold_done`: the first entry.
* `unfold_unique`: it is the only solution of these two equations.
-/

namespace NReduce
namespace Logic

open Stream'

variable {σ ι τ : Type}

/-- What a state shows: an item and the next state, or the end. -/
inductive Move (σ ι τ : Type) where
  | item (x : ι) (next : σ)
  | done (r : τ)

def unfoldStep (f : σ → Move σ ι τ) : Option σ → Option ((ι ⊕ τ) × Option σ)
  | none => none
  | some p =>
    match f p with
    | .item x q => some (.inl x, some q)
    | .done r => some (.inr r, none)

def unfold (f : σ → Move σ ι τ) (p : σ) : Seq (ι ⊕ τ) := Seq.corec (unfoldStep f) (some p)

variable {f : σ → Move σ ι τ}

theorem unfold_item {p q : σ} {x : ι} (h : f p = .item x q) :
    unfold f p = .cons (.inl x) (unfold f q) := by
  have hs : unfoldStep f (some p) = some (.inl x, some q) := by
    simp only [unfoldStep, h]
  exact Seq.corec_cons hs

theorem unfold_done {p : σ} {r : τ} (h : f p = .done r) :
    unfold f p = .cons (.inr r) .nil := by
  have hs : unfoldStep f (some p) = some (.inr r, none) := by
    simp only [unfoldStep, h]
  have hn : Seq.corec (unfoldStep f) none = .nil := Seq.corec_nil _ _ rfl
  rw [unfold, Seq.corec_cons hs, hn]

theorem unfold_eq_of_eq {p q : σ} (h : f p = f q) : unfold f p = unfold f q := by
  cases hq : f q with
  | item x r => rw [unfold_item (h.trans hq), unfold_item hq]
  | done r => rw [unfold_done (h.trans hq), unfold_done hq]

/-- The equations of `unfold_item` and `unfold_done`, for a function on the states in `P`. -/
def Unfolds (f : σ → Move σ ι τ) (P : σ → Prop) (D : σ → Seq (ι ⊕ τ)) : Prop :=
  ∀ p, P p →
    (∃ x q, f p = .item x q ∧ P q ∧ D p = .cons (.inl x) (D q)) ∨
    (∃ r, f p = .done r ∧ D p = .cons (.inr r) .nil)

theorem unfold_unique {P : σ → Prop} {D : σ → Seq (ι ⊕ τ)} (h : Unfolds f P D) {p : σ} (hp : P p) :
    unfold f p = D p := by
  apply Seq.eq_of_bisim_strong (fun a b => ∃ p, P p ∧ a = unfold f p ∧ b = D p) ⟨p, hp, rfl, rfl⟩
  rintro a b ⟨p, hp, rfl, rfl⟩
  obtain ⟨x, q, hf, hq, hD⟩ | ⟨r, hf, hD⟩ := h p hp
  · exact .inr ⟨_, _, _, unfold_item hf, hD, q, hq, rfl, rfl⟩
  · exact .inl (by rw [unfold_done hf, hD])

/-- Two processes show the same when one goes on wherever the other does. -/
theorem unfold_congr {g : σ → Move σ ι τ} {P : σ → Prop} (hfg : ∀ p, P p → f p = g p)
    (hP : ∀ p x q, P p → g p = .item x q → P q) {p : σ} (hp : P p) : unfold f p = unfold g p := by
  apply unfold_unique (P := P) _ hp
  intro p hp
  cases hg : g p with
  | item x q => exact .inl ⟨x, q, (hfg p hp).trans hg, hP p x q hp hg, unfold_item hg⟩
  | done r => exact .inr ⟨r, (hfg p hp).trans hg, unfold_done hg⟩

end Logic
end NReduce
