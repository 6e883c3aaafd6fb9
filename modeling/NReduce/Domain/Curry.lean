import NReduce.Domain.Graph
import Mathlib.Data.List.Forall2

/-!
# NReduce.Domain.Curry

Functions of several values, and functions that look at their arguments.

* `curry xs F` is the function of the values of `xs`, one at a time, that `F` computes.
* `Dom.bind a G` makes an observation of `a` and goes on with what `G` says for it. It is strict in
  `a`.
-/

namespace NReduce
namespace Domain

namespace Dom

variable {K : Type}

def bind (a : Dom K) (G : Tok K → Dom K) : Dom K := {t | ∃ s ∈ a, t ∈ G s}

theorem bind_subset {a d : Dom K} {G : Tok K → Dom K} (h : ∀ s ∈ a, G s ⊆ d) : bind a G ⊆ d := by
  rintro t ⟨s, hs, ht⟩
  exact h s hs ht

/-- All observations of `a` lead to the same value. -/
theorem bind_eq {a d : Dom K} {G : Tok K → Dom K} (ha : ∃ s, s ∈ a) (h : ∀ s ∈ a, G s = d) :
    bind a G = d := by
  obtain ⟨s, hs⟩ := ha
  apply Set.Subset.antisymm
  · exact bind_subset fun u hu => le_of_eq (h u hu)
  · intro t ht
    exact ⟨s, hs, by rwa [h s hs]⟩

@[simp] theorem bind_singleton (s : Tok K) (G : Tok K → Dom K) : bind {s} G = G s :=
  bind_eq ⟨s, rfl⟩ fun u hu => by rw [Set.mem_singleton_iff.mp hu]

end Dom

namespace Env

variable {V K : Type}

theorem Finitary.bind {F : Env V K → Dom K} {G : Tok K → Env V K → Dom K} (hF : Finitary F)
    (hG : ∀ s, Finitary (G s)) : Finitary (fun ρ => Dom.bind (F ρ) (fun s => G s ρ)) where
  mono := by
    rintro ρ ρ' h t ⟨s, hs, ht⟩
    exact ⟨s, hF.mono h hs, (hG s).mono h ht⟩
  compact := by
    rintro ρ t ⟨s, hs, ht⟩
    obtain ⟨l, hl, hls⟩ := hF.compact ρ s hs
    obtain ⟨l', hl', hlt⟩ := (hG s).compact ρ t ht
    exact ⟨l ++ l', ofList_append_le hl hl', s,
      hF.mono (ofList_mono (List.subset_append_left l l')) hls,
      (hG s).mono (ofList_mono (List.subset_append_right l l')) hlt⟩

section

variable [DecidableEq V]

/-- The function of the values of `xs`, the first one first -/
def curry : List V → (Env V K → Dom K) → Env V K → Dom K
  | [], F => F
  | x :: xs, F => fun ρ => Dom.lam (fun a => curry xs F (Function.update ρ x a))

/-- The values `as` for `xs` -/
def bindAll (ρ : Env V K) : List V → List (Dom K) → Env V K
  | x :: xs, a :: as => bindAll (Function.update ρ x a) xs as
  | _, _ => ρ

theorem bindAll_mono {as as' : List (Dom K)} (has : List.Forall₂ (· ⊆ ·) as as') (xs : List V)
    {ρ ρ' : Env V K} (h : ρ ≤ ρ') : bindAll ρ xs as ≤ bindAll ρ' xs as' := by
  induction has generalizing xs ρ ρ' with
  | nil => cases xs <;> exact h
  | cons ha _ ih =>
    cases xs with
    | nil => exact h
    | cons x xs => exact ih xs (update_mono h x ha)

theorem Finitary.curry {F : Env V K → Dom K} (hF : Finitary F) (xs : List V) :
    Finitary (Env.curry xs F) := by
  induction xs with
  | nil => exact hF
  | cons x xs ih => exact ih.lam x

/-- The beta law for several arguments -/
theorem foldl_app_curry {F : Env V K → Dom K} (hF : Finitary F) (xs : List V) (as : List (Dom K))
    (ρ : Env V K) (hlen : as.length = xs.length) :
    as.foldl Dom.app (curry xs F ρ) = F (bindAll ρ xs as) := by
  induction xs generalizing as ρ with
  | nil =>
    obtain rfl := List.length_eq_zero_iff.mp hlen
    rfl
  | cons x xs ih =>
    cases as with
    | nil => cases hlen
    | cons a as =>
      have hbeta := (hF.curry xs).beta ρ x a
      rw [List.foldl_cons, curry, hbeta, ih as _ (by simpa using hlen), bindAll]

end

end Env
end Domain
end NReduce
