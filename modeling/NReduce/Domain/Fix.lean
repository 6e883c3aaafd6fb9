import NReduce.Domain.Graph

/-!
# NReduce.Domain.Fix

Recursive definitions in the graph model. `fixEnv B ρ` is the least environment in which every
key `x` with `B x = some F` has the value `F` gives it in that same environment, and every other
key keeps the value of `ρ`.

The rules used by clients: `fixEnv_eq` (the equations hold), `fixEnv_le` (it is the least such
environment), `fixEnv_mono`, and `finitary_fixEnv` (recursion does not leave the finitary
functions, so the beta law holds for bodies that contain recursive definitions).
-/

namespace NReduce
namespace Domain

variable {V K : Type}

/-- A system of recursive definitions: the defined keys with the function of each. -/
abbrev Defs (V K : Type) := V → Option (Env V K → Dom K)

namespace Defs

/-- One evaluation of all right-hand sides; keys that are not defined take their value from
`ρ`. -/
def step (B : Defs V K) (ρ σ : Env V K) : Env V K := fun x =>
  match B x with
  | some F => F σ
  | none => ρ x

theorem step_some {B : Defs V K} {x : V} {F : Env V K → Dom K} (h : B x = some F)
    (ρ σ : Env V K) : B.step ρ σ x = F σ := by
  simp [step, h]

theorem step_none {B : Defs V K} {x : V} (h : B x = none) (ρ σ : Env V K) :
    B.step ρ σ x = ρ x := by
  simp [step, h]

/-- All right-hand sides are finitary. -/
def Finitary (B : Defs V K) : Prop := ∀ x F, B x = some F → Env.Finitary F

theorem step_mono {B : Defs V K} (hB : B.Finitary) {ρ ρ' σ σ' : Env V K} (hρ : ρ ≤ ρ')
    (hσ : σ ≤ σ') : B.step ρ σ ≤ B.step ρ' σ' := by
  intro x
  cases h : B x with
  | some F => rw [step_some h, step_some h]; exact (hB x F h).mono hσ
  | none => rw [step_none h, step_none h]; exact hρ x

end Defs

/-- The least environment that satisfies the definitions `B` over `ρ`. -/
def fixEnv (B : Defs V K) (ρ : Env V K) : Env V K := sInf {σ | B.step ρ σ ≤ σ}

theorem fixEnv_le {B : Defs V K} {ρ σ : Env V K} (h : B.step ρ σ ≤ σ) : fixEnv B ρ ≤ σ :=
  sInf_le h

theorem step_fixEnv_le {B : Defs V K} (hB : B.Finitary) (ρ : Env V K) :
    B.step ρ (fixEnv B ρ) ≤ fixEnv B ρ :=
  le_sInf fun _ hσ => (Defs.step_mono hB (le_refl ρ) (fixEnv_le hσ)).trans hσ

/-- The definitions hold in the least environment. -/
theorem fixEnv_eq {B : Defs V K} (hB : B.Finitary) (ρ : Env V K) :
    B.step ρ (fixEnv B ρ) = fixEnv B ρ := by
  apply le_antisymm (step_fixEnv_le hB ρ)
  apply fixEnv_le
  exact Defs.step_mono hB (le_refl ρ) (step_fixEnv_le hB ρ)

theorem fixEnv_some {B : Defs V K} (hB : B.Finitary) (ρ : Env V K) {x : V}
    {F : Env V K → Dom K} (h : B x = some F) : fixEnv B ρ x = F (fixEnv B ρ) := by
  conv_lhs => rw [← fixEnv_eq hB ρ]
  exact Defs.step_some h _ _

theorem fixEnv_none {B : Defs V K} (hB : B.Finitary) (ρ : Env V K) {x : V}
    (h : B x = none) : fixEnv B ρ x = ρ x := by
  conv_lhs => rw [← fixEnv_eq hB ρ]
  exact Defs.step_none h _ _

theorem fixEnv_mono {B : Defs V K} (hB : B.Finitary) {ρ ρ' : Env V K} (h : ρ ≤ ρ') :
    fixEnv B ρ ≤ fixEnv B ρ' := by
  apply fixEnv_le
  exact (Defs.step_mono hB h (le_refl _)).trans (step_fixEnv_le hB ρ')

/-- Recursive definitions are finitary in the surrounding environment: the observations made in
a finite part of it already form a solution. -/
theorem finitary_fixEnv {B : Defs V K} (hB : B.Finitary) (x : V) :
    Env.Finitary (fun ρ => fixEnv B ρ x) where
  mono := fun _ _ h => fixEnv_mono hB h x
  compact := by
    intro ρ t ht
    let σ : Env V K := fun y => {u | ∃ l, Env.ofList l ≤ ρ ∧ u ∈ fixEnv B (Env.ofList l) y}
    have hσ : ∀ l : List (V × Tok K), Env.ofList l ≤ σ →
        ∃ m, Env.ofList m ≤ ρ ∧ Env.ofList l ≤ fixEnv B (Env.ofList m) := by
      intro l hl
      rw [Env.ofList_le] at hl
      induction l with
      | nil => exact ⟨[], by simp [Env.ofList_le], by simp [Env.ofList_le]⟩
      | cons p l ih =>
        obtain ⟨m, hm, hlm⟩ := ih (fun q hq => hl q (List.mem_cons_of_mem _ hq))
        obtain ⟨m', hm', hp⟩ := hl p List.mem_cons_self
        refine ⟨m' ++ m, Env.ofList_append_le hm' hm, ?_⟩
        rw [Env.ofList_le]
        intro q hq
        rcases List.mem_cons.mp hq with rfl | hq
        · exact fixEnv_mono hB (Env.ofList_mono (List.subset_append_left m' m)) _ hp
        · exact fixEnv_mono hB (Env.ofList_mono (List.subset_append_right m' m)) _
            (Env.ofList_le.mp hlm q hq)
    have hpre : B.step ρ σ ≤ σ := by
      intro y u hu
      cases hy : B y with
      | none =>
        rw [Defs.step_none hy] at hu
        refine ⟨[(y, u)], ?_, ?_⟩
        · rw [Env.ofList_le]
          intro p hp
          obtain rfl := List.mem_singleton.mp hp
          exact hu
        · rw [fixEnv_none hB _ hy]
          simp [Env.ofList]
      | some F =>
        rw [Defs.step_some hy] at hu
        obtain ⟨l, hl, hlu⟩ := (hB y F hy).compact σ u hu
        obtain ⟨m, hm, hlm⟩ := hσ l hl
        refine ⟨m, hm, ?_⟩
        rw [fixEnv_some hB _ hy]
        exact (hB y F hy).mono hlm hlu
    exact fixEnv_le hpre x ht

/-- Two systems of definitions related by an injective renaming `φ` of the keys in `S`: where the
right-hand sides agree on `S` whenever the environments do, so do the least solutions. -/
theorem fixEnv_map {B B' : Defs V K} (hB : B.Finitary) (hB' : B'.Finitary) {ρ ρ' : Env V K}
    (S : Set V) (φ : V → V) (hφ : ∀ x ∈ S, ∀ y ∈ S, φ x = φ y → x = y)
    (h : ∀ σ σ' : Env V K, (∀ y ∈ S, σ y = σ' (φ y)) →
      ∀ x ∈ S, B.step ρ σ x = B'.step ρ' σ' (φ x)) :
    ∀ x ∈ S, fixEnv B ρ x = fixEnv B' ρ' (φ x) := by
  classical
  intro x hx
  apply Set.Subset.antisymm
  · let σ : Env V K := fun y => if y ∈ S then fixEnv B' ρ' (φ y) else Set.univ
    have hσ : ∀ y ∈ S, σ y = fixEnv B' ρ' (φ y) := fun y hy => by simp [σ, hy]
    have hpre : B.step ρ σ ≤ σ := by
      intro y
      by_cases hy : y ∈ S
      · rw [h σ _ hσ y hy, hσ y hy, fixEnv_eq hB' ρ']
      · simp [σ, hy]
    rw [← hσ x hx]
    exact fixEnv_le hpre x
  · let σ' : Env V K := fun y => {t | ∀ z ∈ S, φ z = y → t ∈ fixEnv B ρ z}
    have hσ' : ∀ y ∈ S, fixEnv B ρ y = σ' (φ y) := by
      intro y hy
      ext t
      constructor
      · intro ht z hz he
        rw [hφ z hz y hy he]
        exact ht
      · exact fun ht => ht y hy rfl
    have hpre : B'.step ρ' σ' ≤ σ' := by
      intro y t ht z hz he
      subst he
      rw [← h _ σ' hσ' z hz, fixEnv_eq hB ρ] at ht
      exact ht
    rw [hσ' x hx]
    exact fixEnv_le hpre (φ x)

/-- The case without renaming. -/
theorem fixEnv_eq_on {B B' : Defs V K} (hB : B.Finitary) (hB' : B'.Finitary) {ρ ρ' : Env V K}
    (S : Set V)
    (h : ∀ σ σ' : Env V K, (∀ y ∈ S, σ y = σ' y) → ∀ x ∈ S, B.step ρ σ x = B'.step ρ' σ' x) :
    ∀ x ∈ S, fixEnv B ρ x = fixEnv B' ρ' x :=
  fixEnv_map hB hB' S id (fun _ _ _ _ e => e) h

end Domain
end NReduce
