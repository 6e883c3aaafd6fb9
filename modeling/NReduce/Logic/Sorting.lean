import NReduce.Logic.Fuel
import Mathlib.Data.List.Sort

/-!
# NReduce.Logic.Sorting

Quicksort of a list by a key that has to be computed, with a bound on the depth of the calls.
-/

namespace NReduce
namespace Logic

variable {α : Type} (key : Nat → α → Option Nat)

/-- What goes before the pivot, and what goes after it, both added to what is there already. -/
def splitBy (k : Nat) (pivot : α) : List α → List α → List α → Option (List α × List α)
  | [], before, after => some (before, after)
  | item :: rest, before, after => do
    let i ← key k item
    let j ← key k pivot
    if i < j then splitBy k pivot rest (item :: before) after
    else splitBy k pivot rest before (item :: after)

def sortBy : Nat → List α → Option (List α)
  | 0, _ => none
  | _ + 1, [] => some []
  | k + 1, pivot :: lst => do
    let (before, after) ← splitBy key k pivot lst [] []
    let before ← sortBy k before
    let after ← sortBy k after
    return before ++ pivot :: after

variable {key} {v : α → Nat}

theorem splitBy_spec {pivot : α} {lst : List α} (hp : Returns (key · pivot) (v pivot))
    (hl : ∀ x ∈ lst, Returns (key · x) (v x)) (before after : List α) :
    Returns (splitBy key · pivot lst before after)
      ((lst.filter (v · < v pivot)).reverse ++ before,
        (lst.filter (v pivot ≤ v ·)).reverse ++ after) := by
  induction lst generalizing before after with
  | nil => exact Returns.const _
  | cons x lst ih =>
    have hrest : ∀ y ∈ lst, Returns (key · y) (v y) := fun y hy => hl y (List.mem_cons_of_mem _ hy)
    have hturn : Returns (fun k => if v x < v pivot then splitBy key k pivot lst (x :: before) after
        else splitBy key k pivot lst before (x :: after))
        (((x :: lst).filter (v · < v pivot)).reverse ++ before,
          ((x :: lst).filter (v pivot ≤ v ·)).reverse ++ after) := by
      by_cases hlt : v x < v pivot
      · simpa [hlt, Nat.not_le.mpr hlt] using ih hrest (x :: before) after
      · simpa [hlt, Nat.le_of_not_lt hlt] using ih hrest before (x :: after)
    have hpivot := hp.bind
      (g := fun j k => if v x < j then splitBy key k pivot lst (x :: before) after
        else splitBy key k pivot lst before (x :: after)) hturn
    exact ((hl x (List.mem_cons_self ..)).bind
      (g := fun i k => (key k pivot).bind fun j =>
        if i < j then splitBy key k pivot lst (x :: before) after
        else splitBy key k pivot lst before (x :: after)) hpivot).congr fun k => rfl

theorem pairwise_append_pivot {pivot : α} {before after : List α}
    (hb : before.Pairwise (v · ≤ v ·)) (ha : after.Pairwise (v · ≤ v ·))
    (hbefore : ∀ x ∈ before, v x < v pivot) (hafter : ∀ x ∈ after, v pivot ≤ v x) :
    (before ++ pivot :: after).Pairwise (v · ≤ v ·) := by
  rw [List.pairwise_append, List.pairwise_cons]
  refine ⟨hb, ⟨hafter, ha⟩, fun x hx y hy => ?_⟩
  have hxp := hbefore x hx
  cases hy with
  | head => omega
  | tail _ hy =>
    have := hafter y hy
    omega

theorem sortBy_spec {lst : List α} (hl : ∀ x ∈ lst, Returns (key · x) (v x)) :
    ∃ l, Returns (sortBy key · lst) l ∧ l.Perm lst ∧ l.Pairwise (v · ≤ v ·) := by
  induction hn : lst.length using Nat.strongRecOn generalizing lst with
  | _ n ih =>
    cases lst with
    | nil => exact ⟨[], (Returns.const []).succ fun k => rfl, .nil, .nil⟩
    | cons pivot lst =>
      have hrest : ∀ y ∈ lst, Returns (key · y) (v y) :=
        fun y hy => hl y (List.mem_cons_of_mem _ hy)
      have hpart : ∀ p : α → Bool, ∃ l, Returns (sortBy key · (lst.filter p).reverse) l ∧
          l.Perm (lst.filter p).reverse ∧ l.Pairwise (v · ≤ v ·) := by
        intro p
        have hlt := List.length_filter_le p lst
        refine ih (lst.filter p).reverse.length ?_ (fun y hy => hrest y ?_) rfl
        · rw [List.length_reverse]
          rw [List.length_cons] at hn
          omega
        · exact (List.mem_filter.mp (List.mem_reverse.mp hy)).1
      obtain ⟨b, hb, hbp, hbs⟩ := hpart (v · < v pivot)
      obtain ⟨a, ha, hap, has⟩ := hpart (v pivot ≤ v ·)
      have hbm : ∀ y ∈ b, v y < v pivot := fun y hy => by
        have := hbp.mem_iff.mp hy
        simp only [List.mem_reverse, List.mem_filter, decide_eq_true_eq] at this
        exact this.2
      have ham : ∀ y ∈ a, v pivot ≤ v y := fun y hy => by
        have := hap.mem_iff.mp hy
        simp only [List.mem_reverse, List.mem_filter, decide_eq_true_eq] at this
        exact this.2
      refine ⟨b ++ pivot :: a, ?_, ?_, pairwise_append_pivot hbs has hbm ham⟩
      · have hsplit := splitBy_spec (hl pivot (List.mem_cons_self ..)) hrest [] []
        simp only [List.append_nil] at hsplit
        obtain ⟨n₁, h₁⟩ := hsplit
        obtain ⟨n₂, h₂⟩ := hb
        obtain ⟨n₃, h₃⟩ := ha
        refine ⟨n₁ + n₂ + n₃ + 1, fun k hk => ?_⟩
        obtain ⟨j, rfl⟩ : ∃ j, k = j + 1 := ⟨k - 1, by omega⟩
        have h₁ := h₁ j (by omega)
        have h₂ := h₂ j (by omega)
        have h₃ := h₃ j (by omega)
        dsimp only at h₁ h₂ h₃ ⊢
        simp only [sortBy, h₁, h₂, h₃, Option.bind_eq_bind, Option.bind_some]
        rfl
      · have hsplit : (lst.filter (v · < v pivot) ++ lst.filter (v pivot ≤ v ·)).Perm lst := by
          have := List.filter_append_perm (fun y => decide (v y < v pivot)) lst
          simpa only [← decide_not, Nat.not_lt] using this
        have hb' := hbp.trans (List.reverse_perm _)
        have ha' := hap.trans (List.reverse_perm _)
        exact List.perm_middle.trans (((hb'.append ha').trans hsplit).cons pivot)

theorem splitBy_mono (hkey : ∀ x, Mono (key · x)) (pivot : α) (lst before after : List α) :
    Mono (splitBy key · pivot lst before after) := by
  induction lst generalizing before after with
  | nil => exact .const _
  | cons x lst ih =>
    refine (hkey x).bind (g := fun i k => (key k pivot).bind fun j =>
      if i < j then splitBy key k pivot lst (x :: before) after
      else splitBy key k pivot lst before (x :: after)) fun i => ?_
    refine (hkey pivot).bind (g := fun j k =>
      if i < j then splitBy key k pivot lst (x :: before) after
      else splitBy key k pivot lst before (x :: after)) fun j => ?_
    by_cases hlt : i < j
    · simpa [hlt] using ih (x :: before) after
    · simpa [hlt] using ih before (x :: after)

theorem sortBy_mono (hkey : ∀ x, Mono (key · x)) (lst : List α) : Mono (sortBy key · lst) := by
  intro k
  induction k generalizing lst with
  | zero => exact .none _
  | succ k ih =>
    cases lst with
    | nil => exact .refl _
    | cons pivot lst =>
      exact (splitBy_mono hkey pivot lst [] [] k).bind fun parts =>
        (ih parts.1).bind fun before => (ih parts.2).bind fun after => .refl _

/-- A list in order, in which only equal items have the same key, stays as it is. -/
theorem sortBy_sorted {lst : List α} (hl : ∀ x ∈ lst, Returns (key · x) (v x))
    (hs : lst.Pairwise (v · ≤ v ·)) (heq : ∀ x ∈ lst, ∀ y ∈ lst, v x = v y → x = y) :
    Returns (sortBy key · lst) lst := by
  obtain ⟨l, hret, hperm, hsort⟩ := sortBy_spec hl
  have : l = lst := hperm.eq_of_pairwise
    (fun x y hx hy h1 h2 => heq x (hperm.mem_iff.mp hx) y hy (Nat.le_antisymm h1 h2)) hsort hs
  rwa [this] at hret

end Logic
end NReduce
