import NReduce.Domain.Fix
import NReduce.Compiler.Syntax

/-!
# NReduce.Compiler.Denote

The lazy meaning of syntax trees, in the graph model of `NReduce.Domain`. An environment gives a
value to every variable name and to every supercombinator; a letrec takes the least solution of
its bindings. Strictness marks are ignored: they change when an argument is evaluated, never what
it is. The builtins are given by an interpretation `Interp`, so nothing here depends on what they
compute.

`denote_finitary` makes the beta law available for every tree, and `denote_congr` says that a tree
depends only on its free symbols and the supercombinators it names.
-/

namespace NReduce
namespace Compiler

open Domain

/-- What an environment is indexed by: variables and supercombinators. -/
inductive Key where
  | var (name : String)
  | sc (i : Nat)
  deriving DecidableEq

/-- The values of the constants and the builtins. -/
structure Interp (K : Type) where
  builtin : Bif → Dom K
  number : Double → Dom K
  string : String → Dom K
  nil : Dom K

variable {K : Type} (I : Interp K)

mutual

/-- The value of a tree. -/
def denote : Snode → Env Key K → Dom K
  | .application l r _, ρ => Dom.app (denote l ρ) (denote r ρ)
  | .lambda x b, ρ => Dom.lam (fun a => denote b (Function.update ρ (.var x) a))
  | .builtin b, _ => I.builtin b
  | .symbol x, ρ => ρ (.var x)
  | .letrec bs b, ρ => denote b (fixEnv (defs bs) ρ)
  | .scref i, ρ => ρ (.sc i)
  | .nil, _ => I.nil
  | .number d, _ => I.number d
  | .string s, _ => I.string s

/-- The bindings of a letrec as recursive definitions. -/
def defs : Letrec → Defs Key K
  | .done => fun _ => none
  | .bind x v _ next => fun k => if k = .var x then some (denote v) else defs next k

end

mutual

theorem denote_finitary : ∀ e : Snode, Env.Finitary (denote I e)
  | .application l r _ => by
    simpa only [denote] using (denote_finitary l).app (denote_finitary r)
  | .lambda x b => by
    simpa only [denote] using (denote_finitary b).lam (.var x)
  | .builtin b => by simpa only [denote] using Env.Finitary.const _
  | .symbol x => by simpa only [denote] using Env.Finitary.var _
  | .letrec bs b => by
    simpa only [denote] using
      (denote_finitary b).comp (fun x => finitary_fixEnv (defs_finitary bs) x)
  | .scref i => by simpa only [denote] using Env.Finitary.var _
  | .nil => by simpa only [denote] using Env.Finitary.const _
  | .number d => by simpa only [denote] using Env.Finitary.const _
  | .string s => by simpa only [denote] using Env.Finitary.const _

theorem defs_finitary : ∀ bs : Letrec, (defs I bs).Finitary
  | .done => by
    intro x F h
    simp [defs] at h
  | .bind y v _ next => by
    intro x F h
    simp only [defs] at h
    split at h
    · cases h
      exact denote_finitary v
    · exact defs_finitary next x F h

end

theorem defs_none_iff : ∀ (bs : Letrec) (x : String), defs I bs (.var x) = none ↔ x ∉ bs.names
  | .done, x => by simp [defs, Letrec.names]
  | .bind y v s next, x => by
    simp only [defs, Letrec.names, List.mem_cons, not_or, Key.var.injEq]
    split
    · simp [*]
    · simp [*, defs_none_iff next x]

theorem defs_sc : ∀ (bs : Letrec) (i : Nat), defs I bs (.sc i) = none
  | .done, i => rfl
  | .bind y v s next, i => by simpa [defs] using defs_sc next i

/-! ## Dependence on the environment -/

/-- The keys whose value a tree may read. -/
def Snode.uses (e : Snode) : Key → Prop
  | .var x => x ∈ e.free
  | .sc i => i ∈ e.screfs

def Letrec.uses (bs : Letrec) : Key → Prop
  | .var x => x ∈ bs.free
  | .sc i => i ∈ bs.screfs

theorem uses_application (l r : Snode) (s : Bool) (k : Key) :
    (Snode.application l r s).uses k ↔ l.uses k ∨ r.uses k := by
  cases k <;> simp [Snode.uses, Snode.free, Snode.screfs]

theorem uses_bind (x : String) (v : Snode) (s : Bool) (next : Letrec) (k : Key) :
    (Letrec.bind x v s next).uses k ↔ v.uses k ∨ next.uses k := by
  cases k <;> simp [Snode.uses, Letrec.uses, Letrec.free, Letrec.screfs]

/-- A key read below a letrec is bound by it or read by the letrec itself. -/
theorem uses_letrec (bs : Letrec) (b : Snode) (k : Key) (h : bs.uses k ∨ b.uses k) :
    defs I bs k ≠ none ∨ (Snode.letrec bs b).uses k := by
  cases k with
  | sc i => exact Or.inr (by simpa [Snode.uses, Letrec.uses, Snode.screfs] using h)
  | var x =>
    by_cases hx : x ∈ bs.names
    · exact Or.inl (fun hn => (defs_none_iff I bs x).mp hn hx)
    · refine Or.inr ?_
      simpa [Snode.uses, Letrec.uses, Snode.free, hx] using h

mutual

/-- The value of a tree depends only on the keys it uses. -/
theorem denote_congr : ∀ (e : Snode) {ρ ρ' : Env Key K}, (∀ k, e.uses k → ρ k = ρ' k) →
    denote I e ρ = denote I e ρ'
  | .application l r s, ρ, ρ', h => by
    simp only [denote]
    rw [denote_congr l (fun k hk => h k ((uses_application l r s k).mpr (Or.inl hk))),
      denote_congr r (fun k hk => h k ((uses_application l r s k).mpr (Or.inr hk)))]
  | .lambda x b, ρ, ρ', h => by
    simp only [denote]
    congr 1
    funext a
    apply denote_congr b
    intro k hk
    by_cases hx : k = .var x
    · subst hx; simp
    · rw [Function.update_of_ne hx, Function.update_of_ne hx]
      apply h
      cases k with
      | sc i => simpa [Snode.uses, Snode.screfs] using hk
      | var y => simpa [Snode.uses, Snode.free] using ⟨hk, fun e => hx (e ▸ rfl)⟩
  | .builtin b, _, _, _ => by simp only [denote]
  | .symbol x, _, _, h => by
    simp only [denote]
    exact h _ (by simp [Snode.uses, Snode.free])
  | .letrec bs b, ρ, ρ', h => by
    simp only [denote]
    apply denote_congr b
    intro k hk
    refine fixEnv_eq_on (defs_finitary I bs) (defs_finitary I bs)
      {k | bs.uses k ∨ b.uses k} ?_ k (Or.inr hk)
    intro σ σ' hσ x hx
    cases hd : defs I bs x with
    | some F =>
      rw [Defs.step_some hd, Defs.step_some hd]
      exact defs_congr bs hd (fun k hk => hσ k (Or.inl hk))
    | none =>
      rw [Defs.step_none hd, Defs.step_none hd]
      exact h x ((uses_letrec I bs b x hx).resolve_left (fun hn => hn hd))
  | .scref i, _, _, h => by
    simp only [denote]
    exact h _ (by simp [Snode.uses, Snode.screfs])
  | .nil, _, _, _ => by simp only [denote]
  | .number d, _, _, _ => by simp only [denote]
  | .string s, _, _, _ => by simp only [denote]

theorem defs_congr : ∀ (bs : Letrec) {x : Key} {F : Env Key K → Dom K} {σ σ' : Env Key K},
    defs I bs x = some F → (∀ k, bs.uses k → σ k = σ' k) → F σ = F σ'
  | .done, _, _, _, _, hd, _ => by simp [defs] at hd
  | .bind y v s next, x, F, σ, σ', hd, h => by
    simp only [defs] at hd
    split at hd
    · cases hd
      exact denote_congr v (fun k hk => h k ((uses_bind y v s next k).mpr (Or.inl hk)))
    · exact defs_congr next hd (fun k hk => h k ((uses_bind y v s next k).mpr (Or.inr hk)))

end

end Compiler
end NReduce
