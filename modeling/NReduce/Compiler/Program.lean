import NReduce.Compiler.Denote

/-!
# NReduce.Compiler.Program

The meaning of a table of supercombinators: the least solution of the equations
`f x1 .. xn = body`, a supercombinator being the curried function of its arguments.

`OneStep base` rewrites one subtree by `base`. `OneStep.denote_le` carries an inequality between
the two sides of `base` to the whole tree, and `progEnv_step` carries it to the whole program: the
passes that rewrite bodies in place (`appendopt.c`, `inlining.c`) only have to justify each rule.
-/

namespace NReduce
namespace Compiler

open Domain

/-- `!x1 .. !xn. b` -/
def lambdas (xs : List String) (b : Snode) : Snode := xs.foldr .lambda b

/-- The application of `f` to the values `as`, one at a time. -/
def appN {K : Type} (f : Dom K) (as : List (Dom K)) : Dom K := as.foldl Dom.app f

/-- The environment that gives the names `xs` the values `as`, in order. -/
def bindArgs {K : Type} (ρ : Env Key K) : List String → List (Dom K) → Env Key K
  | x :: xs, a :: as => bindArgs (Function.update ρ (.var x) a) xs as
  | _, _ => ρ

theorem appN_mono {K : Type} : ∀ {as as' : List (Dom K)} {f f' : Dom K}, f ⊆ f' →
    List.Forall₂ (· ⊆ ·) as as' → appN f as ⊆ appN f' as'
  | [], [], _, _, hf, _ => hf
  | a :: as, a' :: as', f, f', hf, h => by
    cases h with
    | cons ha has =>
      have h := appN_mono (Dom.app_mono hf ha) has
      exact h

section Values

variable {K : Type} (I : Interp K)

/-- The beta law for several arguments. -/
theorem appN_lambdas : ∀ (xs : List String) (b : Snode) (as : List (Dom K)) (ρ : Env Key K),
    as.length = xs.length → appN (denote I (lambdas xs b) ρ) as = denote I b (bindArgs ρ xs as)
  | [], b, [], ρ, _ => rfl
  | x :: xs, b, a :: as, ρ, h => by
    have hbeta : Dom.app (denote I (lambdas (x :: xs) b) ρ) a =
        denote I (lambdas xs b) (Function.update ρ (.var x) a) := by
      simp only [lambdas, List.foldr_cons, denote]
      exact (denote_finitary I _).beta ρ (.var x) a
    simp only [appN, List.foldl_cons, hbeta, bindArgs]
    exact appN_lambdas xs b as _ (by simpa using h)

theorem bindArgs_sc : ∀ (xs : List String) (as : List (Dom K)) (ρ : Env Key K) (i : Nat),
    bindArgs ρ xs as (.sc i) = ρ (.sc i)
  | [], _, _, _ => rfl
  | _ :: _, [], _, _ => rfl
  | x :: xs, a :: as, ρ, i => by
    rw [bindArgs, bindArgs_sc xs as]
    exact Function.update_of_ne (by simp) _ _

theorem bindArgs_other : ∀ (xs : List String) (as : List (Dom K)) (ρ : Env Key K) {x : String},
    x ∉ xs → bindArgs ρ xs as (.var x) = ρ (.var x)
  | [], _, _, _, _ => rfl
  | _ :: _, [], _, _, _ => rfl
  | y :: xs, a :: as, ρ, x, h => by
    rw [List.mem_cons, not_or] at h
    rw [bindArgs, bindArgs_other xs as _ h.2]
    exact Function.update_of_ne (by simpa using h.1) _ _

theorem bindArgs_get : ∀ (xs : List String) (as : List (Dom K)) (ρ : Env Key K), xs.Nodup →
    ∀ (i : Nat) (x : String) (a : Dom K), xs[i]? = some x → as[i]? = some a →
      bindArgs ρ xs as (.var x) = a
  | [], _, _, _, i, x, a, hx, _ => by simp at hx
  | _ :: _, [], _, _, i, x, a, _, ha => by simp at ha
  | y :: xs, b :: as, ρ, hnd, i, x, a, hx, ha => by
    rw [List.nodup_cons] at hnd
    rw [bindArgs]
    cases i with
    | zero =>
      simp only [List.getElem?_cons_zero, Option.some.injEq] at hx ha
      subst hx ha
      rw [bindArgs_other xs as _ hnd.1]
      exact Function.update_self _ _ _
    | succ i =>
      rw [List.getElem?_cons_succ] at hx ha
      exact bindArgs_get xs as _ hnd.2 i x a hx ha

/-! ## Programs -/

/-- The equations of a table of supercombinators. -/
def progDefs (scs : List Scomb) : Defs Key K
  | .sc i => (scs[i]?).map (fun sc => denote I (lambdas sc.argnames sc.body))
  | .var _ => none

theorem progDefs_finitary (scs : List Scomb) : (progDefs I scs).Finitary := by
  intro k F h
  cases k with
  | var x => simp [progDefs] at h
  | sc i =>
    simp only [progDefs, Option.map_eq_some_iff] at h
    obtain ⟨sc, _, rfl⟩ := h
    exact denote_finitary I _

/-- The values of the supercombinators: the least solution of the equations of the table. -/
def progEnv (scs : List Scomb) : Env Key K := fixEnv (progDefs I scs) (fun _ => ∅)

theorem progDefs_some {scs : List Scomb} {i : Nat} {sc : Scomb} (h : scs[i]? = some sc) :
    progDefs I scs (.sc i) = some (denote I (lambdas sc.argnames sc.body)) := by
  simp [progDefs, h]

theorem progEnv_sc {scs : List Scomb} {i : Nat} {sc : Scomb} (h : scs[i]? = some sc) :
    progEnv I scs (.sc i) = denote I (lambdas sc.argnames sc.body) (progEnv I scs) :=
  fixEnv_some (progDefs_finitary I scs) _ (progDefs_some I h)

end Values

/-! ## Rewriting one subtree -/

mutual

/-- `e'` is `e` with one subtree rewritten by `base`. -/
inductive OneStep (base : Snode → Snode → Prop) : Snode → Snode → Prop
  | here {e e' : Snode} : base e e' → OneStep base e e'
  | left {l l' r : Snode} {s : Bool} : OneStep base l l' →
      OneStep base (.application l r s) (.application l' r s)
  | right {l r r' : Snode} {s : Bool} : OneStep base r r' →
      OneStep base (.application l r s) (.application l r' s)
  | bindings {bs bs' : Letrec} {b : Snode} : OneStepB base bs bs' →
      OneStep base (.letrec bs b) (.letrec bs' b)
  | body {bs : Letrec} {b b' : Snode} : OneStep base b b' →
      OneStep base (.letrec bs b) (.letrec bs b')

inductive OneStepB (base : Snode → Snode → Prop) : Letrec → Letrec → Prop
  | value {x : String} {v v' : Snode} {s : Bool} {next : Letrec} : OneStep base v v' →
      OneStepB base (.bind x v s next) (.bind x v' s next)
  | next {x : String} {v : Snode} {s : Bool} {next next' : Letrec} : OneStepB base next next' →
      OneStepB base (.bind x v s next) (.bind x v s next')

end

section Rewrite

variable {K : Type} (I : Interp K) {base : Snode → Snode → Prop}

/-- Environments in the information order whose supercombinators are related by `Q`. Binding
variables does not leave the relation. -/
structure EnvRel (Q : (Nat → Dom K) → (Nat → Dom K) → Prop) (ρ ρ' : Env Key K) : Prop where
  le : ρ ≤ ρ'
  sc : Q (fun i => ρ (.sc i)) (fun i => ρ' (.sc i))

variable {Q : (Nat → Dom K) → (Nat → Dom K) → Prop}

/-- The variables of one environment with the supercombinators of another -/
def withScombs (ρ σ : Env Key K) : Env Key K
  | .var x => σ (.var x)
  | .sc i => ρ (.sc i)

/-- Letrecs whose bindings have smaller values in related environments. -/
theorem EnvRel.fixEnv_le {bs bs' : Letrec} {ρ ρ' : Env Key K} (h : EnvRel Q ρ ρ')
    (hn : ∀ k, defs I bs k = none → defs I bs' k = none)
    (hs : ∀ k F, defs I bs k = some F → ∃ F', defs I bs' k = some F' ∧
      ∀ σ σ', EnvRel Q σ σ' → F σ ⊆ F' σ') :
    EnvRel Q (fixEnv (defs I bs) ρ) (fixEnv (defs I bs') ρ') := by
  have hsc : ∀ (cs : Letrec) (σ : Env Key K) (i : Nat), fixEnv (defs I cs) σ (.sc i) = σ (.sc i) :=
    fun cs σ i => fixEnv_none (defs_finitary I cs) σ (defs_sc I cs i)
  let σ := withScombs ρ (fixEnv (defs I bs') ρ')
  have hrel : EnvRel Q σ (fixEnv (defs I bs') ρ') := by
    refine ⟨fun k => ?_, by simpa only [σ, withScombs, hsc] using h.sc⟩
    cases k with
    | var x => exact le_refl _
    | sc i => rw [hsc]; exact h.le (.sc i)
  have hle : fixEnv (defs I bs) ρ ≤ σ := by
    apply Domain.fixEnv_le
    intro k
    cases hk : defs I bs k with
    | none =>
      rw [Defs.step_none hk]
      cases k with
      | sc i => exact le_refl _
      | var x =>
        show ρ (.var x) ≤ fixEnv (defs I bs') ρ' (.var x)
        rw [fixEnv_none (defs_finitary I bs') ρ' (hn _ hk)]
        exact h.le _
    | some F =>
      obtain ⟨F', hF', hFF⟩ := hs k F hk
      rw [Defs.step_some hk]
      cases k with
      | sc i => rw [defs_sc] at hk; cases hk
      | var x =>
        show F σ ≤ fixEnv (defs I bs') ρ' (.var x)
        rw [fixEnv_some (defs_finitary I bs') ρ' hF']
        exact hFF σ _ hrel
  exact ⟨hle.trans hrel.le, by simpa only [hsc] using h.sc⟩

mutual

/-- An inequality between the two sides of a rule carries over to the whole tree. -/
theorem OneStep.denote_le
    (hbase : ∀ e e', base e e' → ∀ ρ ρ', EnvRel Q ρ ρ' → denote I e ρ ⊆ denote I e' ρ') :
    ∀ {e e' : Snode}, OneStep base e e' → ∀ {ρ ρ' : Env Key K}, EnvRel Q ρ ρ' →
      denote I e ρ ⊆ denote I e' ρ'
  | _, _, .here h, ρ, ρ', hr => hbase _ _ h ρ ρ' hr
  | _, _, @OneStep.left _ _ _ r _ h, ρ, ρ', hr => by
    simp only [denote]
    exact Dom.app_mono (OneStep.denote_le hbase h hr) ((denote_finitary I r).mono hr.le)
  | _, _, @OneStep.right _ l _ _ _ h, ρ, ρ', hr => by
    simp only [denote]
    exact Dom.app_mono ((denote_finitary I l).mono hr.le) (OneStep.denote_le hbase h hr)
  | _, _, @OneStep.bindings _ _ _ b h, ρ, ρ', hr => by
    simp only [denote]
    exact (denote_finitary I b).mono
      (hr.fixEnv_le I (OneStepB.defs_none h) (OneStepB.defs_le hbase h)).le
  | _, _, @OneStep.body _ bs _ _ h, ρ, ρ', hr => by
    simp only [denote]
    refine OneStep.denote_le hbase h (hr.fixEnv_le I (fun _ hk => hk) ?_)
    intro k F hF
    exact ⟨F, hF, fun σ σ' hσ => (defs_finitary I bs k F hF).mono hσ.le⟩

theorem OneStepB.defs_none : ∀ {bs bs' : Letrec}, OneStepB base bs bs' → ∀ k,
    defs I bs k = none → defs I bs' k = none
  | _, _, .value h, k, hk => by
    simp only [defs] at hk ⊢
    split at hk
    · cases hk
    · rw [if_neg ‹_›]; exact hk
  | _, _, .next h, k, hk => by
    simp only [defs] at hk ⊢
    split at hk
    · cases hk
    · rw [if_neg ‹_›]; exact OneStepB.defs_none h k hk

theorem OneStepB.defs_le
    (hbase : ∀ e e', base e e' → ∀ ρ ρ', EnvRel Q ρ ρ' → denote I e ρ ⊆ denote I e' ρ') :
    ∀ {bs bs' : Letrec}, OneStepB base bs bs' → ∀ k F, defs I bs k = some F →
      ∃ F', defs I bs' k = some F' ∧ ∀ σ σ', EnvRel Q σ σ' → F σ ⊆ F' σ'
  | _, _, @OneStepB.value _ _ _ _ _ next h, k, F, hk => by
    simp only [defs] at hk ⊢
    split at hk
    · cases hk
      exact ⟨_, if_pos ‹_›, fun σ σ' hσ => OneStep.denote_le hbase h hσ⟩
    · exact ⟨F, by rw [if_neg ‹_›]; exact hk,
        fun σ σ' hσ => (defs_finitary I next k F hk).mono hσ.le⟩
  | _, _, @OneStepB.next _ _ v _ _ _ h, k, F, hk => by
    simp only [defs] at hk ⊢
    split at hk
    · cases hk
      exact ⟨_, if_pos ‹_›, fun σ σ' hσ => (denote_finitary I v).mono hσ.le⟩
    · obtain ⟨F', hF', hFF⟩ := OneStepB.defs_le hbase h k F hk
      exact ⟨F', by rw [if_neg ‹_›]; exact hF', hFF⟩

end

/-- The same under the arguments of a supercombinator. -/
theorem lambdas_le {b b' : Snode}
    (h : ∀ ρ ρ' : Env Key K, EnvRel Q ρ ρ' → denote I b ρ ⊆ denote I b' ρ') :
    ∀ (xs : List String) {ρ ρ' : Env Key K}, EnvRel Q ρ ρ' →
      denote I (lambdas xs b) ρ ⊆ denote I (lambdas xs b') ρ'
  | [], ρ, ρ', hr => h ρ ρ' hr
  | x :: xs, ρ, ρ', hr => by
    simp only [lambdas, List.foldr_cons, denote]
    apply Dom.lam_mono
    intro a
    apply lambdas_le h xs
    refine ⟨Env.update_mono hr.le _ (le_refl a), ?_⟩
    simpa [Function.update_of_ne] using hr.sc

end Rewrite

mutual

theorem OneStep.symm {base : Snode → Snode → Prop} : ∀ {e e' : Snode}, OneStep base e e' →
    OneStep (fun a b => base b a) e' e
  | _, _, .here h => .here h
  | _, _, .left h => .left (OneStep.symm h)
  | _, _, .right h => .right (OneStep.symm h)
  | _, _, .bindings h => .bindings (OneStepB.symm h)
  | _, _, .body h => .body (OneStep.symm h)

theorem OneStepB.symm {base : Snode → Snode → Prop} : ∀ {bs bs' : Letrec}, OneStepB base bs bs' →
    OneStepB (fun a b => base b a) bs' bs
  | _, _, .value h => .value (OneStep.symm h)
  | _, _, .next h => .next (OneStepB.symm h)

end

/-! ## Names of a rewritten tree -/

section Names

variable {base : Snode → Snode → Prop}

mutual

theorem OneStep.exists_base : ∀ {e e' : Snode}, OneStep base e e' → ∃ a a', base a a'
  | _, _, .here h => ⟨_, _, h⟩
  | _, _, .left h => OneStep.exists_base h
  | _, _, .right h => OneStep.exists_base h
  | _, _, .bindings h => OneStepB.exists_base h
  | _, _, .body h => OneStep.exists_base h

theorem OneStepB.exists_base : ∀ {bs bs' : Letrec}, OneStepB base bs bs' → ∃ a a', base a a'
  | _, _, .value h => OneStep.exists_base h
  | _, _, .next h => OneStepB.exists_base h

end

theorem OneStepB.names_eq : ∀ {bs bs' : Letrec}, OneStepB base bs bs' → bs'.names = bs.names
  | _, _, .value _ => rfl
  | _, _, .next h => by simp [Letrec.names, OneStepB.names_eq h]

mutual

/-- What holds of all names of the tree holds of the names of the rewritten subtree. -/
theorem OneStep.restrict {P : String → Prop} : ∀ {e e' : Snode}, OneStep base e e' →
    (∀ x ∈ e.free, P x) → (∀ x ∈ e.binders, P x) →
    OneStep (fun a a' => base a a' ∧ (∀ x ∈ a.free, P x) ∧ ∀ x ∈ a.binders, P x) e e'
  | _, _, .here h, hf, hb => .here ⟨h, hf, hb⟩
  | _, _, .left h, hf, hb => by
    simp only [Snode.free, Snode.binders, List.mem_append] at hf hb
    exact .left (OneStep.restrict h (fun x hx => hf x (Or.inl hx)) (fun x hx => hb x (Or.inl hx)))
  | _, _, .right h, hf, hb => by
    simp only [Snode.free, Snode.binders, List.mem_append] at hf hb
    exact .right (OneStep.restrict h (fun x hx => hf x (Or.inr hx)) (fun x hx => hb x (Or.inr hx)))
  | _, _, @OneStep.bindings _ bs _ b h, hf, hb => by
    simp only [Snode.free, Snode.binders, List.mem_append, List.mem_filter,
      decide_eq_true_eq] at hf hb
    refine .bindings (OneStepB.restrict h ?_ (fun x hx => hb x (Or.inl hx)))
    intro x hx
    by_cases hn : x ∈ bs.names
    · exact hb x (Or.inl (bs.names_subset_binders hn))
    · exact hf x ⟨Or.inl hx, hn⟩
  | _, _, @OneStep.body _ bs b _ h, hf, hb => by
    simp only [Snode.free, Snode.binders, List.mem_append, List.mem_filter,
      decide_eq_true_eq] at hf hb
    refine .body (OneStep.restrict h ?_ (fun x hx => hb x (Or.inr hx)))
    intro x hx
    by_cases hn : x ∈ bs.names
    · exact hb x (Or.inl (bs.names_subset_binders hn))
    · exact hf x ⟨Or.inr hx, hn⟩

theorem OneStepB.restrict {P : String → Prop} : ∀ {bs bs' : Letrec}, OneStepB base bs bs' →
    (∀ x ∈ bs.free, P x) → (∀ x ∈ bs.binders, P x) →
    OneStepB (fun a a' => base a a' ∧ (∀ x ∈ a.free, P x) ∧ ∀ x ∈ a.binders, P x) bs bs'
  | _, _, .value h, hf, hb => by
    simp only [Letrec.free, Letrec.binders, List.mem_append, List.mem_cons] at hf hb
    exact .value (OneStep.restrict h (fun x hx => hf x (Or.inl hx))
      (fun x hx => hb x (Or.inr (Or.inl hx))))
  | _, _, .next h, hf, hb => by
    simp only [Letrec.free, Letrec.binders, List.mem_append, List.mem_cons] at hf hb
    exact .next (OneStepB.restrict h (fun x hx => hf x (Or.inr hx))
      (fun x hx => hb x (Or.inr (Or.inr hx))))

end

mutual

/-- Rules that add no free symbol add none to the tree. -/
theorem OneStep.free_subset (hbase : ∀ e e', base e e' → e'.free ⊆ e.free) :
    ∀ {e e' : Snode}, OneStep base e e' → e'.free ⊆ e.free
  | _, _, .here h => hbase _ _ h
  | _, _, .left h => by
    simp only [Snode.free]
    exact List.append_subset.mpr ⟨fun x hx =>
      List.mem_append_left _ (OneStep.free_subset hbase h hx), List.subset_append_right _ _⟩
  | _, _, .right h => by
    simp only [Snode.free]
    exact List.append_subset.mpr ⟨List.subset_append_left _ _, fun x hx =>
      List.mem_append_right _ (OneStep.free_subset hbase h hx)⟩
  | _, _, .bindings h => by
    intro x hx
    simp only [Snode.free, List.mem_filter, List.mem_append, h.names_eq] at hx ⊢
    exact ⟨hx.1.imp (fun hx => OneStepB.free_subset hbase h hx) id, hx.2⟩
  | _, _, .body h => by
    intro x hx
    simp only [Snode.free, List.mem_filter, List.mem_append] at hx ⊢
    exact ⟨hx.1.imp id (fun hx => OneStep.free_subset hbase h hx), hx.2⟩

theorem OneStepB.free_subset (hbase : ∀ e e', base e e' → e'.free ⊆ e.free) :
    ∀ {bs bs' : Letrec}, OneStepB base bs bs' → bs'.free ⊆ bs.free
  | _, _, .value h => by
    intro x hx
    simp only [Letrec.free, List.mem_append] at hx ⊢
    exact hx.imp (fun hx => OneStep.free_subset hbase h hx) id
  | _, _, .next h => by
    intro x hx
    simp only [Letrec.free, List.mem_append] at hx ⊢
    exact hx.imp id (fun hx => OneStepB.free_subset hbase h hx)

end

mutual

/-- Rules that add the binders `new` add them to the binders of the tree. -/
theorem OneStep.binders_perm {P : List String → Prop}
    (hbase : ∀ e e', base e e' → ∃ new, P new ∧ e'.binders.Perm (e.binders ++ new)) :
    ∀ {e e' : Snode}, OneStep base e e' → ∃ new, P new ∧ e'.binders.Perm (e.binders ++ new)
  | _, _, .here h => hbase _ _ h
  | _, _, @OneStep.left _ l _ r _ h => by
    obtain ⟨new, hP, hp⟩ := OneStep.binders_perm hbase h
    refine ⟨new, hP, (hp.append_right _).trans ?_⟩
    simp only [Snode.binders, List.append_assoc]
    exact List.perm_append_comm.append_left _
  | _, _, .right h => by
    obtain ⟨new, hP, hp⟩ := OneStep.binders_perm hbase h
    refine ⟨new, hP, ?_⟩
    simp only [Snode.binders, List.append_assoc]
    exact hp.append_left _
  | _, _, .bindings h => by
    obtain ⟨new, hP, hp⟩ := OneStepB.binders_perm hbase h
    refine ⟨new, hP, (hp.append_right _).trans ?_⟩
    simp only [Snode.binders, List.append_assoc]
    exact List.perm_append_comm.append_left _
  | _, _, .body h => by
    obtain ⟨new, hP, hp⟩ := OneStep.binders_perm hbase h
    refine ⟨new, hP, ?_⟩
    simp only [Snode.binders, List.append_assoc]
    exact hp.append_left _

theorem OneStepB.binders_perm {P : List String → Prop}
    (hbase : ∀ e e', base e e' → ∃ new, P new ∧ e'.binders.Perm (e.binders ++ new)) :
    ∀ {bs bs' : Letrec}, OneStepB base bs bs' → ∃ new, P new ∧ bs'.binders.Perm (bs.binders ++ new)
  | _, _, .value h => by
    obtain ⟨new, hP, hp⟩ := OneStep.binders_perm hbase h
    refine ⟨new, hP, ?_⟩
    simp only [Letrec.binders, List.cons_append, List.append_assoc]
    refine List.Perm.cons _ ((hp.append_right _).trans ?_)
    rw [List.append_assoc]
    exact List.perm_append_comm.append_left _
  | _, _, .next h => by
    obtain ⟨new, hP, hp⟩ := OneStepB.binders_perm hbase h
    refine ⟨new, hP, ?_⟩
    simp only [Letrec.binders, List.cons_append, List.append_assoc]
    exact List.Perm.cons _ (hp.append_left _)

end

end Names

/-! ## Unfolding a call in place -/

/-- The symbols of the body are arguments. -/
def Scomb.Closed (sc : Scomb) : Prop := ∀ x ∈ sc.body.free, x ∈ sc.argnames

theorem mem_free_lambdas : ∀ (xs : List String) (b : Snode) (x : String),
    x ∈ (lambdas xs b).free ↔ x ∈ b.free ∧ x ∉ xs
  | [], b, x => by simp [lambdas]
  | y :: xs, b, x => by
    have ih := mem_free_lambdas xs b x
    simp only [lambdas] at ih
    simp only [lambdas, List.foldr_cons, Snode.free, List.mem_filter, ih, decide_eq_true_eq,
      List.mem_cons, not_or]
    tauto

section Unfold

variable {K : Type} (I : Interp K)

/-- The function of a closed supercombinator depends on the supercombinators only. -/
theorem Scomb.Closed.denote_eq {sc : Scomb} (h : sc.Closed) {ρ ρ' : Env Key K}
    (hsc : ∀ i, ρ (.sc i) = ρ' (.sc i)) :
    denote I (lambdas sc.argnames sc.body) ρ = denote I (lambdas sc.argnames sc.body) ρ' := by
  apply denote_congr
  intro k hk
  cases k with
  | sc i => exact hsc i
  | var x =>
    obtain ⟨hx, hn⟩ := (mem_free_lambdas _ _ x).mp hk
    exact absurd (h x hx) hn

/-- Replace the body of supercombinator `i`. -/
def setBody (scs : List Scomb) (i : Nat) (b : Snode) : List Scomb :=
  scs.modify i (fun sc => { sc with body := b })

theorem getElem?_setBody (scs : List Scomb) (i : Nat) (b : Snode) (j : Nat) :
    (setBody scs i b)[j]? = (scs[j]?).map (fun sc => if i = j then { sc with body := b } else sc) := by
  simp only [setBody, List.getElem?_modify]
  split <;> simp [*]

/-- `e` calls a supercombinator of the table, and `e'` is the call unfolded. -/
def Unfolds (scs : List Scomb) (e e' : Snode) : Prop :=
  ∃ (j : Nat) (sc : Scomb) (args : List Snode), scs[j]? = some sc ∧
    (∀ ρ, denote I e ρ = appN (ρ (.sc j)) (args.map (denote I · ρ))) ∧
    (∀ ρ, denote I e' ρ =
      appN (denote I (lambdas sc.argnames sc.body) ρ) (args.map (denote I · ρ)))

theorem map_denote_le (args : List Snode) {ρ ρ' : Env Key K} (h : ρ ≤ ρ') :
    List.Forall₂ (· ⊆ ·) (args.map (denote I · ρ)) (args.map (denote I · ρ')) := by
  induction args with
  | nil => exact .nil
  | cons e args ih => exact .cons ((denote_finitary I e).mono h) ih

/-- Unfolding one call in one body does not change what any supercombinator denotes. -/
theorem progEnv_unfold {base : Snode → Snode → Prop} {scs : List Scomb} {i : Nat} {sc : Scomb}
    {b' : Snode} (hcl : ∀ sc ∈ scs, sc.Closed) (hi : scs[i]? = some sc)
    (hstep : OneStep base sc.body b') (hbase : ∀ e e', base e e' → Unfolds I scs e e') :
    progEnv I (setBody scs i b') = progEnv I scs := by
  have hclosed : ∀ (j : Nat) (sc : Scomb), scs[j]? = some sc → sc.Closed := fun j sc h =>
    hcl sc (List.mem_of_getElem? h)
  apply le_antisymm
  · -- the old solution satisfies the new equations
    apply fixEnv_le
    intro k
    cases hk : progDefs I (setBody scs i b') k with
    | none => rw [Defs.step_none hk]; exact Set.empty_subset _
    | some F =>
      rw [Defs.step_some hk]
      cases k with
      | var x => simp [progDefs] at hk
      | sc j =>
        simp only [progDefs, getElem?_setBody, Option.map_eq_some_iff] at hk
        obtain ⟨_, ⟨scj, hj, rfl⟩, rfl⟩ := hk
        rw [progEnv_sc I hj]
        split
        · subst_vars
          obtain rfl := Option.some.inj (hi.symm.trans hj)
          let Q : (Nat → Dom K) → (Nat → Dom K) → Prop := fun s s' =>
            s = s' ∧ s' = fun i => progEnv I scs (.sc i)
          refine lambdas_le I (Q := Q) (fun ρ ρ' hr => ?_) _ ⟨le_refl _, rfl, rfl⟩
          refine hstep.symm.denote_le I ?_ hr
          intro e' e he ρ ρ' hr
          obtain ⟨j, scj, args, hj, h1, h2⟩ := hbase e e' he
          rw [h1, h2]
          refine appN_mono ?_ (map_denote_le I args hr.le)
          have hsc : ∀ i, ρ (.sc i) = progEnv I scs (.sc i) := fun i =>
            (congrFun hr.sc.1 i).trans (congrFun hr.sc.2 i)
          rw [(hclosed j scj hj).denote_eq I hsc, ← progEnv_sc I hj]
          exact (congrFun hr.sc.2 j).ge
        · exact le_refl _
  · -- the new solution, cut down to one unfolding of the old equations
    let σ := progEnv I (setBody scs i b')
    let τ : Env Key K := σ ⊓ (progDefs I scs).step (fun _ => ∅) σ
    have hτσ : τ ≤ σ := inf_le_left
    suffices h : progEnv I scs ≤ τ from h.trans hτσ
    apply fixEnv_le
    have hmono : (progDefs I scs).step (fun _ => ∅) τ ≤ (progDefs I scs).step (fun _ => ∅) σ :=
      Defs.step_mono (progDefs_finitary I scs) (le_refl _) hτσ
    refine le_inf ?_ hmono
    intro k
    cases hk : progDefs I scs k with
    | none => rw [Defs.step_none hk]; exact Set.empty_subset _
    | some F =>
      rw [Defs.step_some hk]
      cases k with
      | var x => simp [progDefs] at hk
      | sc j =>
        simp only [progDefs, Option.map_eq_some_iff] at hk
        obtain ⟨scj, hj, rfl⟩ := hk
        have hj' : (setBody scs i b')[j]? = some (if i = j then { scj with body := b' } else scj) := by
          simp [getElem?_setBody, hj]
        show denote I (lambdas scj.argnames scj.body) τ ≤ progEnv I (setBody scs i b') (.sc j)
        rw [progEnv_sc I hj']
        split
        · subst_vars
          obtain rfl := Option.some.inj (hi.symm.trans hj)
          let Q : (Nat → Dom K) → (Nat → Dom K) → Prop := fun s s' =>
            s = (fun i => τ (.sc i)) ∧ s' = fun i => σ (.sc i)
          refine lambdas_le I (Q := Q) (fun ρ ρ' hr => ?_) _ ⟨hτσ, rfl, rfl⟩
          refine hstep.denote_le I ?_ hr
          intro e e' he ρ ρ' hr
          obtain ⟨j, scj, args, hj, h1, h2⟩ := hbase e e' he
          rw [h1, h2]
          refine appN_mono ?_ (map_denote_le I args hr.le)
          rw [(hclosed j scj hj).denote_eq I (fun i => congrFun hr.sc.2 i), congrFun hr.sc.1 j]
          have hτ : τ (.sc j) ≤ (progDefs I scs).step (fun _ => ∅) σ (.sc j) :=
            inf_le_right (a := σ) (.sc j)
          rwa [Defs.step_some (progDefs_some I hj)] at hτ
        · exact (denote_finitary I _).mono hτσ

end Unfold

end Compiler
end NReduce
