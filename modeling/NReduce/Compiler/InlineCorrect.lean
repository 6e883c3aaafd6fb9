import NReduce.Compiler.Inlining

/-!
# NReduce.Compiler.InlineCorrect

Correctness of the inlining pass: `inlining_correct`.

* every supercombinator denotes the same function before and after (`InlineStep.progEnv`);
* every body is still closed, its binders distinct, and it is built from copies of the original
  bodies under one renaming a copy (`Inlined`), so a symbol is bound by the copy of its binder;
* the names that the pass adds are fresh (`InlineStep.binders`).
-/

namespace NReduce
namespace Compiler

open Domain

attribute [local simp] Snode.free Letrec.free Snode.binders Letrec.binders Snode.rename
  Letrec.rename Snode.replaceSymbols Letrec.replaceSymbols argBindings

/-! ## Application spines -/

/-- `h` applied to arguments, each with the strictness mark of its application node. -/
def Snode.applyAll (h : Snode) (ps : List (Snode × Bool)) : Snode :=
  ps.foldl (fun e p => .application e p.1 p.2) h

theorem unwind_eq : ∀ (e : Snode) (acc : List Snode) {h : Snode} {args : List Snode},
    e.unwind acc = (h, args) → ∃ ps, e = h.applyAll ps ∧ args = ps.map Prod.fst ++ acc
  | .application l r s, acc, h, args, hu => by
    obtain ⟨ps, rfl, rfl⟩ := unwind_eq l (r :: acc) hu
    exact ⟨ps ++ [(r, s)], by simp [Snode.applyAll], by simp⟩
  | .lambda x b, acc, h, args, hu => by cases hu; exact ⟨[], rfl, rfl⟩
  | .builtin b, acc, h, args, hu => by cases hu; exact ⟨[], rfl, rfl⟩
  | .symbol x, acc, h, args, hu => by cases hu; exact ⟨[], rfl, rfl⟩
  | .letrec bs b, acc, h, args, hu => by cases hu; exact ⟨[], rfl, rfl⟩
  | .scref i, acc, h, args, hu => by cases hu; exact ⟨[], rfl, rfl⟩
  | .nil, acc, h, args, hu => by cases hu; exact ⟨[], rfl, rfl⟩
  | .number d, acc, h, args, hu => by cases hu; exact ⟨[], rfl, rfl⟩
  | .string s, acc, h, args, hu => by cases hu; exact ⟨[], rfl, rfl⟩

theorem free_applyAll (ps : List (Snode × Bool)) : ∀ h : Snode,
    (h.applyAll ps).free = h.free ++ ps.flatMap (fun p => p.1.free) := by
  induction ps with
  | nil => simp [Snode.applyAll]
  | cons p ps ih =>
    intro h
    have := ih (.application h p.1 p.2)
    simpa [Snode.applyAll, Snode.free] using this

theorem binders_applyAll (ps : List (Snode × Bool)) : ∀ h : Snode,
    (h.applyAll ps).binders = h.binders ++ ps.flatMap (fun p => p.1.binders) := by
  induction ps with
  | nil => simp [Snode.applyAll]
  | cons p ps ih =>
    intro h
    have := ih (.application h p.1 p.2)
    simpa [Snode.applyAll, Snode.binders] using this

theorem denote_applyAll {K : Type} (I : Interp K) (ρ : Env Key K) (ps : List (Snode × Bool)) :
    ∀ h : Snode, denote I (h.applyAll ps) ρ =
      appN (denote I h ρ) ((ps.map Prod.fst).map (denote I · ρ)) := by
  induction ps with
  | nil => intro h; rfl
  | cons p ps ih =>
    intro h
    have := ih (.application h p.1 p.2)
    simpa [Snode.applyAll, appN, denote] using this

theorem rename_applyAll (f : String → String) (ps : List (Snode × Bool)) : ∀ h : Snode,
    (h.applyAll ps).rename f = (h.rename f).applyAll (ps.map (fun p => (p.1.rename f, p.2))) := by
  induction ps with
  | nil => intro h; rfl
  | cons p ps ih =>
    intro h
    have := ih (.application h p.1 p.2)
    simpa [Snode.applyAll, Snode.rename] using this

/-! ## The bindings of the arguments -/

theorem names_argBindings : ∀ (ys : List String) (args : List Snode) (ss : List Bool)
    (bs : Letrec), ys.length = args.length →
    (argBindings ys args ss bs).names = ys.reverse ++ bs.names
  | [], [], _, _, _ => rfl
  | y :: ys, a :: args, ss, bs, h => by
    rw [argBindings, names_argBindings ys args _ _ (by simpa using h)]
    simp [Letrec.names]

theorem mem_free_argBindings : ∀ (ys : List String) (args : List Snode) (ss : List Bool)
    (bs : Letrec) (x : String), ys.length = args.length →
    (x ∈ (argBindings ys args ss bs).free ↔ x ∈ args.flatMap Snode.free ∨ x ∈ bs.free)
  | [], [], _, _, _, _ => by simp [argBindings]
  | y :: ys, a :: args, ss, bs, x, h => by
    rw [argBindings, mem_free_argBindings ys args _ _ x (by simpa using h)]
    simp only [Letrec.free, List.mem_append, List.flatMap_cons]
    tauto

theorem binders_argBindings : ∀ (ys : List String) (args : List Snode) (ss : List Bool)
    (bs : Letrec), ys.length = args.length →
    (argBindings ys args ss bs).binders.Perm (ys ++ args.flatMap Snode.binders ++ bs.binders)
  | [], [], _, _, _ => by simp [argBindings]
  | y :: ys, a :: args, ss, bs, h => by
    rw [argBindings]
    refine (binders_argBindings ys args _ _ (by simpa using h)).trans ?_
    simp only [Letrec.binders, List.flatMap_cons, List.cons_append]
    refine List.perm_middle.trans (List.Perm.cons y ?_)
    rw [List.append_assoc, List.append_assoc]
    refine List.Perm.append_left _ ?_
    rw [← List.append_assoc]
    exact List.Perm.append_right _ List.perm_append_comm

theorem rename_argBindings (f : String → String) : ∀ (ys : List String) (args : List Snode)
    (ss : List Bool) (bs : Letrec), (argBindings ys args ss bs).rename f =
      argBindings (ys.map f) (args.map (Snode.rename f)) ss (bs.rename f)
  | [], _, _, _ => by simp [argBindings]
  | _ :: _, [], _, _ => by simp [argBindings]
  | y :: ys, a :: args, ss, bs => by
    rw [argBindings, rename_argBindings f ys args]
    simp [argBindings, Letrec.rename]

section Defs

variable {K : Type} (I : Interp K)

theorem defs_argBindings_other : ∀ (ys : List String) (args : List Snode) (ss : List Bool)
    (bs : Letrec) {x : String}, x ∉ ys →
    defs I (argBindings ys args ss bs) (.var x) = defs I bs (.var x)
  | [], _, _, _, _, _ => by simp [argBindings]
  | _ :: _, [], _, _, _, _ => by simp [argBindings]
  | y :: ys, a :: args, ss, bs, x, hx => by
    rw [List.mem_cons, not_or] at hx
    rw [argBindings, defs_argBindings_other ys args _ _ hx.2]
    simp [defs, hx.1]

theorem defs_argBindings_get : ∀ (ys : List String) (args : List Snode) (ss : List Bool)
    (bs : Letrec), ys.Nodup → ∀ (i : Nat) (y : String) (a : Snode), ys[i]? = some y →
    args[i]? = some a → defs I (argBindings ys args ss bs) (.var y) = some (denote I a)
  | [], _, _, _, _, i, y, a, hy, _ => by simp at hy
  | _ :: _, [], _, _, _, i, y, a, _, ha => by simp at ha
  | z :: ys, b :: args, ss, bs, hnd, i, y, a, hy, ha => by
    rw [List.nodup_cons] at hnd
    rw [argBindings]
    cases i with
    | zero =>
      simp only [List.getElem?_cons_zero, Option.some.injEq] at hy ha
      subst hy ha
      rw [defs_argBindings_other I ys args _ _ hnd.1]
      simp [defs]
    | succ i =>
      rw [List.getElem?_cons_succ] at hy ha
      exact defs_argBindings_get ys args _ _ hnd.2 i y a hy ha

/-- A letrec over the arguments and a renamed copy of a closed body is the body applied to the
arguments. -/
theorem denote_inlined {sc : Scomb} {f : String → String} {args : List Snode} (ss : List Bool)
    (hcl : sc.Closed) (hlen : args.length = sc.nargs)
    (hnd : ((sc.argnames ++ sc.body.binders).map f).Nodup)
    (hargs : ∀ a ∈ args, ∀ x ∈ a.free, x ∉ sc.argnames.map f) (ρ : Env Key K) :
    denote I (.letrec (argBindings (sc.argnames.map f) args ss .done) (sc.body.rename f)) ρ =
      appN (denote I (lambdas sc.argnames sc.body) ρ) (args.map (denote I · ρ)) := by
  rw [appN_lambdas I _ _ _ _ (by simpa [Scomb.nargs] using hlen), denote]
  have hnd' := hnd
  rw [List.map_append, List.nodup_append] at hnd'
  have hother : ∀ k : Key, (∀ y ∈ sc.argnames.map f, k ≠ .var y) →
      defs I (argBindings (sc.argnames.map f) args ss .done) k = none := by
    intro k hk
    cases k with
    | sc i => exact defs_sc I _ i
    | var x => exact defs_argBindings_other I _ _ _ _ (fun h => hk x h rfl)
  have hocc : ∀ x, sc.body.Occurs x → x ∈ sc.argnames ++ sc.body.binders := by
    intro x hx
    rcases hx with hx | hx
    · exact List.mem_append_left _ (hcl x hx)
    · exact List.mem_append_right _ hx
  apply denote_rename I f sc.body
  · intro x y hx hy he
    exact List.inj_on_of_nodup_map hnd (hocc x hx) (hocc y hy) he
  intro k hk
  cases k with
  | sc i =>
    rw [bindArgs_sc, Key.map, fixEnv_none (defs_finitary I _) ρ (defs_sc I _ i)]
  | var x =>
    obtain ⟨i, hi, hx⟩ := List.getElem_of_mem (hcl x hk)
    have hxi : sc.argnames[i]? = some x := by rw [List.getElem?_eq_getElem hi, hx]
    have hia : i < args.length := by simpa [hlen, Scomb.nargs] using hi
    have hai : args[i]? = some args[i] := List.getElem?_eq_getElem hia
    have hnames : sc.argnames.Nodup := (List.Nodup.of_map _ hnd'.1)
    rw [bindArgs_get _ _ ρ hnames i x (denote I args[i] ρ) hxi (by simp [hai]), Key.map,
      fixEnv_some (defs_finitary I _) ρ (defs_argBindings_get I _ _ _ _ hnd'.1 i (f x) args[i]
        (by simp [hxi]) hai)]
    apply denote_congr
    intro k hk
    refine (fixEnv_none (defs_finitary I _) ρ (hother k ?_)).symm
    rintro y hy rfl
    exact hargs args[i] (List.getElem_mem _) y hk hy

end Defs

/-! ## What one unfolding does -/

theorem replaceName_not_mem : ∀ (old new : List String) {x : String}, x ∉ old →
    replaceName old new x = x
  | [], _, _, _ => by simp [replaceName]
  | _ :: _, [], _, _ => by simp [replaceName]
  | o :: old, n :: new, x, h => by
    rw [List.mem_cons, not_or] at h
    rw [replaceName, if_neg h.1, replaceName_not_mem old new h.2]

mutual

theorem Snode.replaceSymbols_eq (old new : List String) : ∀ e : Snode,
    (∀ x ∈ e.free, x ∉ old) → (∀ x ∈ e.binders, x ∉ old) → e.replaceSymbols old new = e
  | .application l r s, hf, hb => by
    simp only [Snode.free, Snode.binders, List.mem_append] at hf hb
    rw [Snode.replaceSymbols,
      Snode.replaceSymbols_eq old new l (fun x hx => hf x (Or.inl hx)) (fun x hx => hb x (Or.inl hx)),
      Snode.replaceSymbols_eq old new r (fun x hx => hf x (Or.inr hx)) (fun x hx => hb x (Or.inr hx))]
  | .letrec bs b, hf, hb => by
    simp only [Snode.free, Snode.binders, List.mem_append, List.mem_filter,
      decide_eq_true_eq] at hf hb
    have hfree : ∀ x, x ∈ bs.free ∨ x ∈ b.free → x ∉ old := by
      intro x hx
      by_cases hn : x ∈ bs.names
      · exact hb x (Or.inl (bs.names_subset_binders hn))
      · exact hf x ⟨hx, hn⟩
    rw [Snode.replaceSymbols,
      Letrec.replaceSymbols_eq old new bs (fun x hx => hfree x (Or.inl hx))
        (fun x hx => hb x (Or.inl hx)),
      Snode.replaceSymbols_eq old new b (fun x hx => hfree x (Or.inr hx))
        (fun x hx => hb x (Or.inr hx))]
  | .symbol x, hf, _ => by
    rw [Snode.replaceSymbols, replaceName_not_mem old new (hf x (by simp [Snode.free]))]
  | .lambda _ _, _, _ => by simp only [Snode.replaceSymbols]
  | .builtin _, _, _ => by simp only [Snode.replaceSymbols]
  | .scref _, _, _ => by simp only [Snode.replaceSymbols]
  | .nil, _, _ => by simp only [Snode.replaceSymbols]
  | .number _, _, _ => by simp only [Snode.replaceSymbols]
  | .string _, _, _ => by simp only [Snode.replaceSymbols]

theorem Letrec.replaceSymbols_eq (old new : List String) : ∀ bs : Letrec,
    (∀ x ∈ bs.free, x ∉ old) → (∀ x ∈ bs.binders, x ∉ old) → bs.replaceSymbols old new = bs
  | .done, _, _ => by simp only [Letrec.replaceSymbols]
  | .bind x v s next, hf, hb => by
    simp only [Letrec.free, Letrec.binders, List.mem_append, List.mem_cons] at hf hb
    rw [Letrec.replaceSymbols,
      Snode.replaceSymbols_eq old new v (fun x hx => hf x (Or.inl hx))
        (fun x hx => hb x (Or.inr (Or.inl hx))),
      Letrec.replaceSymbols_eq old new next (fun x hx => hf x (Or.inr hx))
        (fun x hx => hb x (Or.inr (Or.inr hx)))]

end

/-- A renaming of a supercombinator's names to distinct names with numbers from `n` up to `n'`. -/
structure Fresh (sc : Scomb) (f : String → String) (n n' : Nat) : Prop where
  le : n ≤ n'
  nodup : ((sc.argnames ++ sc.body.binders).map f).Nodup
  range : ∀ x ∈ sc.argnames ++ sc.body.binders, ∃ k, n ≤ k ∧ k < n' ∧ f x = nextVar k

/-- All that an unfolding can do. -/
theorem InlineCall.inv {scs : List Scomb} {n n' : Nat} {e e' : Snode}
    (hwf : ∀ sc ∈ scs, sc.WF n) (h : InlineCall scs n n' e e') :
    ∃ (j : Nat) (asc : Scomb) (ps : List (Snode × Bool)) (f : String → String),
      scs[j]? = some asc ∧ e = (Snode.scref j).applyAll ps ∧ ps.length = asc.nargs ∧
      Fresh asc f n n' ∧
      (e' = .letrec (argBindings (asc.argnames.map f) (ps.map Prod.fst) (asc.strictin.getD []) .done)
          (asc.body.rename f) ∨
        ps = [] ∧ e' = asc.body.rename f) := by
  cases h with
  | @call _ _ i asc args hi hc =>
    obtain ⟨hu, hj, hlen⟩ := inlinable_some hi
    obtain ⟨ps, rfl, hps⟩ := unwind_eq e [] hu
    rw [List.append_nil] at hps
    subst hps
    have hsc := hwf asc (List.mem_of_getElem? hj)
    obtain ⟨f, hf, hargs, hb, hnd, hle⟩ := copyScombBody_spec (n := n + asc.nargs) _ hsc (by omega)
      (length_freshNames n asc.nargs) (nodup_freshNames n asc.nargs)
      (fun y hy => mem_freshNames hy)
    simp only [inlineCall, Prod.mk.injEq] at hc
    obtain ⟨rfl, rfl⟩ := hc
    have hrange : ∀ x ∈ asc.argnames ++ asc.body.binders, ∃ k, n ≤ k ∧
        k < (copyScombBody (n + asc.nargs) asc (freshNames n asc.nargs)).2 ∧ f x = nextVar k := by
      intro x hx
      rcases List.mem_append.mp hx with hx | hx
      · have hm := List.mem_map_of_mem (f := f) hx
        rw [hargs] at hm
        obtain ⟨k, h1, h2, h3⟩ := mem_freshNames hm
        exact ⟨k, h1, by omega, h3⟩
      · obtain ⟨k, h1, h2, h3⟩ := hb x hx
        exact ⟨k, by omega, h2, h3⟩
    -- no argument name is left in the copy, so `replace_symbols` finds nothing to replace
    have hnone : ∀ x ∈ asc.argnames ++ asc.body.binders, f x ∉ asc.argnames := by
      intro x hx hm
      obtain ⟨k, h1, _, h3⟩ := hrange x hx
      exact hsc.old (f x) (List.mem_append_left _ hm) k h1 h3
    have hrepl : (asc.body.rename f).replaceSymbols asc.argnames (freshNames n asc.nargs) =
        asc.body.rename f := by
      apply Snode.replaceSymbols_eq
      · intro y hy
        obtain ⟨x, hx, rfl⟩ := Snode.free_rename f _ y hy
        exact hnone x (List.mem_append_left _ (hsc.closed x hx))
      · intro y hy
        rw [Snode.binders_rename, List.mem_map] at hy
        obtain ⟨x, hx, rfl⟩ := hy
        exact hnone x (List.mem_append_right _ hx)
    refine ⟨i, asc, ps, f, hj, rfl, by simpa using hlen, ⟨by omega, hnd, hrange⟩, Or.inl ?_⟩
    rw [hf, hrepl, hargs]
  | @const i asc args _ hi hc =>
    obtain ⟨hu, hj, hlen⟩ := inlinable_some hi
    simp only [Snode.unwind, Prod.mk.injEq, true_and] at hu
    subst hu
    have hnargs : asc.argnames = [] := List.length_eq_zero_iff.mp hlen.symm
    have hsc := hwf asc (List.mem_of_getElem? hj)
    obtain ⟨f, hf, _, hb, hnd, hle⟩ := copyScombBody_spec [] hsc (le_refl n)
      (by simpa using hlen) List.nodup_nil (by simp)
    rw [hc] at hf hb hle
    refine ⟨i, asc, [], f, hj, rfl, by simpa using hlen, ⟨hle, hnd, ?_⟩, Or.inr ⟨rfl, hf⟩⟩
    intro x hx
    rw [hnargs, List.nil_append] at hx
    exact hb x hx

section Call

variable {scs : List Scomb} {n n' : Nat} {e e' : Snode}

theorem Fresh.not_old {sc : Scomb} {f : String → String} (h : Fresh sc f n n') {x : String}
    (hx : Old n x) : x ∉ (sc.argnames ++ sc.body.binders).map f := by
  intro hm
  obtain ⟨y, hy, rfl⟩ := List.mem_map.mp hm
  obtain ⟨k, h1, _, h3⟩ := h.range y hy
  exact hx k h1 h3

theorem InlineCall.le (hwf : ∀ sc ∈ scs, sc.WF n) (h : InlineCall scs n n' e e') : n ≤ n' := by
  obtain ⟨_, _, _, _, _, _, _, hf, _⟩ := h.inv hwf
  exact hf.le

theorem InlineCall.unfolds {K : Type} (I : Interp K) (hwf : ∀ sc ∈ scs, sc.WF n)
    (h : InlineCall scs n n' e e') (hold : ∀ x ∈ e.free, Old n x) : Unfolds I scs e e' := by
  obtain ⟨j, asc, ps, f, hj, rfl, hlen, hf, he⟩ := h.inv hwf
  refine ⟨j, asc, ps.map Prod.fst, hj, fun ρ => ?_, fun ρ => ?_⟩
  · rw [denote_applyAll, denote]
  · have hcl := (hwf asc (List.mem_of_getElem? hj)).closed
    have hargs : ∀ a ∈ ps.map Prod.fst, ∀ x ∈ a.free, x ∉ asc.argnames.map f := by
      intro a ha x hx hm
      obtain ⟨p, hp, rfl⟩ := List.mem_map.mp ha
      have hx' : x ∈ ((Snode.scref j).applyAll ps).free := by
        rw [free_applyAll]
        exact List.mem_append_right _ (List.mem_flatMap.mpr ⟨p, hp, hx⟩)
      exact hf.not_old (hold x hx') (by rw [List.map_append]; exact List.mem_append_left _ hm)
    have hlet := denote_inlined I (asc.strictin.getD []) hcl (by simpa using hlen) hf.nodup
      hargs ρ
    rcases he with rfl | ⟨rfl, rfl⟩
    · exact hlet
    · have hnargs : asc.argnames = [] := List.length_eq_zero_iff.mp hlen.symm
      rw [← hlet, hnargs]
      simp only [List.map_nil, argBindings, denote]
      have hdone : (defs I .done : Defs Key K) = fun _ => none := by simp only [defs]
      congr 1
      funext k
      rw [fixEnv_none (defs_finitary I _) ρ (by rw [hdone])]

theorem InlineCall.free_subset (hwf : ∀ sc ∈ scs, sc.WF n) (h : InlineCall scs n n' e e') :
    e'.free ⊆ e.free := by
  obtain ⟨j, asc, ps, f, hj, rfl, hlen, hf, he⟩ := h.inv hwf
  have hcl := (hwf asc (List.mem_of_getElem? hj)).closed
  have hbody : ∀ x ∈ (asc.body.rename f).free, x ∈ asc.argnames.map f := by
    intro x hx
    obtain ⟨y, hy, rfl⟩ := Snode.free_rename f _ x hx
    exact List.mem_map_of_mem (hcl y hy)
  rcases he with rfl | ⟨rfl, rfl⟩
  · intro x hx
    have hlen' : (asc.argnames.map f).length = (ps.map Prod.fst).length := by
      simpa [Scomb.nargs] using hlen.symm
    simp only [Snode.free, List.mem_filter, List.mem_append, names_argBindings _ _ _ _ hlen',
      mem_free_argBindings _ _ _ _ x hlen', Letrec.free, Letrec.names, List.append_nil,
      List.mem_reverse, decide_eq_true_eq, List.not_mem_nil, or_false] at hx
    rw [free_applyAll, Snode.free, List.nil_append, List.mem_flatMap]
    obtain ⟨hx | hx, hn⟩ := hx
    · simpa [List.mem_flatMap] using hx
    · exact absurd (hbody x hx) hn
  · intro x hx
    have hnargs : asc.argnames = [] := List.length_eq_zero_iff.mp hlen.symm
    have := hbody x hx
    simp [hnargs] at this

/-- The names an unfolding adds: distinct, and taken from the counter. -/
def NewNames (n n' : Nat) (new : List String) : Prop :=
  new.Nodup ∧ ∀ x ∈ new, ∃ k, n ≤ k ∧ k < n' ∧ x = nextVar k

theorem InlineCall.binders_perm (hwf : ∀ sc ∈ scs, sc.WF n) (h : InlineCall scs n n' e e') :
    ∃ new, NewNames n n' new ∧ e'.binders.Perm (e.binders ++ new) := by
  obtain ⟨j, asc, ps, f, hj, rfl, hlen, hf, he⟩ := h.inv hwf
  have hnew : NewNames n n' ((asc.argnames ++ asc.body.binders).map f) := by
    refine ⟨hf.nodup, fun x hx => ?_⟩
    obtain ⟨y, hy, rfl⟩ := List.mem_map.mp hx
    exact hf.range y hy
  refine ⟨_, hnew, ?_⟩
  rw [binders_applyAll, Snode.binders, List.nil_append]
  rcases he with rfl | ⟨rfl, rfl⟩
  · have hlen' : (asc.argnames.map f).length = (ps.map Prod.fst).length := by
      simpa [Scomb.nargs] using hlen.symm
    rw [Snode.binders, Snode.binders_rename, List.map_append]
    refine ((binders_argBindings _ _ _ _ hlen').append_right _).trans ?_
    simp only [Letrec.binders, List.append_nil, List.flatMap_map]
    rw [← List.append_assoc]
    exact List.perm_append_comm.append_right _
  · have hnargs : asc.argnames = [] := List.length_eq_zero_iff.mp hlen.symm
    simp [hnargs, Snode.binders_rename]

end Call

/-! ## Copies of the original bodies -/

mutual

/-- `e'` is `e` under the renaming `f`, with any number of calls unfolded. Each unfolded call
brings a copy of the callee's original body in the table `scs`, under one renaming `f'` for the
arguments and all binders of that copy. -/
inductive Inlined (scs : List Scomb) : (String → String) → Snode → Snode → Prop
  | application {f : String → String} {l l' r r' : Snode} {s : Bool} : Inlined scs f l l' →
      Inlined scs f r r' → Inlined scs f (.application l r s) (.application l' r' s)
  | lambda {f : String → String} {x : String} {b b' : Snode} : Inlined scs f b b' →
      Inlined scs f (.lambda x b) (.lambda (f x) b')
  | letrec {f : String → String} {bs bs' : Letrec} {b b' : Snode} : InlinedB scs f bs bs' →
      Inlined scs f b b' → Inlined scs f (.letrec bs b) (.letrec bs' b')
  | symbol {f : String → String} {x : String} : Inlined scs f (.symbol x) (.symbol (f x))
  | builtin {f : String → String} {b : Bif} : Inlined scs f (.builtin b) (.builtin b)
  | scref {f : String → String} {i : Nat} : Inlined scs f (.scref i) (.scref i)
  | nil {f : String → String} : Inlined scs f .nil .nil
  | number {f : String → String} {d : Double} : Inlined scs f (.number d) (.number d)
  | string {f : String → String} {s : String} : Inlined scs f (.string s) (.string s)
  | call {f f' : String → String} {e b' : Snode} {j : Nat} {ps : List (Snode × Bool)}
      {sc : Scomb} : Inlined scs f e ((Snode.scref j).applyAll ps) → scs[j]? = some sc →
      ps.length = sc.nargs → Inlined scs f' sc.body b' →
      Inlined scs f e (.letrec (argBindings (sc.argnames.map f') (ps.map Prod.fst)
        (sc.strictin.getD []) .done) b')
  | const {f f' : String → String} {e b' : Snode} {j : Nat} {sc : Scomb} :
      Inlined scs f e (.scref j) → scs[j]? = some sc → sc.nargs = 0 →
      Inlined scs f' sc.body b' → Inlined scs f e b'

inductive InlinedB (scs : List Scomb) : (String → String) → Letrec → Letrec → Prop
  | done {f : String → String} : InlinedB scs f .done .done
  | bind {f : String → String} {x : String} {v v' : Snode} {s : Bool} {next next' : Letrec} :
      Inlined scs f v v' → InlinedB scs f next next' →
      InlinedB scs f (.bind x v s next) (.bind (f x) v' s next')

end

section Inlined

variable {scs : List Scomb}

mutual

theorem Inlined.refl : ∀ e : Snode, Inlined scs id e e
  | .application l r _ => .application (Inlined.refl l) (Inlined.refl r)
  | .lambda _ b => .lambda (Inlined.refl b)
  | .letrec bs b => .letrec (InlinedB.refl bs) (Inlined.refl b)
  | .symbol _ => .symbol
  | .builtin _ => .builtin
  | .scref _ => .scref
  | .nil => .nil
  | .number _ => .number
  | .string _ => .string

theorem InlinedB.refl : ∀ bs : Letrec, InlinedB scs id bs bs
  | .done => .done
  | .bind _ v _ next => .bind (Inlined.refl v) (InlinedB.refl next)

end

mutual

/-- Renaming the result renames every copy in it. -/
theorem Inlined.rename (g : String → String) : ∀ {f : String → String} {e e' : Snode},
    Inlined scs f e e' → Inlined scs (g ∘ f) e (e'.rename g)
  | _, _, _, .application hl hr => by
    simpa only [Snode.rename] using .application (Inlined.rename g hl) (Inlined.rename g hr)
  | _, _, _, .lambda hb => by simpa only [Snode.rename] using .lambda (Inlined.rename g hb)
  | _, _, _, .letrec hbs hb => by
    simpa only [Snode.rename] using .letrec (InlinedB.rename g hbs) (Inlined.rename g hb)
  | _, _, _, .symbol => by simpa only [Snode.rename] using .symbol
  | _, _, _, .builtin => by simpa only [Snode.rename] using .builtin
  | _, _, _, .scref => by simpa only [Snode.rename] using .scref
  | _, _, _, .nil => by simpa only [Snode.rename] using .nil
  | _, _, _, .number => by simpa only [Snode.rename] using .number
  | _, _, _, .string => by simpa only [Snode.rename] using .string
  | _, _, _, @Inlined.call _ f f' e b' j ps sc he hj hlen hb => by
    have h1 := Inlined.rename g he
    rw [rename_applyAll, Snode.rename] at h1
    have h2 := Inlined.call h1 hj (by simpa using hlen) (Inlined.rename g hb)
    simp only [Snode.rename, rename_argBindings, Letrec.rename]
    simpa [Function.comp_def] using h2
  | _, _, _, .const he hj hlen hb => by
    have h1 := Inlined.rename g he
    rw [Snode.rename] at h1
    exact .const h1 hj hlen (Inlined.rename g hb)

theorem InlinedB.rename (g : String → String) : ∀ {f : String → String} {bs bs' : Letrec},
    InlinedB scs f bs bs' → InlinedB scs (g ∘ f) bs (bs'.rename g)
  | _, _, _, .done => by simpa only [Letrec.rename] using .done
  | _, _, _, .bind hv hn => by
    simpa only [Letrec.rename] using .bind (Inlined.rename g hv) (InlinedB.rename g hn)

end

variable {base : Snode → Snode → Prop}

theorem OneStep.applyAll_head : ∀ (ps : List (Snode × Bool)) {h h' : Snode}, OneStep base h h' →
    OneStep base (h.applyAll ps) (h'.applyAll ps)
  | [], _, _, h => h
  | _ :: ps, _, _, h => OneStep.applyAll_head ps (.left h)

/-- A rewrite in the bindings of the arguments is a rewrite in one argument of the call. -/
theorem OneStepB.argBindings_inv : ∀ (ys : List String) (ps : List (Snode × Bool))
    (ss : List Bool) {bs bs' : Letrec} (h : Snode), ys.length = ps.length →
    OneStepB base (argBindings ys (ps.map Prod.fst) ss bs) bs' →
    (∃ ps' : List (Snode × Bool), ps'.length = ps.length ∧
      bs' = argBindings ys (ps'.map Prod.fst) ss bs ∧
      OneStep base (h.applyAll ps) (h.applyAll ps')) ∨
    ∃ bs'', OneStepB base bs bs'' ∧ bs' = argBindings ys (ps.map Prod.fst) ss bs''
  | [], [], ss, bs, bs', h, _, hs => Or.inr ⟨bs', hs, rfl⟩
  | y :: ys, p :: ps, ss, bs, bs', h, hl, hs => by
    rw [List.map_cons, argBindings] at hs
    rcases OneStepB.argBindings_inv ys ps ss.tail (.application h p.1 p.2) (by simpa using hl) hs
      with ⟨ps', hl', rfl, hs'⟩ | ⟨bs'', hs', rfl⟩
    · exact Or.inl ⟨p :: ps', by simp [hl'], by simp [argBindings], hs'⟩
    · cases hs' with
      | @value _ _ a' _ _ hv =>
        refine Or.inl ⟨(a', p.2) :: ps, rfl, by simp [argBindings], ?_⟩
        exact OneStep.applyAll_head ps (.right hv)
      | @next _ _ _ _ next' hn => exact Or.inr ⟨next', hn, by simp [argBindings]⟩

mutual

/-- Unfolding one more call, wherever it stands, leads to a tree of the same kind. -/
theorem Inlined.step (hbase : ∀ a a', base a a' → ∀ f e, Inlined scs f e a → Inlined scs f e a') :
    ∀ {f : String → String} {e a a' : Snode}, Inlined scs f e a → OneStep base a a' →
      Inlined scs f e a'
  | _, _, _, _, .application hl hr, hs => by
    cases hs with
    | here hb => exact hbase _ _ hb _ _ (.application hl hr)
    | left hs => exact .application (Inlined.step hbase hl hs) hr
    | right hs => exact .application hl (Inlined.step hbase hr hs)
  | _, _, _, _, .lambda hb, hs => by
    cases hs with
    | here h => exact hbase _ _ h _ _ (.lambda hb)
  | _, _, _, _, .letrec hbs hb, hs => by
    cases hs with
    | here h => exact hbase _ _ h _ _ (.letrec hbs hb)
    | bindings hs => exact .letrec (InlinedB.step hbase hbs hs) hb
    | body hs => exact .letrec hbs (Inlined.step hbase hb hs)
  | _, _, _, _, @Inlined.call _ f f' e b' j ps sc he hj hlen hb, hs => by
    cases hs with
    | here h => exact hbase _ _ h _ _ (.call he hj hlen hb)
    | bindings hs =>
      rcases OneStepB.argBindings_inv _ ps _ (.scref j) (by simpa [Scomb.nargs] using hlen.symm) hs
        with ⟨ps', hl', rfl, hs'⟩ | ⟨_, hs', _⟩
      · exact .call (Inlined.step hbase he hs') hj (hl'.trans hlen) hb
      · cases hs'
    | body hs => exact .call he hj hlen (Inlined.step hbase hb hs)
  | _, _, _, _, .const he hj hlen hb, hs => .const he hj hlen (Inlined.step hbase hb hs)
  | _, _, _, _, .symbol, hs => by
    cases hs with
    | here h => exact hbase _ _ h _ _ .symbol
  | _, _, _, _, .builtin, .here h => hbase _ _ h _ _ .builtin
  | _, _, _, _, .scref, .here h => hbase _ _ h _ _ .scref
  | _, _, _, _, .nil, .here h => hbase _ _ h _ _ .nil
  | _, _, _, _, .number, .here h => hbase _ _ h _ _ .number
  | _, _, _, _, .string, .here h => hbase _ _ h _ _ .string

theorem InlinedB.step (hbase : ∀ a a', base a a' → ∀ f e, Inlined scs f e a → Inlined scs f e a') :
    ∀ {f : String → String} {bs cs cs' : Letrec}, InlinedB scs f bs cs → OneStepB base cs cs' →
      InlinedB scs f bs cs'
  | _, _, _, _, .bind hv hn, hs => by
    cases hs with
    | value hs => exact .bind (Inlined.step hbase hv hs) hn
    | next hs => exact .bind hv (InlinedB.step hbase hn hs)

end

end Inlined

/-! ## Invariants of the pass -/

/-- The letrec names of all bodies. -/
def Source.binders (src : Source) : List String := src.scombs.flatMap (fun sc => sc.body.binders)

/-- What a run of the pass keeps, from the program `src0` to the program `src`. -/
structure InlineInv {K : Type} (I : Interp K) (src0 src : Source) : Prop where
  wf : src.WF
  le : src0.varno ≤ src.varno
  length : src.scombs.length = src0.scombs.length
  copies : ∀ (i : Nat) (sc : Scomb), src.scombs[i]? = some sc →
    ∃ sc0, src0.scombs[i]? = some sc0 ∧ sc.argnames = sc0.argnames ∧
      sc.strictin = sc0.strictin ∧ Inlined src0.scombs id sc0.body sc.body
  binders : ∃ new, NewNames src0.varno src.varno new ∧ src.binders.Perm (src0.binders ++ new)
  progEnv : progEnv I src.scombs = progEnv I src0.scombs

theorem binders_setBody : ∀ (scs : List Scomb) {i : Nat} {sc : Scomb} {b' : Snode}
    {new : List String}, scs[i]? = some sc → b'.binders.Perm (sc.body.binders ++ new) →
    ((setBody scs i b').flatMap (fun sc => sc.body.binders)).Perm
      (scs.flatMap (fun sc => sc.body.binders) ++ new)
  | [], i, sc, b', new, h, _ => by simp at h
  | c :: scs, 0, sc, b', new, h, hp => by
    simp only [List.getElem?_cons_zero, Option.some.injEq] at h
    subst h
    simp only [setBody, List.modify_zero_cons, List.flatMap_cons]
    refine (hp.append_right _).trans ?_
    rw [List.append_assoc, List.append_assoc]
    exact List.perm_append_comm.append_left _
  | c :: scs, i + 1, sc, b', new, h, hp => by
    rw [List.getElem?_cons_succ] at h
    simp only [setBody, List.modify_succ_cons, List.flatMap_cons, List.append_assoc]
    exact (binders_setBody scs h hp).append_left _

theorem NewNames.append {n n' n'' : Nat} {new new' : List String} (h : NewNames n n' new)
    (h' : NewNames n' n'' new') (hle : n ≤ n') (hle' : n' ≤ n'') :
    NewNames n n'' (new ++ new') := by
  refine ⟨List.nodup_append.mpr ⟨h.1, h'.1, ?_⟩, ?_⟩
  · rintro x hx y hy rfl
    obtain ⟨k, _, hk, rfl⟩ := h.2 x hx
    obtain ⟨k', hk', _, he⟩ := h'.2 _ hy
    have := nextVar_inj he
    omega
  · intro x hx
    rcases List.mem_append.mp hx with hx | hx
    · obtain ⟨k, h1, h2, h3⟩ := h.2 x hx
      exact ⟨k, h1, by omega, h3⟩
    · obtain ⟨k, h1, h2, h3⟩ := h'.2 x hx
      exact ⟨k, by omega, h2, h3⟩

/-- One unfolding keeps the invariant. -/
theorem InlineInv.step {K : Type} {I : Interp K} {src0 src src' : Source}
    (hinv : InlineInv I src0 src) (h : InlineStep src src') : InlineInv I src0 src' := by
  obtain @⟨scs, n, n', i, sc, b', hi, hstep⟩ := h
  obtain ⟨hwf, hle, hlen, hcopies, ⟨new0, hnew0, hperm0⟩, henv⟩ := hinv
  simp only [Source.WF] at hwf
  have hsc := hwf sc (List.mem_of_getElem? hi)
  -- the names of the call that is unfolded are names of the body
  have hr := hstep.restrict (P := Old n)
    (fun x hx => hsc.old x (List.mem_append_left _ (hsc.closed x hx)))
    (fun x hx => hsc.old x (List.mem_append_right _ hx))
  obtain ⟨new, hnew, hperm⟩ := hstep.binders_perm (fun e e' h => h.binders_perm hwf)
  have hnn : n ≤ n' := by
    obtain ⟨e, e', hc⟩ := hstep.exists_base
    exact hc.le hwf
  refine ⟨?_, hle.trans hnn, by simpa [setBody] using hlen, ?_, ?_, ?_⟩
  · intro sc' hsc'
    obtain ⟨j, hj⟩ := List.getElem?_of_mem hsc'
    simp only [getElem?_setBody, Option.map_eq_some_iff] at hj
    obtain ⟨scj, hscj, rfl⟩ := hj
    have hwfj := hwf scj (List.mem_of_getElem? hscj)
    split
    · subst_vars
      obtain rfl := Option.some.inj (hi.symm.trans hscj)
      have hp : (sc.argnames ++ b'.binders).Perm ((sc.argnames ++ sc.body.binders) ++ new) := by
        rw [List.append_assoc]
        exact hperm.append_left _
      refine ⟨fun x hx => hsc.closed x (hstep.free_subset (fun e e' h => h.free_subset hwf) hx),
        ?_, ?_⟩
      · rw [hp.nodup_iff, List.nodup_append]
        refine ⟨hsc.nodup, hnew.1, ?_⟩
        rintro x hx y hy rfl
        obtain ⟨k, hk, _, rfl⟩ := hnew.2 x hy
        exact hsc.old _ hx k hk rfl
      · intro x hx
        rcases List.mem_append.mp (hp.subset hx) with hx | hx
        · exact (hsc.old x hx).mono hnn
        · obtain ⟨k, _, hk, rfl⟩ := hnew.2 x hx
          exact old_nextVar hk
    · exact ⟨hwfj.closed, hwfj.nodup, fun x hx => (hwfj.old x hx).mono hnn⟩
  · intro j sc' hj
    simp only [getElem?_setBody, Option.map_eq_some_iff] at hj
    obtain ⟨scj, hscj, rfl⟩ := hj
    obtain ⟨sc0, h0, ha, hs, hin⟩ := hcopies j scj hscj
    split
    · subst_vars
      obtain rfl := Option.some.inj (hi.symm.trans hscj)
      refine ⟨sc0, h0, ha, hs, hin.step ?_ hstep⟩
      intro a a' hc f e he
      obtain ⟨k, asc, ps, g, hk, rfl, hl, _, h'⟩ := hc.inv hwf
      obtain ⟨asc0, h0, ha, hs, hin⟩ := hcopies k asc hk
      have hb : Inlined src0.scombs (g ∘ id) asc0.body (asc.body.rename g) := hin.rename g
      have hl' : ps.length = asc0.nargs := by rw [hl, Scomb.nargs, ha, Scomb.nargs]
      rcases h' with rfl | ⟨rfl, rfl⟩
      · rw [ha, hs]
        exact .call he h0 hl' hb
      · exact .const he h0 hl'.symm hb
    · exact ⟨sc0, h0, ha, hs, hin⟩
  · refine ⟨new0 ++ new, hnew0.append hnew hle hnn, ?_⟩
    refine (binders_setBody scs hi hperm).trans ?_
    rw [← List.append_assoc]
    exact hperm0.append_right _
  · rw [← henv]
    exact progEnv_unfold I (fun sc h => (hwf sc h).closed) hi hr
      (fun e e' h => h.1.unfolds I hwf h.2.1)

theorem InlineInv.steps {K : Type} {I : Interp K} {src0 src src' : Source}
    (hinv : InlineInv I src0 src) (h : InlineSteps src src') : InlineInv I src0 src' := by
  induction h with
  | refl => exact hinv
  | tail _ hstep ih => exact ih.step hstep

theorem getElem?_markInline (scs : List Scomb) (i : Nat) : (markInline scs)[i]? =
    (scs[i]?).map (fun sc => { sc with caninline := sc.caninline || canInline scs sc }) := by
  simp [markInline]

/-- Setting `caninline` changes nothing that the invariant reads. -/
theorem InlineInv.mark {K : Type} (I : Interp K) {src : Source} (hwf : src.WF) :
    InlineInv I src { src with scombs := markInline src.scombs } where
  wf := by
    intro sc hsc
    obtain ⟨sc0, h0, rfl⟩ := List.mem_map.mp hsc
    exact ⟨(hwf sc0 h0).closed, (hwf sc0 h0).nodup, (hwf sc0 h0).old⟩
  le := le_rfl
  length := by simp [markInline]
  copies := by
    intro i sc hi
    rw [getElem?_markInline, Option.map_eq_some_iff] at hi
    obtain ⟨sc0, h0, rfl⟩ := hi
    exact ⟨sc0, h0, rfl, rfl, Inlined.refl _⟩
  binders := by
    refine ⟨[], ⟨List.nodup_nil, by simp⟩, ?_⟩
    simp [Source.binders, markInline, List.flatMap_map]
  progEnv := by
    have : (progDefs I (markInline src.scombs) : Defs Key K) = progDefs I src.scombs := by
      funext k
      cases k with
      | var x => rfl
      | sc i =>
        simp only [progDefs, getElem?_markInline, Option.map_map]
        rfl
    simp only [Compiler.progEnv, this]

/-- Inlining preserves meaning and hygiene, for every program on which it terminates. -/
theorem inlining_correct {K : Type} (I : Interp K) {src src' : Source} (hwf : src.WF)
    {fuel : Nat} (h : inlining fuel src = some src') :
    (∀ i, progEnv I src'.scombs (.sc i) = progEnv I src.scombs (.sc i)) ∧
    src'.scombs.length = src.scombs.length ∧
    (∀ (i : Nat) (sc sc' : Scomb), src.scombs[i]? = some sc → src'.scombs[i]? = some sc' →
      sc'.argnames = sc.argnames ∧ Inlined src.scombs id sc.body sc'.body ∧
      (∀ x ∈ sc'.body.free, x ∈ sc'.argnames) ∧ (sc'.argnames ++ sc'.body.binders).Nodup) ∧
    ∃ new, src'.binders.Perm (src.binders ++ new) ∧ new.Nodup ∧
      ∀ x ∈ new, x ∉ src.binders ∧ ∀ sc ∈ src.scombs, x ∉ sc.argnames := by
  have hinv := (InlineInv.mark I hwf).steps (inlineRounds_steps fuel h)
  obtain ⟨hwf', _, hlen, hcopies, ⟨new, hnew, hperm⟩, henv⟩ := hinv
  refine ⟨fun i => by rw [henv], hlen, ?_, new, hperm, hnew.1, ?_⟩
  · intro i sc sc' hi hi'
    obtain ⟨sc0, h0, ha, _, hin⟩ := hcopies i sc' hi'
    obtain rfl := Option.some.inj (hi.symm.trans h0)
    have hsc := hwf' sc' (List.mem_of_getElem? hi')
    exact ⟨ha, hin, hsc.closed, hsc.nodup⟩
  · intro x hx
    obtain ⟨k, hk, _, rfl⟩ := hnew.2 x hx
    have hold : ∀ sc ∈ src.scombs, nextVar k ∉ sc.argnames ++ sc.body.binders := fun sc hsc hm =>
      (hwf sc hsc).old _ hm k hk rfl
    refine ⟨fun hm => ?_, fun sc hsc hm => hold sc hsc (List.mem_append_left _ hm)⟩
    obtain ⟨sc, hsc, hm⟩ := List.mem_flatMap.mp hm
    exact hold sc hsc (List.mem_append_right _ hm)

/-- `f x = (+ x 1)` and `main = (f (f 2))`. -/
def nestedCalls : Source where
  scombs := [
    { name := "f", argnames := ["x"],
      body := .application (.application (.builtin .add) (.symbol "x") false) (.number 1) false },
    { name := "main", argnames := [],
      body := .application (.scref 0) (.application (.scref 0) (.number 2) false) false }]
  varno := 0

theorem nestedCalls_wf : nestedCalls.WF := by
  have hx : Old nestedCalls.varno "x" := by
    intro k _ h
    have := congrArg String.toList h
    simp [nextVar] at this
  intro sc hsc
  simp only [nestedCalls, List.mem_cons, List.not_mem_nil, or_false] at hsc
  rcases hsc with rfl | rfl
  · exact ⟨by simp [Scomb.Closed, Snode.free], by simp [Snode.binders],
      by simpa [Snode.binders] using hx⟩
  · exact ⟨by simp [Scomb.Closed, Snode.free], by simp [Snode.binders], by simp [Snode.binders]⟩

theorem inlining_nestedCalls : ∃ src', inlining 3 nestedCalls = some src' ∧
    src'.scombs.length = 2 ∧
    ∀ (K : Type) (I : Interp K) (i : Nat),
      progEnv I src'.scombs (.sc i) = progEnv I nestedCalls.scombs (.sc i) := by
  obtain ⟨src', h⟩ : ∃ src', inlining 3 nestedCalls = some src' :=
    Option.isSome_iff_exists.mp (by decide)
  refine ⟨src', h, ?_, fun K I i => (inlining_correct I nestedCalls_wf h).1 i⟩
  exact (inlining_correct (K := Unit) ⟨fun _ => ∅, fun _ => ∅, fun _ => ∅, ∅⟩ nestedCalls_wf h).2.1

end Compiler
end NReduce
