import NReduce.Compiler.Program
import NReduce.Compiler.Renaming
import Mathlib.Data.List.Nodup

/-!
# NReduce.Compiler.RenameDenote

A uniform renaming that is injective on the names of a tree does not change its value. The copy
that `copy_scomb_body` makes of a body is such a renaming (`copyScombBody_spec`).
-/

namespace NReduce
namespace Compiler

open Domain

/-- The renaming of variables, on keys. -/
def Key.map (f : String → String) : Key → Key
  | .var x => .var (f x)
  | .sc i => .sc i

/-- The names that occur in a tree: its free symbols and its binders. -/
def Snode.Occurs (e : Snode) (x : String) : Prop := x ∈ e.free ∨ x ∈ e.binders

def Letrec.Occurs (bs : Letrec) (x : String) : Prop := x ∈ bs.free ∨ x ∈ bs.binders

theorem Key.map_eq_var {f : String → String} {k : Key} {x : String}
    (hinj : ∀ y, k = .var y → f y = f x → y = x) (h : k ≠ .var x) : k.map f ≠ .var (f x) := by
  cases k with
  | sc i => simp [Key.map]
  | var y =>
    intro he
    simp only [Key.map, Key.var.injEq] at he
    exact h (by rw [hinj y rfl he])

variable {K : Type} (I : Interp K)

mutual

theorem denote_rename (f : String → String) : ∀ (e : Snode) {ρ ρ' : Env Key K},
    (∀ x y, e.Occurs x → e.Occurs y → f x = f y → x = y) →
    (∀ k, e.uses k → ρ k = ρ' (k.map f)) → denote I (e.rename f) ρ' = denote I e ρ
  | .application l r s, ρ, ρ', hinj, h => by
    simp only [Snode.rename, denote]
    have hl : ∀ x, l.Occurs x → (Snode.application l r s).Occurs x := by
      intro x hx
      rcases hx with hx | hx
      · exact Or.inl (by simp [Snode.free, hx])
      · exact Or.inr (by simp [Snode.binders, hx])
    have hr : ∀ x, r.Occurs x → (Snode.application l r s).Occurs x := by
      intro x hx
      rcases hx with hx | hx
      · exact Or.inl (by simp [Snode.free, hx])
      · exact Or.inr (by simp [Snode.binders, hx])
    rw [denote_rename f l (fun x y hx hy => hinj x y (hl x hx) (hl y hy))
        (fun k hk => h k ((uses_application l r s k).mpr (Or.inl hk))),
      denote_rename f r (fun x y hx hy => hinj x y (hr x hx) (hr y hy))
        (fun k hk => h k ((uses_application l r s k).mpr (Or.inr hk)))]
  | .lambda y b, ρ, ρ', hinj, h => by
    simp only [Snode.rename, denote]
    have hy : (Snode.lambda y b).Occurs y := Or.inr (by simp [Snode.binders])
    have hb : ∀ x, b.Occurs x → (Snode.lambda y b).Occurs x := by
      intro x hx
      by_cases hxy : x = y
      · subst hxy; exact hy
      · rcases hx with hx | hx
        · exact Or.inl (by simp [Snode.free, hx, hxy])
        · exact Or.inr (by simp [Snode.binders, hx])
    congr 1
    funext a
    apply denote_rename f b (fun x z hx hz => hinj x z (hb x hx) (hb z hz))
    intro k hk
    by_cases hky : k = .var y
    · subst hky
      simp [Key.map]
    · have hmap : k.map f ≠ .var (f y) := by
        apply Key.map_eq_var _ hky
        rintro z rfl hz
        exact hinj z y (hb z (Or.inl hk)) hy hz
      rw [Function.update_of_ne hky, Function.update_of_ne hmap]
      apply h
      cases k with
      | sc i => simpa [Snode.uses, Snode.screfs] using hk
      | var z => simpa [Snode.uses, Snode.free] using ⟨hk, fun e => hky (e ▸ rfl)⟩
  | .letrec bs b, ρ, ρ', hinj, h => by
    simp only [Snode.rename, denote]
    have hname : ∀ x ∈ bs.names, (Snode.letrec bs b).Occurs x := fun x hx =>
      Or.inr (by simp [Snode.binders, (bs.mem_binders x).mpr (Or.inl hx)])
    have hocc : ∀ x, bs.Occurs x ∨ b.Occurs x → (Snode.letrec bs b).Occurs x := by
      intro x hx
      by_cases hxn : x ∈ bs.names
      · exact hname x hxn
      · rcases hx with (hx | hx) | (hx | hx)
        · exact Or.inl (by simp [Snode.free, hx, hxn])
        · exact Or.inr (by simp [Snode.binders, hx])
        · exact Or.inl (by simp [Snode.free, hx, hxn])
        · exact Or.inr (by simp [Snode.binders, hx])
    have hS : ∀ k, bs.uses k ∨ b.uses k → ∀ x, k = .var x → (Snode.letrec bs b).Occurs x := by
      rintro k hk x rfl
      rcases hk with hk | hk
      · exact hocc x (Or.inl (Or.inl hk))
      · exact hocc x (Or.inr (Or.inl hk))
    apply denote_rename f b (fun x z hx hz => hinj x z (hocc x (Or.inr hx)) (hocc z (Or.inr hz)))
    intro k hk
    refine fixEnv_map (defs_finitary I bs) (defs_finitary I _) {k | bs.uses k ∨ b.uses k}
      (Key.map f) ?_ ?_ k (Or.inr hk)
    · intro k1 h1 k2 h2 he
      cases k1 with
      | sc i =>
        cases k2 with
        | sc j => simpa [Key.map] using he
        | var z => simp [Key.map] at he
      | var x =>
        cases k2 with
        | sc j => simp [Key.map] at he
        | var z =>
          simp only [Key.map, Key.var.injEq] at he ⊢
          exact hinj x z (hS _ h1 x rfl) (hS _ h2 z rfl) he
    · intro σ σ' hσ x hx
      rcases defs_rename f bs x (fun y hy z hz => hinj y z (hS x hx y hy) (hname z hz))
          (fun y z hy hz => hinj y z (hocc y (Or.inl hy)) (hocc z (Or.inl hz))) with
        ⟨h1, h2⟩ | ⟨F, F', h1, h2, hF⟩
      · rw [Defs.step_none h1, Defs.step_none h2]
        exact h x ((uses_letrec I bs b x hx).resolve_left (fun hn => hn h1))
      · rw [Defs.step_some h1, Defs.step_some h2]
        exact (hF σ σ' (fun k hk => hσ k (Or.inl hk))).symm
  | .symbol x, ρ, ρ', _, h => by
    simp only [Snode.rename, denote]
    exact (h (.var x) (by simp [Snode.uses, Snode.free])).symm
  | .scref i, ρ, ρ', _, h => by
    simp only [Snode.rename, denote]
    exact (h (.sc i) (by simp [Snode.uses, Snode.screfs])).symm
  | .builtin b, _, _, _, _ => by simp only [Snode.rename, denote]
  | .nil, _, _, _, _ => by simp only [Snode.rename, denote]
  | .number d, _, _, _, _ => by simp only [Snode.rename, denote]
  | .string s, _, _, _, _ => by simp only [Snode.rename, denote]

/-- The bindings of the renamed letrec, key by key. -/
theorem defs_rename (f : String → String) : ∀ (bs : Letrec) (k : Key),
    (∀ y, k = .var y → ∀ z ∈ bs.names, f y = f z → y = z) →
    (∀ y z, bs.Occurs y → bs.Occurs z → f y = f z → y = z) →
    (defs I bs k = none ∧ defs I (bs.rename f) (k.map f) = none) ∨
      ∃ F F', defs I bs k = some F ∧ defs I (bs.rename f) (k.map f) = some F' ∧
        ∀ σ σ' : Env Key K, (∀ k, bs.uses k → σ k = σ' (k.map f)) → F' σ' = F σ
  | .done, k, _, _ => Or.inl ⟨rfl, rfl⟩
  | .bind y v s next, k, hk, hinj => by
    have hv : ∀ x, v.Occurs x → (Letrec.bind y v s next).Occurs x := by
      intro x hx
      rcases hx with hx | hx
      · exact Or.inl (by simp [Letrec.free, hx])
      · exact Or.inr (by simp [Letrec.binders, hx])
    have hnext : ∀ x, next.Occurs x → (Letrec.bind y v s next).Occurs x := by
      intro x hx
      rcases hx with hx | hx
      · exact Or.inl (by simp [Letrec.free, hx])
      · exact Or.inr (by simp [Letrec.binders, hx])
    simp only [Letrec.rename, defs]
    by_cases hky : k = .var y
    · subst hky
      refine Or.inr ⟨denote I v, denote I (v.rename f), by simp, by simp [Key.map], ?_⟩
      intro σ σ' hσ
      exact denote_rename f v (fun x z hx hz => hinj x z (hv x hx) (hv z hz))
        (fun k hk => hσ k ((uses_bind y v s next k).mpr (Or.inl hk)))
    · have hmap : k.map f ≠ .var (f y) := Key.map_eq_var
        (fun z hz he => hk z hz y (by simp [Letrec.names]) he) hky
      rw [if_neg hky, if_neg hmap]
      rcases defs_rename f next k
          (fun z hz w hw => hk z hz w (by simp [Letrec.names, hw]))
          (fun x z hx hz => hinj x z (hnext x hx) (hnext z hz)) with hn | ⟨F, F', h1, h2, hF⟩
      · exact Or.inl hn
      · exact Or.inr ⟨F, F', h1, h2, fun σ σ' hσ =>
          hF σ σ' (fun k hk => hσ k ((uses_bind y v s next k).mpr (Or.inr hk)))⟩

end

/-! ## Names of a renamed tree -/

mutual

theorem Snode.binders_rename (f : String → String) : ∀ e : Snode,
    (e.rename f).binders = e.binders.map f
  | .application l r s => by
    simp [Snode.rename, Snode.binders, Snode.binders_rename f l, Snode.binders_rename f r]
  | .lambda x b => by simp [Snode.rename, Snode.binders, Snode.binders_rename f b]
  | .letrec bs b => by
    simp [Snode.rename, Snode.binders, Letrec.binders_rename f bs, Snode.binders_rename f b]
  | .builtin _ | .symbol _ | .scref _ | .nil | .number _ | .string _ => by
    simp [Snode.rename, Snode.binders]

theorem Letrec.binders_rename (f : String → String) : ∀ bs : Letrec,
    (bs.rename f).binders = bs.binders.map f
  | .done => rfl
  | .bind x v s next => by
    simp [Letrec.rename, Letrec.binders, Snode.binders_rename f v, Letrec.binders_rename f next]

end

theorem Letrec.names_rename (f : String → String) : ∀ bs : Letrec,
    (bs.rename f).names = bs.names.map f
  | .done => rfl
  | .bind x v s next => by simp [Letrec.rename, Letrec.names, Letrec.names_rename f next]

mutual

theorem Snode.free_rename (f : String → String) : ∀ (e : Snode) (y : String),
    y ∈ (e.rename f).free → ∃ x ∈ e.free, f x = y
  | .application l r s, y, h => by
    simp only [Snode.rename, Snode.free, List.mem_append] at h ⊢
    rcases h with h | h
    · obtain ⟨x, hx, rfl⟩ := Snode.free_rename f l y h
      exact ⟨x, Or.inl hx, rfl⟩
    · obtain ⟨x, hx, rfl⟩ := Snode.free_rename f r y h
      exact ⟨x, Or.inr hx, rfl⟩
  | .lambda z b, y, h => by
    simp only [Snode.rename, Snode.free, List.mem_filter, decide_eq_true_eq] at h ⊢
    obtain ⟨x, hx, rfl⟩ := Snode.free_rename f b y h.1
    exact ⟨x, ⟨hx, fun e => h.2 (e ▸ rfl)⟩, rfl⟩
  | .letrec bs b, y, h => by
    simp only [Snode.rename, Snode.free, List.mem_filter, List.mem_append,
      decide_eq_true_eq, Letrec.names_rename] at h ⊢
    obtain ⟨h, hn⟩ := h
    have hnames : ∀ x, f x = y → x ∉ bs.names := fun x hx hm =>
      hn (hx ▸ List.mem_map_of_mem hm)
    rcases h with h | h
    · obtain ⟨x, hx, he⟩ := Letrec.free_rename f bs y h
      exact ⟨x, ⟨Or.inl hx, hnames x he⟩, he⟩
    · obtain ⟨x, hx, he⟩ := Snode.free_rename f b y h
      exact ⟨x, ⟨Or.inr hx, hnames x he⟩, he⟩
  | .symbol x, y, h => by
    simp only [Snode.rename, Snode.free, List.mem_singleton] at h
    exact ⟨x, by simp [Snode.free], h.symm⟩
  | .builtin _, _, h => by simp [Snode.rename, Snode.free] at h
  | .scref _, _, h => by simp [Snode.rename, Snode.free] at h
  | .nil, _, h => by simp [Snode.rename, Snode.free] at h
  | .number _, _, h => by simp [Snode.rename, Snode.free] at h
  | .string _, _, h => by simp [Snode.rename, Snode.free] at h

theorem Letrec.free_rename (f : String → String) : ∀ (bs : Letrec) (y : String),
    y ∈ (bs.rename f).free → ∃ x ∈ bs.free, f x = y
  | .done, _, h => by simp [Letrec.rename, Letrec.free] at h
  | .bind z v s next, y, h => by
    simp only [Letrec.rename, Letrec.free, List.mem_append] at h ⊢
    rcases h with h | h
    · obtain ⟨x, hx, rfl⟩ := Snode.free_rename f v y h
      exact ⟨x, Or.inl hx, rfl⟩
    · obtain ⟨x, hx, rfl⟩ := Letrec.free_rename f next y h
      exact ⟨x, Or.inr hx, rfl⟩

end

/-! ## Copies of bodies -/

/-- What the passes keep of every supercombinator: its body is closed, its arguments and binders
are distinct, and none of them is a name that `next_var` still has to give out. -/
structure Scomb.WF (n : Nat) (sc : Scomb) : Prop where
  closed : sc.Closed
  nodup : (sc.argnames ++ sc.body.binders).Nodup
  old : ∀ x ∈ sc.argnames ++ sc.body.binders, Old n x

def Source.WF (src : Source) : Prop := ∀ sc ∈ src.scombs, sc.WF src.varno

/-- `copy_scomb_body` -/
def copyScombBody (n : Nat) (sc : Scomb) (newargnames : List String) : Snode × Nat :=
  renameScBodyVariables n sc.body sc.argnames newargnames

theorem renSym_append (μ : Mappings) (a b x : String) :
    renSym (μ ++ [(a, b)]) x = if a = renSym μ x then b else renSym μ x := by
  rw [renSym, List.foldl_append]
  rfl

/-- The mappings of the arguments send each argument to its new name. -/
theorem renSym_args {n : Nat} : ∀ (xs ys : List String), xs.length = ys.length → xs.Nodup →
    (∀ x ∈ xs, Old n x) → (∀ y ∈ ys, ∃ k, n ≤ k ∧ y = nextVar k) →
    xs.map (renSym (xs.zip ys).reverse) = ys ∧
      ∀ x, x ∉ xs → renSym (xs.zip ys).reverse x = x
  | [], [], _, _, _, _ => by simp [renSym]
  | x :: xs, y :: ys, hl, hnd, hold, hnew => by
    rw [List.nodup_cons] at hnd
    obtain ⟨ih1, ih2⟩ := renSym_args xs ys (by simpa using hl) hnd.2
      (fun z hz => hold z (List.mem_cons_of_mem _ hz))
      (fun z hz => hnew z (List.mem_cons_of_mem _ hz))
    have hx : ∀ z ∈ ys, x ≠ z := by
      intro z hz
      obtain ⟨k, hk, rfl⟩ := hnew z (List.mem_cons_of_mem _ hz)
      exact hold x List.mem_cons_self k hk
    simp only [List.zip_cons_cons, List.reverse_cons, List.map_cons, renSym_append]
    refine ⟨?_, ?_⟩
    · rw [ih2 x hnd.1, if_pos rfl]
      congr 1
      conv_rhs => rw [← ih1]
      apply List.map_congr_left
      intro z hz
      rw [renSym_append]
      have hm := List.mem_map_of_mem (f := renSym (xs.zip ys).reverse) hz
      rw [ih1] at hm
      exact if_neg (hx _ hm)
    · intro z hz
      rw [List.mem_cons, not_or] at hz
      rw [ih2 z hz.2, if_neg (Ne.symm hz.1)]

/-- A copy of a body: one renaming `f` for the whole body takes the arguments to the names asked
for and the binders to names from the counter. -/
theorem copyScombBody_spec {n0 n : Nat} {sc : Scomb} (ys : List String) (hwf : sc.WF n0)
    (hn : n0 ≤ n) (hlen : ys.length = sc.nargs) (hys : ys.Nodup)
    (hfresh : ∀ y ∈ ys, ∃ k, n0 ≤ k ∧ k < n ∧ y = nextVar k) :
    ∃ f, (copyScombBody n sc ys).1 = sc.body.rename f ∧ sc.argnames.map f = ys ∧
      (∀ x ∈ sc.body.binders, ∃ k, n ≤ k ∧ k < (copyScombBody n sc ys).2 ∧ f x = nextVar k) ∧
      ((sc.argnames ++ sc.body.binders).map f).Nodup ∧ n ≤ (copyScombBody n sc ys).2 := by
  have hnd := hwf.nodup
  rw [List.nodup_append] at hnd
  obtain ⟨hargs, _⟩ := renSym_args sc.argnames ys (by simpa [Scomb.nargs] using hlen.symm) hnd.1
    (fun x hx => hwf.old x (List.mem_append_left _ hx))
    (fun y hy => let ⟨k, h1, _, h3⟩ := hfresh y hy; ⟨k, h1, h3⟩)
  have hμ : MapOld n0 (sc.argnames.zip ys).reverse := by
    intro m hm
    have := (List.of_mem_zip (List.mem_reverse.mp hm)).1
    exact hwf.old _ (List.mem_append_left _ this)
  have hdis : sc.body.Distinct :=
    ⟨hnd.2.1, fun x hx hb => hnd.2.2 x (hwf.closed x hx) x hb rfl⟩
  obtain ⟨g, hg, hnum⟩ := renameVariablesR_spec sc.body n _ hn hμ hdis
    (fun x hx => hwf.old x (List.mem_append_right _ hx))
  have hmap : sc.argnames.map (renFun sc.body.binders g (sc.argnames.zip ys).reverse) = ys := by
    conv_rhs => rw [← hargs]
    apply List.map_congr_left
    intro x hx
    exact renFun_not_mem (fun hb => hnd.2.2 x hx x hb rfl)
  refine ⟨_, hg, hmap, ?_, ?_, hnum.le⟩
  · intro x hx
    obtain ⟨h1, h2⟩ := hnum.range x hx
    exact ⟨g x, h1, h2, renFun_mem hx⟩
  · rw [List.map_append, hmap, List.nodup_append]
    refine ⟨hys, ?_, ?_⟩
    · apply List.Nodup.map_on _ hnd.2.1
      intro x hx y hy he
      rw [renFun_mem hx, renFun_mem hy] at he
      exact hnum.inj x hx y hy (nextVar_inj he)
    · rintro y hy z hz rfl
      obtain ⟨x, hx, rfl⟩ := List.mem_map.mp hz
      rw [renFun_mem hx] at hy
      obtain ⟨k, _, hk, he⟩ := hfresh _ hy
      have := nextVar_inj he
      have := hnum.range x hx
      omega

end Compiler
end NReduce
