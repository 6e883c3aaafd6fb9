import NReduce.Compiler.Reorder
import Mathlib.Data.List.Nodup
import Mathlib.Algebra.Order.BigOperators.Group.Finset

/-!
# NReduce.Compiler.ReorderOrder

The order that `reorder_letrecs` gives to the bindings of a letrec.

* `reorderLetrecsR_spec`: the pass walks the variables depth first, in the sense of `Walk`.
* `reorderLetrecs_forward_iff`: the letrecs whose bindings come after those that they use.
-/

namespace NReduce
namespace Compiler

open Logic Logic.DepthFirst

/-! ## Lists of bindings -/

theorem Letrec.map_fst_pairs (bs : Letrec) : bs.pairs.map Prod.fst = bs.names := by
  fun_induction Letrec.pairs bs with
  | case1 => rfl
  | case2 x v s next ih => rw [List.map_cons, ih, Letrec.names]

theorem Letrec.mem_names {bs : Letrec} {x : String} : x ∈ bs.names ↔ ∃ v, (x, v) ∈ bs.pairs := by
  rw [← bs.map_fst_pairs, List.mem_map]
  exact ⟨fun ⟨p, hp, hx⟩ => ⟨p.2, hx ▸ hp⟩, fun ⟨v, hv⟩ => ⟨(x, v), hv, rfl⟩⟩

theorem Letrec.find_none : ∀ {bs : Letrec} {x : String}, bs.find x = none ↔ x ∉ bs.names
  | .done, x => by simp [Letrec.find, Letrec.names]
  | .bind y v s next, x => by
    by_cases h : y = x
    · simp [Letrec.find, Letrec.names, h]
    · simp [Letrec.find, Letrec.names, h, Ne.symm h, find_none]

theorem Letrec.find_some : ∀ {bs : Letrec} {x : String} {v : Snode}, bs.find x = some v →
    (x, v) ∈ bs.pairs
  | .bind y w s next, x, v, h => by
    rw [Letrec.find] at h
    split at h
    · rename_i hy
      obtain rfl := Option.some.inj h
      exact hy ▸ List.mem_cons_self
    · exact List.mem_cons_of_mem _ (find_some h)

theorem Letrec.names_assign : ∀ (bs : Letrec) (x : String) (v : Snode),
    (bs.assign x v).names = bs.names
  | .done, _, _ => rfl
  | .bind y w s next, x, v => by
    rw [Letrec.assign]
    split
    · rfl
    · exact congrArg (y :: ·) (names_assign next x v)

theorem Letrec.mem_pairs_assign : ∀ {bs : Letrec} {x : String} {v : Snode} {p : String × Snode},
    bs.names.Nodup → (p ∈ (bs.assign x v).pairs ↔
      p.1 ≠ x ∧ p ∈ bs.pairs ∨ p = (x, v) ∧ x ∈ bs.names)
  | .done, x, v, p, _ => by simp [Letrec.assign, Letrec.pairs, Letrec.names]
  | .bind y w s next, x, v, p, h => by
    obtain ⟨hy, hnext⟩ := List.nodup_cons.mp h
    rw [Letrec.assign]
    split
    · rename_i hyx
      subst hyx
      have hp : p ∈ next.pairs → p.1 ≠ y := fun hp he => hy (Letrec.mem_names.mpr ⟨p.2, he ▸ hp⟩)
      simp only [Letrec.pairs, Letrec.names, List.mem_cons, true_or, and_true]
      constructor
      · rintro (h | h)
        · exact .inr h
        · exact .inl ⟨hp h, .inr h⟩
      · rintro (⟨hne, rfl | h⟩ | h)
        · exact absurd rfl hne
        · exact .inr h
        · exact .inl h
    · rename_i hyx
      simp only [Letrec.pairs, Letrec.names, List.mem_cons, mem_pairs_assign hnext, Ne.symm hyx,
        false_or]
      constructor
      · rintro (rfl | ⟨hne, h⟩ | h)
        · exact .inl ⟨hyx, .inl rfl⟩
        · exact .inl ⟨hne, .inr h⟩
        · exact .inr h
      · rintro (⟨hne, rfl | h⟩ | h)
        · exact .inl rfl
        · exact .inr (.inl ⟨hne, h⟩)
        · exact .inr (.inr h)

/-- The names of the bindings on the stack -/
def scope (bound : List Letrec) : List String := bound.flatMap Letrec.names

/-- The bindings on the stack -/
def env (bound : List Letrec) : List (String × Snode) := bound.flatMap Letrec.pairs

theorem mem_scope {bound : List Letrec} {x : String} :
    x ∈ scope bound ↔ ∃ v, (x, v) ∈ env bound := by
  simp only [scope, env, List.mem_flatMap, Letrec.mem_names]
  tauto

theorem scope_congr {bound bound' : List Letrec}
    (h : bound'.map Letrec.names = bound.map Letrec.names) : scope bound' = scope bound := by
  rw [scope, scope, List.flatMap_def, List.flatMap_def, h]

theorem findBound_none {bound : List Letrec} {x : String} :
    findBound bound x = none ↔ x ∉ scope bound := by
  induction bound with
  | nil => simp [findBound, scope]
  | cons bs bound ih =>
    rw [findBound, scope, List.flatMap_cons, List.mem_append, not_or, ← Letrec.find_none]
    cases h : bs.find x with
    | none => exact ih.trans ⟨fun h => ⟨rfl, h⟩, fun h => h.2⟩
    | some v => simp

theorem findBound_some {bound : List Letrec} {x : String} {v : Snode}
    (h : findBound bound x = some v) : (x, v) ∈ env bound := by
  induction bound with
  | nil => cases h
  | cons bs bound ih =>
    rw [env, List.flatMap_cons, List.mem_append]
    rw [findBound] at h
    split at h
    · rename_i w hw
      obtain rfl := Option.some.inj h
      exact .inl (Letrec.find_some hw)
    · exact .inr (ih h)

theorem map_names_assignBound (bound : List Letrec) (x : String) (v : Snode) :
    (assignBound bound x v).map Letrec.names = bound.map Letrec.names := by
  induction bound with
  | nil => rfl
  | cons bs bound ih =>
    rw [assignBound]
    split
    · rw [List.map_cons, List.map_cons, Letrec.names_assign]
    · rw [List.map_cons, List.map_cons, ih]

theorem mem_env_assignBound {bound : List Letrec} {x : String} {v : Snode} {p : String × Snode}
    (h : (scope bound).Nodup) : p ∈ env (assignBound bound x v) ↔
      p.1 ≠ x ∧ p ∈ env bound ∨ p = (x, v) ∧ x ∈ scope bound := by
  induction bound with
  | nil => simp [assignBound, env, scope]
  | cons bs bound ih =>
    rw [scope, List.flatMap_cons, List.nodup_append] at h
    obtain ⟨hbs, hbound, hdisj⟩ := h
    have henv : ∀ l, env (l :: bound) = l.pairs ++ env bound := fun _ => rfl
    have hscope : scope (bs :: bound) = bs.names ++ scope bound := rfl
    rw [hscope, henv, List.mem_append, List.mem_append, assignBound]
    split
    · rename_i hx
      rw [henv, List.mem_append, Letrec.mem_pairs_assign hbs]
      have : p ∈ env bound → p.1 ≠ x := fun hp he =>
        hdisj x hx p.1 (mem_scope.mpr ⟨p.2, hp⟩) he.symm
      tauto
    · rename_i hx
      have : p ∈ bs.pairs → p.1 ≠ x := fun hp he => hx (Letrec.mem_names.mpr ⟨p.2, he ▸ hp⟩)
      rw [show env (bs :: assignBound bound x v) = bs.pairs ++ env (assignBound bound x v) from rfl,
        List.mem_append, ih hbound]
      tauto

theorem Letrec.take_none : ∀ {bs : Letrec} {x : String}, bs.take x = none ↔ x ∉ bs.names
  | .done, x => by simp [Letrec.take, Letrec.names]
  | .bind y v s next, x => by
    by_cases h : y = x
    · simp [Letrec.take, Letrec.names, h]
    · simp [Letrec.take, Letrec.names, h, Ne.symm h, take_none]

theorem Letrec.take_some : ∀ {bs rest : Letrec} {x : String} {b : Snode × Bool},
    bs.take x = some (b, rest) → bs.pairs.Perm ((x, b.1) :: rest.pairs)
  | .bind y v s next, rest, x, b, h => by
    rw [Letrec.take] at h
    split at h
    · rename_i hy
      obtain ⟨rfl, rfl⟩ := Prod.mk.inj (Option.some.inj h)
      exact hy ▸ List.Perm.refl _
    · obtain ⟨⟨b', rest'⟩, ht, he⟩ := Option.map_eq_some_iff.mp h
      obtain ⟨rfl, rfl⟩ := Prod.mk.inj he
      exact ((take_some ht).cons _).trans (List.Perm.swap _ _ _)

/-- `relink` takes the used names, and leaves the others. -/
theorem relink_spec {used : List String} : ∀ {bs : Letrec}, used.Nodup → bs.names.Nodup →
    (relink used bs).1.names = used.filter (· ∈ bs.names) ∧
      (relink used bs).2 = used.filter (· ∉ bs.names) ∧ (relink used bs).1.pairs ⊆ bs.pairs := by
  induction used with
  | nil => exact fun _ _ => ⟨rfl, rfl, List.nil_subset _⟩
  | cons x used ih =>
    intro bs hu hbs
    obtain ⟨hx, hu⟩ := List.nodup_cons.mp hu
    rw [relink]
    split
    · rename_i v s rest ht
      have hperm := Letrec.take_some ht
      have hnames : bs.names.Perm (x :: rest.names) := by
        simpa [Letrec.map_fst_pairs] using hperm.map Prod.fst
      have hmem : x ∈ bs.names := hnames.mem_iff.mpr List.mem_cons_self
      obtain ⟨h1, h2, h3⟩ := ih hu (List.nodup_cons.mp (hnames.nodup_iff.mp hbs)).2
      have hrest : ∀ y ∈ used, y ∈ rest.names ↔ y ∈ bs.names := by
        intro y hy
        rw [hnames.mem_iff, List.mem_cons, or_iff_right]
        rintro rfl
        exact hx hy
      refine ⟨?_, ?_, ?_⟩
      · rw [List.filter_cons_of_pos (by simpa using hmem), Letrec.names, h1]
        exact congrArg (x :: ·) (List.filter_congr fun y hy => by rw [decide_eq_decide, hrest y hy])
      · rw [List.filter_cons_of_neg (by simpa using hmem)]
        refine h2.trans (List.filter_congr fun y hy => ?_)
        rw [decide_eq_decide, hrest y hy]
      · refine List.cons_subset.mpr ⟨hperm.mem_iff.mpr List.mem_cons_self, fun p hp => ?_⟩
        exact hperm.mem_iff.mpr (List.mem_cons_of_mem _ (h3 hp))
    · rename_i ht
      have hmem := Letrec.take_none.mp ht
      obtain ⟨h1, h2, h3⟩ := ih hu hbs
      refine ⟨?_, ?_, h3⟩
      · rw [List.filter_cons_of_neg (by simpa using hmem), h1]
      · rw [List.filter_cons_of_pos (by simpa using hmem)]
        exact congrArg (x :: ·) h2

theorem Letrec.forward_iff : ∀ {bs : Letrec}, bs.names.Nodup → (bs.Forward ↔
    ∀ x v, (x, v) ∈ bs.pairs → ∀ y ∈ v.free, y ∈ bs.names → y ≠ x ∧ ¬ Earlier y x bs.names)
  | .done, _ => by simp [Letrec.Forward, Letrec.pairs]
  | .bind x v s next, h => by
    obtain ⟨hx, hnext⟩ := List.nodup_cons.mp h
    rw [Letrec.Forward, forward_iff hnext]
    constructor
    · rintro ⟨hv, hrest⟩ z w hzw y hy hyn
      obtain he | hzw := List.mem_cons.mp hzw
      · obtain ⟨rfl, rfl⟩ := Prod.mk.inj he
        exact absurd hyn (List.not_mem_cons_of_ne_of_not_mem (hv y hy).1 (hv y hy).2)
      · have hz : z ∈ next.names := Letrec.mem_names.mpr ⟨w, hzw⟩
        obtain rfl | hyn := List.mem_cons.mp hyn
        · refine ⟨fun he => hx (he ▸ hz), ?_⟩
          rintro (he | ⟨-, hzn⟩)
          · exact hx he.mem
          · exact hzn hz
        · obtain ⟨hne, hlate⟩ := hrest z w hzw y hy hyn
          refine ⟨hne, ?_⟩
          rintro (he | ⟨rfl, -⟩)
          · exact hlate he
          · exact hx hyn
    · intro hall
      refine ⟨fun y hy => ⟨?_, fun hyn => ?_⟩, fun z w hzw y hy hyn => ?_⟩
      · rintro rfl
        exact (hall y v List.mem_cons_self y hy List.mem_cons_self).1 rfl
      · refine (hall x v List.mem_cons_self y hy (List.mem_cons_of_mem _ hyn)).2 (.inl ?_)
        exact earlier_of_not_mem hyn hx
      · have := hall z w (List.mem_cons_of_mem _ hzw) y hy (List.mem_cons_of_mem _ hyn)
        exact ⟨this.1, fun he => this.2 (.inl he)⟩

/-! ## Names and their places -/

theorem Letrec.pairs_subset_lets (bs : Letrec) : bs.pairs ⊆ bs.lets := by
  fun_induction Letrec.pairs bs with
  | case1 => exact List.nil_subset _
  | case2 x v s next ih =>
    rw [Letrec.lets]
    exact List.cons_subset_cons _ (List.subset_append_of_subset_right _ ih)

theorem Letrec.lets_value : ∀ {bs : Letrec} {x : String} {v : Snode}, (x, v) ∈ bs.pairs →
    v.lets ⊆ bs.lets ∧ v.letrecs ⊆ bs.letrecs ∧ v.free ⊆ bs.free ∧ v.binders ⊆ bs.inner ∧
      (bs.lambdaFree = true → v.lambdaFree = true) ∧ (bs.Distinct → v.Distinct)
  | .bind y w s next, x, v, h => by
    obtain h | h := List.mem_cons.mp h
    · obtain ⟨rfl, rfl⟩ := Prod.mk.inj h
      refine ⟨?_, ?_, ?_, ?_, ?_, Letrec.Distinct.value⟩
      · exact List.subset_cons_of_subset _ (List.subset_append_left _ _)
      · exact List.subset_append_left _ _
      · exact List.subset_append_left _ _
      · exact List.subset_append_left _ _
      · exact fun h => (Bool.and_eq_true_iff.mp h).1
    · obtain ⟨h1, h2, h3, h4, h5, h6⟩ := lets_value h
      refine ⟨?_, ?_, ?_, ?_, ?_, fun hd => h6 hd.next⟩
      · exact List.subset_cons_of_subset _ (List.subset_append_of_subset_right _ h1)
      · exact List.subset_append_of_subset_right _ h2
      · exact List.subset_append_of_subset_right _ h3
      · exact List.subset_append_of_subset_right _ h4
      · exact fun h => h5 (Bool.and_eq_true_iff.mp h).2

/-- The values of different bindings bind different names. -/
theorem Letrec.inner_apart : ∀ {bs : Letrec} {p q : String × Snode}, bs.inner.Nodup →
    p ∈ bs.pairs → q ∈ bs.pairs → p.1 ≠ q.1 → ∀ y ∈ p.2.binders, y ∉ q.2.binders
  | .bind x v s next, p, q, h, hp, hq, hpq, y, hy, hyq => by
    rw [Letrec.inner, List.nodup_append] at h
    obtain rfl | hp := List.mem_cons.mp hp <;> obtain rfl | hq := List.mem_cons.mp hq
    · exact hpq rfl
    · exact h.2.2 y hy y ((Letrec.lets_value hq).2.2.2.1 hyq) rfl
    · exact h.2.2 y hyq y ((Letrec.lets_value hp).2.2.2.1 hy) rfl
    · exact inner_apart h.2.1 hp hq hpq y hy hyq

mutual

theorem Snode.map_fst_lets : ∀ {c : Snode}, c.lambdaFree = true → c.lets.map Prod.fst = c.binders
  | .application l r _, h => by
    obtain ⟨hl, hr⟩ := Bool.and_eq_true_iff.mp h
    rw [Snode.lets, List.map_append, l.map_fst_lets hl, r.map_fst_lets hr, Snode.binders]
  | .lambda _ _, h => by cases h
  | .letrec bs b, h => by
    obtain ⟨hbs, hb⟩ := Bool.and_eq_true_iff.mp h
    rw [Snode.lets, List.map_append, bs.map_fst_lets hbs, b.map_fst_lets hb, Snode.binders]
  | .builtin _, _ | .symbol _, _ | .scref _, _ | .nil, _ | .number _, _ | .string _, _ => rfl

theorem Letrec.map_fst_lets : ∀ {bs : Letrec}, bs.lambdaFree = true →
    bs.lets.map Prod.fst = bs.binders
  | .done, _ => rfl
  | .bind x v _ next, h => by
    obtain ⟨hv, hnext⟩ := Bool.and_eq_true_iff.mp h
    rw [Letrec.lets, List.map_cons, List.map_append, v.map_fst_lets hv, next.map_fst_lets hnext,
      Letrec.binders]

end

theorem Snode.symbols_subset : ∀ (c : Snode), ∀ y ∈ c.symbols, y ∈ c.free ∨ y ∈ c.binders
  | .application l r _, y, h => by
    simp only [Snode.symbols, Snode.free, Snode.binders, List.mem_append] at h ⊢
    have hl := l.symbols_subset y
    have hr := r.symbols_subset y
    tauto
  | .symbol x, y, h => .inl h
  | .letrec bs b, y, h => by
    simp only [Snode.free, Snode.binders, List.mem_append, List.mem_filter, decide_eq_true_eq]
    have hb := b.symbols_subset y h
    have hn : y ∈ bs.names → y ∈ bs.binders := fun h => bs.names_subset_binders h
    tauto

mutual

theorem Snode.free_value : ∀ {c : Snode} {x : String} {v : Snode}, (x, v) ∈ c.lets →
    ∀ y ∈ v.free, y ∈ c.free ∨ y ∈ c.binders
  | .application l r _, x, v, h, y, hy => by
    simp only [Snode.lets, Snode.free, Snode.binders, List.mem_append] at h ⊢
    obtain h | h := h
    · exact (l.free_value h y hy).imp .inl .inl
    · exact (r.free_value h y hy).imp .inr .inr
  | .lambda z b, x, v, h, y, hy => by
    simp only [Snode.free, Snode.binders, List.mem_cons, List.mem_filter, decide_eq_true_eq]
    have := b.free_value h y hy
    tauto
  | .letrec bs b, x, v, h, y, hy => by
    simp only [Snode.lets, List.mem_append] at h
    simp only [Snode.free, Snode.binders, List.mem_append, List.mem_filter, decide_eq_true_eq]
    have hn : y ∈ bs.names → y ∈ bs.binders := fun h => bs.names_subset_binders h
    obtain h | h := h
    · have := bs.free_value h y hy
      tauto
    · have := b.free_value h y hy
      tauto

theorem Letrec.free_value : ∀ {bs : Letrec} {x : String} {v : Snode}, (x, v) ∈ bs.lets →
    ∀ y ∈ v.free, y ∈ bs.free ∨ y ∈ bs.binders
  | .bind z w _ next, x, v, h, y, hy => by
    simp only [Letrec.lets, List.mem_cons, List.mem_append] at h
    simp only [Letrec.free, Letrec.binders, List.mem_cons, List.mem_append]
    obtain ⟨⟨⟩⟩ | h | h := h
    · exact .inl (.inl hy)
    · have := w.free_value h y hy
      tauto
    · have := next.free_value h y hy
      tauto

end

mutual

theorem Snode.binders_value : ∀ {c : Snode} {x : String} {v : Snode}, (x, v) ∈ c.lets →
    v.binders ⊆ c.binders
  | .application l r _, x, v, h => by
    obtain h | h := List.mem_append.mp h
    · exact List.subset_append_of_subset_left _ (l.binders_value h)
    · exact List.subset_append_of_subset_right _ (r.binders_value h)
  | .lambda z b, x, v, h => List.subset_cons_of_subset _ (b.binders_value h)
  | .letrec bs b, x, v, h => by
    obtain h | h := List.mem_append.mp h
    · exact List.subset_append_of_subset_left _ (bs.binders_value h)
    · exact List.subset_append_of_subset_right _ (b.binders_value h)

theorem Letrec.binders_value : ∀ {bs : Letrec} {x : String} {v : Snode}, (x, v) ∈ bs.lets →
    v.binders ⊆ bs.binders
  | .bind z w _ next, x, v, h => by
    simp only [Letrec.lets, List.mem_cons, List.mem_append] at h
    refine List.subset_cons_of_subset _ ?_
    obtain ⟨⟨⟩⟩ | h | h := h
    · exact List.subset_append_left _ _
    · exact List.subset_append_of_subset_left _ (w.binders_value h)
    · exact List.subset_append_of_subset_right _ (next.binders_value h)

end

theorem lookup_of_mem {l : List (String × Snode)} {x : String} {v : Snode}
    (hl : (l.map Prod.fst).Nodup) (h : (x, v) ∈ l) : l.lookup x = some v := by
  induction l with
  | nil => cases h
  | cons p l ih =>
    obtain ⟨y, w⟩ := p
    obtain ⟨hy, hl⟩ := List.nodup_cons.mp hl
    obtain he | hmem := List.mem_cons.mp h
    · obtain ⟨rfl, rfl⟩ := Prod.mk.inj he
      exact List.lookup_cons_self
    · have hne : x ≠ y := by
        rintro rfl
        exact hy (List.mem_map.mpr ⟨(x, v), hmem, rfl⟩)
      rw [List.lookup_cons, beq_false_of_ne hne]
      exact ih hl hmem

theorem Letrec.mem_free_of_pair : ∀ {bs : Letrec} {y : String},
    y ∈ bs.free ↔ ∃ x v, (x, v) ∈ bs.pairs ∧ y ∈ v.free
  | .done, y => by simp [Letrec.free, Letrec.pairs]
  | .bind x v s next, y => by
    rw [Letrec.free, List.mem_append, mem_free_of_pair, Letrec.pairs]
    constructor
    · rintro (hy | ⟨z, w, hw, hy⟩)
      · exact ⟨x, v, List.mem_cons_self, hy⟩
      · exact ⟨z, w, List.mem_cons_of_mem _ hw, hy⟩
    · rintro ⟨z, w, hw, hy⟩
      obtain he | hw := List.mem_cons.mp hw
      · obtain ⟨rfl, rfl⟩ := Prod.mk.inj he
        exact .inl hy
      · exact .inr ⟨z, w, hw, hy⟩

theorem Letrec.mem_letrecs : ∀ {bs : Letrec} {p : Letrec × Snode},
    p ∈ bs.letrecs ↔ ∃ x v, (x, v) ∈ bs.pairs ∧ p ∈ v.letrecs
  | .done, p => by simp [Letrec.letrecs, Letrec.pairs]
  | .bind x v s next, p => by
    rw [Letrec.letrecs, List.mem_append, mem_letrecs, Letrec.pairs]
    constructor
    · rintro (hp | ⟨z, w, hw, hp⟩)
      · exact ⟨x, v, List.mem_cons_self, hp⟩
      · exact ⟨z, w, List.mem_cons_of_mem _ hw, hp⟩
    · rintro ⟨z, w, hw, hp⟩
      obtain he | hw := List.mem_cons.mp hw
      · obtain ⟨rfl, rfl⟩ := Prod.mk.inj he
        exact .inl hp
      · exact .inr ⟨z, w, hw, hp⟩

theorem Letrec.sum_pairs_le (bs : Letrec) : ∑ p ∈ bs.pairs.toFinset, sizeOf p.2 ≤ sizeOf bs := by
  fun_induction Letrec.pairs bs with
  | case1 => simp
  | case2 x v s next ih =>
    rw [List.toFinset_cons, Letrec.bind.sizeOf_spec]
    by_cases hmem : (x, v) ∈ next.pairs.toFinset
    · rw [Finset.insert_eq_of_mem hmem]
      omega
    · rw [Finset.sum_insert hmem]
      dsimp only
      omega

namespace Reorder

/-- A part of the tree `c` -/
structure Part (c v : Snode) : Prop where
  lets : v.lets ⊆ c.lets
  letrecs : v.letrecs ⊆ c.letrecs
  lambdaFree : v.lambdaFree = true
  distinct : v.Distinct

section

variable {c v l r b : Snode} {bs : Letrec} {s : Bool} {x y : String}

theorem Part.left (h : Part c (.application l r s)) : Part c l where
  lets := List.Subset.trans (List.subset_append_left _ _) h.lets
  letrecs := List.Subset.trans (List.subset_append_left _ _) h.letrecs
  lambdaFree := (Bool.and_eq_true_iff.mp h.lambdaFree).1
  distinct := h.distinct.left

theorem Part.right (h : Part c (.application l r s)) : Part c r where
  lets := List.Subset.trans (List.subset_append_right _ _) h.lets
  letrecs := List.Subset.trans (List.subset_append_right _ _) h.letrecs
  lambdaFree := (Bool.and_eq_true_iff.mp h.lambdaFree).2
  distinct := h.distinct.right

theorem Part.body (h : Part c (.letrec bs b)) : Part c b where
  lets := List.Subset.trans (List.subset_append_right _ _) h.lets
  letrecs := List.Subset.trans (List.subset_cons_of_subset _ (List.subset_append_right _ _)) h.letrecs
  lambdaFree := (Bool.and_eq_true_iff.mp h.lambdaFree).2
  distinct := h.distinct.letrec_body

theorem Part.value (h : Part c (.letrec bs b)) (hv : (x, v) ∈ bs.pairs) : Part c v := by
  obtain ⟨h1, h2, -, -, h5, h6⟩ := Letrec.lets_value hv
  refine ⟨fun p hp => h.lets (List.mem_append_left _ (h1 hp)), fun p hp => ?_,
    h5 (Bool.and_eq_true_iff.mp h.lambdaFree).1, h6 h.distinct.bindings⟩
  exact h.letrecs (List.mem_cons_of_mem _ (List.mem_append_left _ (h2 hp)))

theorem Part.pair (h : Part c (.letrec bs b)) (hv : (x, v) ∈ bs.pairs) : (x, v) ∈ c.lets :=
  h.lets (List.mem_append_left _ (bs.pairs_subset_lets hv))

theorem follow_of_mem (hc : Part c c) (h : (x, v) ∈ c.lets) : follow c x = v.symbols := by
  have hnodup : (c.lets.map Prod.fst).Nodup := by
    rw [Snode.map_fst_lets hc.lambdaFree]
    exact hc.distinct.nodup
  rw [follow, lookup_of_mem hnodup h]

theorem follow_of_not_mem (hc : Part c c) (h : x ∉ c.binders) : follow c x = [] := by
  rw [follow]
  split
  · rename_i v hv
    refine absurd ?_ h
    rw [← Snode.map_fst_lets hc.lambdaFree]
    obtain ⟨l₁, l₂, he, -⟩ := List.lookup_eq_some_iff.mp hv
    rw [he]
    simp
  · rfl

theorem Part.mem_lets (h : Part c v) (hx : x ∈ v.binders) : ∃ w, (x, w) ∈ v.lets := by
  rw [← Snode.map_fst_lets h.lambdaFree, List.mem_map] at hx
  obtain ⟨p, hp, rfl⟩ := hx
  exact ⟨p.2, hp⟩

/-- The names that are bound in a part are only followed within it. -/
theorem Part.follow_own (h : Part c v) (hc : Part c c) (hx : x ∈ v.binders) :
    ∀ y ∈ follow c x, y ∈ v.free ∨ y ∈ v.binders := by
  obtain ⟨w, hw⟩ := h.mem_lets hx
  rw [follow_of_mem hc (h.lets hw)]
  intro y hy
  obtain hy | hy := w.symbols_subset y hy
  · exact Snode.free_value hw y hy
  · exact .inr (Snode.binders_value hw hy)

/-- Within a part, other names that it does not bind do not matter. -/
theorem Part.meets_own {D : Set String} {zs : List String} (h : Part c v) (hc : Part c c)
    (hD : ∀ z ∈ v.free, z ∉ D) (hzs : ∀ z ∈ zs, z ∈ v.free ∨ z ∈ v.binders)
    (hm : Meets (follow c) D zs y) : Meets (follow c) v.own zs y :=
  hm.restrict (R := {z | z ∈ v.free ∨ z ∈ v.binders}) hzs fun z hz hzD =>
    have hzv : z ∈ v.binders := hz.resolve_left fun hf => hD z hf hzD
    ⟨hzv, h.follow_own hc hzv⟩

end

/-- What a part uses is free in it. -/
theorem Part.free_of_uses {c v : Snode} {y : String} (h : Part c v) (hc : Part c c)
    (hu : Uses c v y) : y ∈ v.free :=
  have hm := hu.2.mem_region (R := {z | z ∈ v.free ∨ z ∈ v.binders}) v.symbols_subset
    fun _ hz => h.follow_own hc hz
  hm.resolve_right hu.1

theorem Part.mem_names_of_free {c b : Snode} {bs : Letrec} {z : String}
    (h : Part c (.letrec bs b)) (hz : z ∈ bs.free ∨ z ∈ b.free)
    (hzb : z ∈ (Snode.letrec bs b).binders) : z ∈ bs.names := by
  by_contra hzn
  exact h.distinct.free z (by simpa [Snode.free, hzn] using hz) hzb

/-! ## The walk -/

/-- A name that the current tree may mention: one that is bound outside of it, or an argument -/
def Visible (c : Snode) (bound : List Letrec) (x : String) : Prop :=
  x ∈ scope bound ∨ x ∉ c.binders

instance (c : Snode) (bound : List Letrec) : DecidablePred (Visible c bound) := fun _ =>
  inferInstanceAs (Decidable (_ ∨ _))

/-- The list of used variables when the walk has visited `seen`: the names of the letrecs that are
done have been taken out of it. -/
def usedOf (c : Snode) (bound : List Letrec) (seen : List String) : List String :=
  seen.filter (Visible c bound ·)

/-- What a letrec of the result has to do with one of the source -/
def Reordered (c : Snode) (src res : Letrec × Snode) : Prop :=
  (∀ x, x ∈ res.1.names ↔
    x ∈ src.1.names ∧ Meets (follow c) (Snode.letrec src.1 src.2).own src.2.symbols x) ∧
  (src.1.Acyclic → (res.1.Forward ↔ InOrder c src.1 src.2))

/-- `v'` is what the pass makes of `v`. -/
structure Done (c v v' : Snode) : Prop where
  free : ∀ y, y ∈ v'.free ↔ Uses c v y
  letrecs : ∀ res ∈ v'.letrecs, ∃ src ∈ c.letrecs, Reordered c src res

/-- A binding on the stack that the walk has not come to -/
structure Pending (c v : Snode) (seen : List String) (bound : List Letrec) (p : String × Snode) :
    Prop where
  lets : p ∈ c.lets
  part : Part c p.2
  free : ∀ y ∈ p.2.free, Visible c bound y
  fresh : ∀ y ∈ p.2.binders, y ∉ seen ∧ y ∉ scope bound ∧ y ∉ v.binders

/-- Before the pass comes to the part `v` of `c` -/
structure Ready (c v : Snode) (seen : List String) (bound : List Letrec) : Prop where
  part : Part c v
  free : ∀ y ∈ v.free, Visible c bound y
  fresh : ∀ y ∈ v.binders, y ∉ seen ∧ y ∉ scope bound
  nodup : (scope bound).Nodup
  sub : ∀ y ∈ scope bound, y ∈ c.binders
  pending : ∀ p ∈ env bound, p.1 ∉ seen → Pending c v seen bound p
  apart : ∀ p ∈ env bound, ∀ q ∈ env bound, p.1 ∉ seen → q.1 ∉ seen → p.1 ≠ q.1 →
    ∀ y ∈ p.2.binders, y ∉ q.2.binders
  seen : seen.Nodup

/-- After the pass has made `v'` of the part `v` -/
structure Finished (c v v' : Snode) (seen seen' : List String) (bound bound' : List Letrec) :
    Prop where
  walk : Walk (follow c) v.symbols seen seen'
  shape : bound'.map Letrec.names = bound.map Letrec.names
  same : ∀ p, p.1 ∉ seen' ∨ p.1 ∈ seen → (p ∈ env bound' ↔ p ∈ env bound)
  done : ∀ p ∈ env bound', p.1 ∉ seen → p.1 ∈ seen' → ∃ w, (p.1, w) ∈ env bound ∧ Done c w p.2
  result : Done c v v'
  places : ∀ x ∈ seen', x ∈ seen ∨ Visible c bound x ∨ x ∈ v.binders ∨
    ∃ p ∈ env bound, p.1 ∉ seen ∧ p.1 ∈ seen' ∧ x ∈ p.2.binders

section

variable {c v v' l r l' r' b b' : Snode} {bs : Letrec} {s : Bool} {x : String}
  {seen seen₁ seen₂ : List String} {bound bound₁ bound₂ : List Letrec}

theorem Visible.congr (h : scope bound₁ = scope bound) (hx : Visible c bound x) :
    Visible c bound₁ x := by
  rw [Visible, h]
  exact hx

theorem Finished.scope (h : Finished c v v' seen seen₁ bound bound₁) :
    scope bound₁ = scope bound := scope_congr h.shape

theorem Finished.subset (h : Finished c v v' seen seen₁ bound bound₁) : seen ⊆ seen₁ :=
  h.walk.suffix.subset

/-- A name that is bound inside of what the walk has not come to has not been visited. -/
theorem Finished.not_mem (h : Finished c v v' seen seen₁ bound bound₁) (hx : x ∉ seen)
    (hxs : x ∉ Compiler.scope bound) (hxc : x ∈ c.binders) (hxv : x ∉ v.binders)
    (hxp : ∀ p ∈ env bound, p.1 ∉ seen → p.1 ∈ seen₁ → x ∉ p.2.binders) : x ∉ seen₁ := by
  intro hx₁
  obtain hm | (hm | hm) | hm | ⟨p, hp, hps, hp₁, hm⟩ := h.places x hx₁
  · exact hx hm
  · exact hxs hm
  · exact hm hxc
  · exact hxv hm
  · exact hxp p hp hps hp₁ hm

theorem Part.binders_subset (h : Part c v) (hc : Part c c) : v.binders ⊆ c.binders := by
  rw [← Snode.map_fst_lets h.lambdaFree, ← Snode.map_fst_lets hc.lambdaFree]
  exact List.map_subset _ h.lets

/-! ## The steps of the pass -/

theorem Ready.left (h : Ready c (.application l r s) seen bound) : Ready c l seen bound where
  part := h.part.left
  free y hy := h.free y (List.mem_append_left _ hy)
  fresh y hy := h.fresh y (List.mem_append_left _ hy)
  nodup := h.nodup
  sub := h.sub
  pending p hp hps :=
    have hp' := h.pending p hp hps
    ⟨hp'.lets, hp'.part, hp'.free, fun y hy => ⟨(hp'.fresh y hy).1, (hp'.fresh y hy).2.1,
      fun hl => (hp'.fresh y hy).2.2 (List.mem_append_left _ hl)⟩⟩
  apart := h.apart
  seen := h.seen

theorem Ready.right (hc : Part c c) (h : Ready c (.application l r s) seen bound)
    (hl : Finished c l l' seen seen₁ bound bound₁) : Ready c r seen₁ bound₁ := by
  have hnodup := h.part.distinct.nodup
  simp only [Snode.binders, List.nodup_append] at hnodup
  have hold : ∀ p ∈ env bound₁, p.1 ∉ seen₁ → p ∈ env bound ∧ p.1 ∉ seen := fun p hp hps =>
    ⟨(hl.same p (.inl hps)).mp hp, fun hs => hps (hl.subset hs)⟩
  refine ⟨h.part.right, fun y hy => ?_, fun y hy => ?_, ?_, ?_, fun p hp hps => ?_, ?_, ?_⟩
  · exact (h.free y (List.mem_append_right _ hy)).congr hl.scope
  · have hyc : y ∈ (Snode.application l r s).binders := List.mem_append_right _ hy
    obtain ⟨hys, hyb⟩ := h.fresh y hyc
    refine ⟨hl.not_mem hys hyb (h.part.binders_subset hc hyc)
      (fun hyl => hnodup.2.2 y hyl y hy rfl) ?_, by rwa [hl.scope]⟩
    exact fun p hp hps _ hyp => ((h.pending p hp hps).fresh y hyp).2.2 hyc
  · rw [hl.scope]
    exact h.nodup
  · rw [hl.scope]
    exact h.sub
  · obtain ⟨hpb, hpn⟩ := hold p hp hps
    have hp' := h.pending p hpb hpn
    refine ⟨hp'.lets, hp'.part, fun y hy => (hp'.free y hy).congr hl.scope, fun y hy => ?_⟩
    obtain ⟨hys, hyb, hyv⟩ := hp'.fresh y hy
    refine ⟨?_, by rwa [hl.scope], fun hyr => hyv (List.mem_append_right _ hyr)⟩
    refine hl.not_mem hys hyb (hp'.part.binders_subset hc hy)
      (fun hyl => hyv (List.mem_append_left _ hyl)) fun q hq hqs hq₁ hyq => ?_
    exact h.apart p hpb q hq hpn hqs (fun he => hps (he ▸ hq₁)) y hy hyq
  · intro p hp q hq hps hqs
    obtain ⟨hpb, hpn⟩ := hold p hp hps
    obtain ⟨hqb, hqn⟩ := hold q hq hqs
    exact h.apart p hpb q hqb hpn hqn
  · exact hl.walk.nodup h.seen

theorem Ready.body (hc : Part c c) (h : Ready c (.letrec bs b) seen bound) :
    Ready c b seen (bs :: bound) := by
  have hnodup := h.part.distinct.nodup
  simp only [Snode.binders, List.nodup_append] at hnodup
  have hbs := (bs.binders_perm.nodup_iff).mp hnodup.1
  rw [List.nodup_append] at hbs
  have hname : ∀ y ∈ bs.names, y ∈ (Snode.letrec bs b).binders := fun y hy =>
    List.mem_append_left _ (bs.names_subset_binders hy)
  have hinner : ∀ y ∈ bs.inner, y ∈ (Snode.letrec bs b).binders := fun y hy =>
    List.mem_append_left _ ((bs.mem_binders y).mpr (.inr hy))
  have hscope : scope (bs :: bound) = bs.names ++ scope bound := rfl
  have henv : env (bs :: bound) = bs.pairs ++ env bound := rfl
  have hvis : ∀ y, y ∈ bs.free ∨ y ∈ b.free → Visible c (bs :: bound) y := by
    intro y hy
    by_cases hyn : y ∈ bs.names
    · exact .inl (List.mem_append_left _ hyn)
    · refine (h.free y ?_).imp (List.mem_append_right _) id
      simpa [Snode.free, hyn] using hy
  have hbody : ∀ y ∈ b.binders, y ∉ bs.names := fun y hy hyn =>
    hnodup.2.2 y (bs.names_subset_binders hyn) y hy rfl
  refine ⟨h.part.body, fun y hy => hvis y (.inr hy), fun y hy => ?_, ?_, ?_, fun p hp hps => ?_, ?_,
    h.seen⟩
  · obtain ⟨hys, hyb⟩ := h.fresh y (List.mem_append_right _ hy)
    exact ⟨hys, by simp [hscope, hyb, hbody y hy]⟩
  · rw [hscope, List.nodup_append]
    refine ⟨hbs.1, h.nodup, ?_⟩
    rintro y hy _ hyb rfl
    exact (h.fresh y (hname y hy)).2 hyb
  · intro y hy
    rw [hscope, List.mem_append] at hy
    obtain hy | hy := hy
    · exact h.part.binders_subset hc (hname y hy)
    · exact h.sub y hy
  · obtain hp | hp := List.mem_append.mp hp
    · obtain ⟨-, -, hf, hb, -, -⟩ := Letrec.lets_value hp
      refine ⟨h.part.pair hp, h.part.value hp, fun y hy => hvis y (.inl (hf hy)), fun y hy => ?_⟩
      obtain ⟨hys, hyb⟩ := h.fresh y (hinner y (hb hy))
      have hyn : y ∉ bs.names := fun hyn => hbs.2.2 y hyn y (hb hy) rfl
      refine ⟨hys, by simp [hscope, hyb, hyn], fun hyb => ?_⟩
      exact hnodup.2.2 y ((bs.mem_binders y).mpr (.inr (hb hy))) y hyb rfl
    · have hp' := h.pending p hp hps
      refine ⟨hp'.lets, hp'.part, fun y hy => ?_, fun y hy => ?_⟩
      · exact (hp'.free y hy).imp (List.mem_append_right _) id
      · obtain ⟨hys, hyb, hyv⟩ := hp'.fresh y hy
        have hyn : y ∉ bs.names := fun hyn => hyv (hname y hyn)
        exact ⟨hys, by simp [hscope, hyb, hyn], fun hyb => hyv (List.mem_append_right _ hyb)⟩
  · intro p hp q hq hps hqs hpq y hy hyq
    obtain hp | hp := List.mem_append.mp hp <;> obtain hq | hq := List.mem_append.mp hq
    · exact Letrec.inner_apart hbs.2.1 hp hq hpq y hy hyq
    · exact ((h.pending q hq hqs).fresh y hyq).2.2 (hinner y ((Letrec.lets_value hp).2.2.2.1 hy))
    · exact ((h.pending p hp hps).fresh y hy).2.2 (hinner y ((Letrec.lets_value hq).2.2.2.1 hyq))
    · exact h.apart p hp q hq hps hqs hpq y hy hyq

theorem Ready.value (h : Ready c (.symbol x) seen bound) (hx : x ∉ seen) (hv : (x, v) ∈ env bound) :
    Ready c v (x :: seen) bound := by
  have hv' := h.pending _ hv hx
  have hxs : x ∈ scope bound := mem_scope.mpr ⟨v, hv⟩
  have hne : ∀ y, y ∉ scope bound → y ≠ x := by
    rintro y hy rfl
    exact hy hxs
  refine ⟨hv'.part, hv'.free, fun y hy => ?_, h.nodup, h.sub, fun p hp hps => ?_, ?_,
    List.nodup_cons.mpr ⟨hx, h.seen⟩⟩
  · obtain ⟨hys, hyb, -⟩ := hv'.fresh y hy
    exact ⟨List.not_mem_cons_of_ne_of_not_mem (hne y hyb) hys, hyb⟩
  · have hpn := List.not_mem_of_not_mem_cons hps
    have hp' := h.pending p hp hpn
    refine ⟨hp'.lets, hp'.part, hp'.free, fun y hy => ?_⟩
    obtain ⟨hys, hyb, -⟩ := hp'.fresh y hy
    refine ⟨List.not_mem_cons_of_ne_of_not_mem (hne y hyb) hys, hyb, fun hyv => ?_⟩
    exact h.apart p hp _ hv hpn hx (List.ne_of_not_mem_cons hps) y hy hyv
  · intro p hp q hq hps hqs
    exact h.apart p hp q hq (List.not_mem_of_not_mem_cons hps) (List.not_mem_of_not_mem_cons hqs)

/-! ## What the steps give -/

theorem Part.uses_application (h : Part c (.application l r s)) (hc : Part c c) (y : String) :
    Uses c (.application l r s) y ↔ Uses c l y ∨ Uses c r y := by
  have hfree := h.distinct.free
  simp only [Snode.binders, Snode.free, List.mem_append] at hfree
  have hown : ∀ z, z ∈ (Snode.application l r s).own ↔ z ∈ l.binders ∨ z ∈ r.binders := fun z =>
    List.mem_append
  have hl : Meets (follow c) (Snode.application l r s).own l.symbols y ↔
      Meets (follow c) l.own l.symbols y :=
    ⟨h.left.meets_own hc (fun z hz hzD => hfree z (.inl hz) ((hown z).mp hzD)) l.symbols_subset,
      (·.mono fun z hz => (hown z).mpr (.inl hz))⟩
  have hr : Meets (follow c) (Snode.application l r s).own r.symbols y ↔
      Meets (follow c) r.own r.symbols y :=
    ⟨h.right.meets_own hc (fun z hz hzD => hfree z (.inr hz) ((hown z).mp hzD)) r.symbols_subset,
      (·.mono fun z hz => (hown z).mpr (.inr hz))⟩
  constructor
  · rintro ⟨hy, hm⟩
    have hy' : y ∉ l.binders ∧ y ∉ r.binders := not_or.mp fun h => hy ((hown y).mpr h)
    rw [Snode.symbols, meets_append, hl, hr] at hm
    exact hm.imp (fun hm => ⟨hy'.1, hm⟩) fun hm => ⟨hy'.2, hm⟩
  · rintro (hu | hu)
    · exact ⟨hfree y (.inl (h.left.free_of_uses hc hu)) ∘ (hown y).mp,
        (hl.mpr hu.2).append_left _⟩
    · exact ⟨hfree y (.inr (h.right.free_of_uses hc hu)) ∘ (hown y).mp,
        (hr.mpr hu.2).append_right _⟩

/-- A way through a letrec ends in its body or in the value of one of its bindings. -/
theorem Part.meets_split {zs : List String} {y : String} (h : Part c (.letrec bs b))
    (hc : Part c c) (hm : Meets (follow c) (Snode.letrec bs b).own zs y) :
    ∀ {w : Snode}, Part c w → (∀ z ∈ w.free, z ∈ (Snode.letrec bs b).own → z ∈ bs.names) →
      (∀ z ∈ zs, z ∈ w.free ∨ z ∈ w.binders) →
      Meets (follow c) w.own zs y ∨ ∃ z v, (z, v) ∈ bs.pairs ∧
        Meets (follow c) (Snode.letrec bs b).own zs z ∧ Meets (follow c) v.own v.symbols y := by
  induction hm with
  | here hy => exact fun _ _ _ => .inl (.here hy)
  | @into zs y z hz hzD _ ih =>
    intro w hw hwn hzs
    by_cases hzw : z ∈ w.binders
    · obtain hm | ⟨x, v, hv, hmx, hm⟩ := ih hw hwn (hw.follow_own hc hzw)
      · exact .inl (.into hz hzw hm)
      · exact .inr ⟨x, v, hv, .into hz hzD hmx, hm⟩
    · obtain ⟨v, hv⟩ := Letrec.mem_names.mp (hwn z ((hzs z hz).resolve_right hzw) hzD)
      have hfollow := follow_of_mem hc (h.pair hv)
      obtain hm | ⟨x, v', hv', hmx, hm⟩ := ih (h.value hv)
        (fun x hx hxD => h.mem_names_of_free (.inl ((Letrec.lets_value hv).2.2.1 hx)) hxD)
        (hfollow ▸ v.symbols_subset)
      · exact .inr ⟨z, v, hv, .here hz, hfollow ▸ hm⟩
      · exact .inr ⟨x, v', hv', .into hz hzD hmx, hm⟩

theorem Part.uses_letrec (h : Part c (.letrec bs b)) (hc : Part c c) (y : String) :
    Uses c (.letrec bs b) y ↔ y ∉ bs.names ∧ (Uses c b y ∨ ∃ z v, (z, v) ∈ bs.pairs ∧
      Meets (follow c) (Snode.letrec bs b).own b.symbols z ∧ Uses c v y) := by
  have hbinders : ∀ z, z ∈ (Snode.letrec bs b).binders ↔
      z ∈ bs.names ∨ z ∈ bs.inner ∨ z ∈ b.binders := fun z => by
    rw [Snode.binders, List.mem_append, bs.mem_binders, or_assoc]
  have houter : ∀ z, z ∈ bs.free ∨ z ∈ b.free → z ∉ bs.names → z ∉ (Snode.letrec bs b).binders :=
    fun z hz hzn hzb => hzn (h.mem_names_of_free hz hzb)
  constructor
  · rintro ⟨hy, hm⟩
    have hy' := mt (hbinders y).mpr hy
    push Not at hy'
    refine ⟨hy'.1, (h.meets_split hc hm h.body (fun z hz => h.mem_names_of_free (.inr hz))
      b.symbols_subset).imp (fun hm => ⟨hy'.2.2, hm⟩) ?_⟩
    rintro ⟨z, v, hv, hz, hm⟩
    exact ⟨z, v, hv, hz, fun hyv => hy'.2.1 ((Letrec.lets_value hv).2.2.2.1 hyv), hm⟩
  · rintro ⟨hyn, hu | ⟨z, v, hv, hz, hu⟩⟩
    · refine ⟨houter y (.inr (h.body.free_of_uses hc hu)) hyn, hu.2.mono fun z hz => ?_⟩
      exact (hbinders z).mpr (.inr (.inr hz))
    · have hv' := Letrec.lets_value hv
      refine ⟨houter y (.inl (hv'.2.2.1 ((h.value hv).free_of_uses hc hu))) hyn, ?_⟩
      refine hz.trans ((hbinders z).mpr (.inl (Letrec.mem_names.mpr ⟨v, hv⟩))) ?_
      rw [follow_of_mem hc (h.pair hv)]
      exact hu.2.mono fun z hz => (hbinders z).mpr (.inr (.inl (hv'.2.2.2.1 hz)))

theorem Finished.application (hc : Part c c) (h : Part c (.application l r s))
    (hl : Finished c l l' seen seen₁ bound bound₁) (hr : Finished c r r' seen₁ seen₂ bound₁ bound₂) :
    Finished c (.application l r s) (.application l' r' s) seen seen₂ bound bound₂ where
  walk := hl.walk.append hr.walk
  shape := hr.shape.trans hl.shape
  same p hp := by
    have h₂ : p.1 ∉ seen₂ ∨ p.1 ∈ seen₁ := hp.imp id fun hs => hl.subset hs
    have h₁ : p.1 ∉ seen₁ ∨ p.1 ∈ seen := hp.imp (fun hs h₁ => hs (hr.subset h₁)) id
    rw [hr.same p h₂, hl.same p h₁]
  done p hp hps hp₂ := by
    by_cases hp₁ : p.1 ∈ seen₁
    · exact hl.done p ((hr.same p (.inr hp₁)).mp hp) hps hp₁
    · obtain ⟨w, hw, hdone⟩ := hr.done p hp hp₁ hp₂
      exact ⟨w, (hl.same (p.1, w) (.inl hp₁)).mp hw, hdone⟩
  result := by
    refine ⟨fun y => ?_, fun res hres => ?_⟩
    · rw [Snode.free, List.mem_append, hl.result.free, hr.result.free, h.uses_application hc]
    · exact (List.mem_append.mp hres).elim (hl.result.letrecs res) (hr.result.letrecs res)
  places x hx := by
    obtain hx | hx | hx | ⟨p, hp, hps, hp₂, hx⟩ := hr.places x hx
    · obtain hx | hx | hx | ⟨p, hp, hps, hp₁, hx⟩ := hl.places x hx
      · exact .inl hx
      · exact .inr (.inl hx)
      · exact .inr (.inr (.inl (List.mem_append_left _ hx)))
      · exact .inr (.inr (.inr ⟨p, hp, hps, hr.subset hp₁, hx⟩))
    · exact .inr (.inl (hx.congr hl.scope.symm))
    · exact .inr (.inr (.inl (List.mem_append_right _ hx)))
    · exact .inr (.inr (.inr ⟨p, (hl.same p (.inl hps)).mp hp, fun hs => hps (hl.subset hs), hp₂, hx⟩))

theorem done_symbol (x : String) : Done c (.symbol x) (.symbol x) where
  free y := by
    rw [Uses, Snode.symbols, meets_singleton]
    simp [Snode.free, Snode.binders, Snode.own, eq_comm]
  letrecs res hres := by cases hres

theorem Finished.met (h : x ∈ seen) : Finished c (.symbol x) (.symbol x) seen seen bound bound where
  walk := .seen h (.nil seen)
  shape := rfl
  same _ _ := Iff.rfl
  done _ _ hps hp := absurd hp hps
  result := done_symbol x
  places _ hx := .inl hx

theorem Finished.argument (hc : Part c c) (h : Ready c (.symbol x) seen bound) (hx : x ∉ seen)
    (hxs : x ∉ Compiler.scope bound) :
    Finished c (.symbol x) (.symbol x) seen (x :: seen) bound bound where
  walk := by
    refine .visit hx ?_ (.nil _)
    have hxc : x ∉ c.binders := (h.free x List.mem_cons_self).resolve_left hxs
    rw [follow_of_not_mem hc hxc]
    exact .nil _
  shape := rfl
  same _ _ := Iff.rfl
  done p hp hps hpx := by
    obtain hpx | hpx := List.mem_cons.mp hpx
    · exact absurd (mem_scope.mpr ⟨p.2, hpx ▸ hp⟩) hxs
    · exact absurd hpx hps
  result := done_symbol x
  places y hy := by
    obtain rfl | hy := List.mem_cons.mp hy
    · exact .inr (.inl (h.free y List.mem_cons_self))
    · exact .inl hy

theorem Finished.variable (hc : Part c c) (h : Ready c (.symbol x) seen bound) (hx : x ∉ seen)
    (hv : (x, v) ∈ env bound) (hf : Finished c v v' (x :: seen) seen₁ bound bound₁) :
    Finished c (.symbol x) (.symbol x) seen seen₁ bound (assignBound bound₁ x v') := by
  have hx₁ : x ∈ seen₁ := hf.subset List.mem_cons_self
  have hxs : x ∈ Compiler.scope bound := mem_scope.mpr ⟨v, hv⟩
  have hmem : ∀ p, p ∈ env (assignBound bound₁ x v') ↔
      p.1 ≠ x ∧ p ∈ env bound₁ ∨ p = (x, v') := by
    intro p
    rw [mem_env_assignBound (hf.scope ▸ h.nodup), hf.scope]
    simp [hxs]
  have hne : ∀ p : String × Snode, p.1 ≠ x → p ≠ (x, v') := by
    rintro p hp rfl
    exact hp rfl
  refine ⟨.visit hx ?_ (.nil _), (map_names_assignBound _ _ _).trans hf.shape, fun p hp => ?_,
    fun p hp hps hp₁ => ?_, done_symbol x, fun y hy => ?_⟩
  · rw [follow_of_mem hc (h.pending _ hv hx).lets]
    exact hf.walk
  · have hpx : p.1 ≠ x := by
      rintro rfl
      exact hp.elim (fun h => h hx₁) hx
    rw [hmem, or_iff_left (hne p hpx), and_iff_right hpx]
    exact hf.same p (hp.imp id (List.mem_cons_of_mem _))
  · obtain ⟨hpx, hp⟩ | rfl := (hmem p).mp hp
    · exact hf.done p hp (List.not_mem_cons_of_ne_of_not_mem hpx hps) hp₁
    · exact ⟨v, hv, hf.result⟩
  · obtain hy | hy | hy | ⟨p, hp, hps, hp₁, hy⟩ := hf.places y hy
    · obtain rfl | hy := List.mem_cons.mp hy
      · exact .inr (.inl (.inl hxs))
      · exact .inl hy
    · exact .inr (.inl hy)
    · exact .inr (.inr (.inr ⟨(x, v), hv, hx, hx₁, hy⟩))
    · exact .inr (.inr (.inr ⟨p, hp, List.not_mem_of_not_mem_cons hps, hp₁, hy⟩))

section

variable {bs₁ new : Letrec} {used : List String}

/-- The names that the walk of a body visits outside of the letrec do not lead into it. -/
theorem Ready.outside (hc : Part c c) (h : Ready c (.letrec bs b) seen bound)
    (hb : Finished c b b' seen seen₁ (bs :: bound) (bs₁ :: bound₁)) :
    ∀ x ∈ seen₁, x ∉ seen → x ∉ (Snode.letrec bs b).own →
      ∀ y ∈ follow c x, y ∉ (Snode.letrec bs b).own := by
  have hown : ∀ z, z ∈ (Snode.letrec bs b).own ↔ z ∈ bs.names ∨ z ∈ bs.inner ∨ z ∈ b.binders :=
    fun z => by
      change z ∈ (Snode.letrec bs b).binders ↔ _
      rw [Snode.binders, List.mem_append, bs.mem_binders, or_assoc]
  have hpending : ∀ p ∈ env bound, p.1 ∉ seen → ∀ y, y ∈ p.2.free ∨ y ∈ p.2.binders →
      y ∉ (Snode.letrec bs b).own := by
    intro p hp hps y hy hyo
    have hp' := h.pending p hp hps
    obtain hy | hy := hy
    · obtain hy | hy := hp'.free y hy
      · exact (h.fresh y hyo).2 hy
      · exact hy (h.part.binders_subset hc hyo)
    · exact (hp'.fresh y hy).2.2 hyo
  intro x hx hxs hxo y hy
  have hxo' := mt (hown x).mpr hxo
  push Not at hxo'
  obtain hx | (hx | hx) | hx | ⟨p, hp, hps, -, hx⟩ := hb.places x hx
  · exact absurd hx hxs
  · obtain hx | hx := List.mem_append.mp hx
    · exact absurd hx hxo'.1
    · obtain ⟨v, hv⟩ := mem_scope.mp hx
      rw [follow_of_mem hc (h.pending _ hv hxs).lets] at hy
      exact hpending _ hv hxs y (v.symbols_subset y hy)
  · rw [follow_of_not_mem hc hx] at hy
    cases hy
  · exact absurd hx hxo'.2.2
  · obtain hp | hp := List.mem_append.mp hp
    · exact absurd ((Letrec.lets_value hp).2.2.2.1 hx) hxo'.2.1
    · exact hpending p hp hps y ((h.pending p hp hps).part.follow_own hc hx y hy)

/-- The bindings of a letrec, once its body has been walked -/
structure Bindings (c b : Snode) (bs new : Letrec) (seen₁ : List String) : Prop where
  names : new.names = (seen₁.filter (· ∈ bs.names))
  values : ∀ x w, (x, w) ∈ new.pairs → ∃ v, (x, v) ∈ bs.pairs ∧ Done c v w
  met : ∀ x ∈ bs.names, x ∈ seen₁ ↔ Meets (follow c) (Snode.letrec bs b).own b.symbols x

theorem Finished.bindings (hc : Part c c) (h : Ready c (.letrec bs b) seen bound)
    (hb : Finished c b b' seen seen₁ (bs :: bound) (bs₁ :: bound₁))
    (hnew : relink (usedOf c (bs :: bound) seen₁) bs₁ = (new, used)) :
    Bindings c b bs new seen₁ ∧ used = usedOf c bound seen₁ := by
  have hready := h.body hc
  have hnames : bs₁.names = bs.names := (List.cons.inj hb.shape).1
  have hscope : Compiler.scope (bs :: bound) = bs.names ++ Compiler.scope bound := rfl
  have hnodup := hready.nodup
  rw [hscope, List.nodup_append] at hnodup
  have hsub : ∀ y ∈ bs.names, y ∈ c.binders := fun y hy =>
    hready.sub y (List.mem_append_left _ hy)
  have hused : (usedOf c (bs :: bound) seen₁).Nodup := (hb.walk.nodup hready.seen).filter _
  obtain ⟨h1, h2, h3⟩ := relink_spec hused (hnames ▸ hnodup.1)
  rw [hnew] at h1 h2 h3
  dsimp only at h1 h2 h3
  rw [hnames] at h1 h2
  have hown : ∀ y ∈ bs.names, y ∈ (Snode.letrec bs b).own := fun y hy =>
    List.mem_append_left _ (bs.names_subset_binders hy)
  have hmet : ∀ x ∈ bs.names, x ∈ seen₁ ↔
      Meets (follow c) (Snode.letrec bs b).own b.symbols x := fun x hx =>
    hb.walk.mem_iff (fun v hv => (h.fresh v hv).1) (h.outside hc hb) (hown x hx)
  have hnew_names : new.names = seen₁.filter (· ∈ bs.names) := by
    rw [h1, usedOf, List.filter_filter]
    refine List.filter_congr fun y _ => ?_
    by_cases hy : y ∈ bs.names
    · simp [hy, Visible, hscope]
    · simp [hy]
  refine ⟨⟨hnew_names, fun x w hxw => ?_, hmet⟩, ?_⟩
  · have hx : x ∈ new.names := Letrec.mem_names.mpr ⟨w, hxw⟩
    rw [hnew_names, List.mem_filter, decide_eq_true_iff] at hx
    have hxs : x ∉ seen := (h.fresh x (hown x hx.2)).1
    obtain ⟨v, hv, hdone⟩ := hb.done (x, w) (List.mem_append_left _ (h3 hxw)) hxs hx.1
    obtain hv | hv := List.mem_append.mp hv
    · exact ⟨v, hv, hdone⟩
    · exact absurd rfl (hnodup.2.2 x hx.2 x (mem_scope.mpr ⟨v, hv⟩))
  · rw [h2, usedOf, usedOf, List.filter_filter]
    refine List.filter_congr fun y _ => ?_
    rw [← Bool.decide_and, decide_eq_decide, Visible, Visible, hscope, List.mem_append]
    constructor
    · rintro ⟨hyn, (hy | hy) | hy⟩
      · exact absurd hy hyn
      · exact .inl hy
      · exact .inr hy
    · rintro (hy | hy)
      · exact ⟨fun hyn => hnodup.2.2 y hyn y hy rfl, .inl (.inr hy)⟩
      · exact ⟨fun hyn => hy (hsub y hyn), .inr hy⟩

theorem Bindings.mem_names (h : Bindings c b bs new seen₁) (x : String) : x ∈ new.names ↔
    x ∈ bs.names ∧ Meets (follow c) (Snode.letrec bs b).own b.symbols x := by
  rw [h.names, List.mem_filter, decide_eq_true_iff, and_comm, and_congr_right_iff]
  exact h.met x

theorem Part.unique (h : Part c (.letrec bs b)) {v w : Snode} (hv : (x, v) ∈ bs.pairs)
    (hw : (x, w) ∈ bs.pairs) : v = w := by
  have hnodup : (bs.pairs.map Prod.fst).Nodup := by
    rw [bs.map_fst_pairs]
    exact h.distinct.bindings.names
  exact Option.some.inj ((lookup_of_mem hnodup hv).symm.trans (lookup_of_mem hnodup hw))

theorem Finished.reordered (hc : Part c c) (h : Ready c (.letrec bs b) seen bound)
    (hb : Finished c b b' seen seen₁ (bs :: bound) (bs₁ :: bound₁))
    (hnew : Bindings c b bs new seen₁) : Reordered c (bs, b) (new, b') := by
  refine ⟨hnew.mem_names, fun hacyclic => ?_⟩
  have hown : ∀ y ∈ bs.names, y ∈ (Snode.letrec bs b).own := fun y hy =>
    List.mem_append_left _ (bs.names_subset_binders hy)
  have hnodup : new.names.Nodup := by
    rw [hnew.names]
    exact (hb.walk.nodup h.seen).filter _
  have hearlier : ∀ x ∈ bs.names, ∀ y ∈ bs.names, y ≠ x → (Earlier y x new.names ↔
      Before (follow c) (Snode.letrec bs b).own y x b.symbols) := by
    intro x hx y hy hyx
    rw [hnew.names, earlier_filter (by simpa using hy) (by simpa using hx)]
    exact hb.walk.earlier_iff (fun v hv => (h.fresh v hv).1) (h.outside hc hb) (hown x hx)
      (hown y hy) hyx
  rw [Letrec.forward_iff hnodup]
  constructor
  · intro hforward x v y hv hy hmx hu hbefore
    have hx : x ∈ bs.names := Letrec.mem_names.mpr ⟨v, hv⟩
    obtain ⟨w, hw⟩ := Letrec.mem_names.mp ((hnew.mem_names x).mpr ⟨hx, hmx⟩)
    obtain ⟨v', hv', hdone⟩ := hnew.values x w hw
    obtain rfl := h.part.unique hv hv'
    have hmy : Meets (follow c) (Snode.letrec bs b).own b.symbols y := by
      refine hmx.trans (hown x hx) ?_
      rw [follow_of_mem hc (h.part.pair hv)]
      refine hu.2.mono fun z hz => List.mem_append_left _ ((bs.mem_binders z).mpr (.inr ?_))
      exact (Letrec.lets_value hv).2.2.2.1 hz
    obtain ⟨hyx, hlate⟩ := hforward x w hw y ((hdone.free y).mpr hu)
      ((hnew.mem_names y).mpr ⟨hy, hmy⟩)
    exact hlate ((hearlier x hx y hy hyx).mpr hbefore)
  · intro horder x w hw y hyw hy
    obtain ⟨hx, hmx⟩ := (hnew.mem_names x).mp (Letrec.mem_names.mpr ⟨w, hw⟩)
    obtain ⟨hy, -⟩ := (hnew.mem_names y).mp hy
    obtain ⟨v, hv, hdone⟩ := hnew.values x w hw
    have hu := (hdone.free y).mp hyw
    have hyx : y ≠ x := by
      rintro rfl
      have hfree := (h.part.value hv).free_of_uses hc hu
      exact hacyclic y (.single ⟨hy, v, hv, hfree⟩)
    exact ⟨hyx, fun he => horder x v y hv hy hmx hu ((hearlier x hx y hy hyx).mp he)⟩

theorem Finished.done_letrec (hc : Part c c) (h : Ready c (.letrec bs b) seen bound)
    (hb : Finished c b b' seen seen₁ (bs :: bound) (bs₁ :: bound₁))
    (hnew : Bindings c b bs new seen₁) : Done c (.letrec bs b) (.letrec new b') := by
  have hmet : ∀ y ∈ bs.names, Meets (follow c) (Snode.letrec bs b).own b.symbols y →
      y ∈ new.names := fun y hy hm => (hnew.mem_names y).mpr ⟨hy, hm⟩
  have hinner : ∀ {D : Set String}, (∀ z ∈ D, z ∈ bs.inner ∨ z ∈ b.binders) →
      D ⊆ (Snode.letrec bs b).own := by
    intro D hD z hz
    obtain hz | hz := hD z hz
    · exact List.mem_append_left _ ((bs.mem_binders z).mpr (.inr hz))
    · exact List.mem_append_right _ hz
  refine ⟨fun y => ?_, fun res hres => ?_⟩
  · rw [h.part.uses_letrec hc, Snode.free, List.mem_filter, decide_eq_true_iff, List.mem_append,
      Letrec.mem_free_of_pair, hb.result.free, and_comm]
    constructor
    · rintro ⟨hy, ⟨x, w, hw, hyw⟩ | hu⟩
      · obtain ⟨hx, hmx⟩ := (hnew.mem_names x).mp (Letrec.mem_names.mpr ⟨w, hw⟩)
        obtain ⟨v, hv, hdone⟩ := hnew.values x w hw
        have hu := (hdone.free y).mp hyw
        refine ⟨fun hyn => hy (hmet y hyn (hmx.trans ?_ ?_)), .inr ⟨x, v, hv, hmx, hu⟩⟩
        · exact List.mem_append_left _ (bs.names_subset_binders hx)
        · rw [follow_of_mem hc (h.part.pair hv)]
          exact hu.2.mono (hinner fun z hz => .inl ((Letrec.lets_value hv).2.2.2.1 hz))
      · exact ⟨fun hyn => hy (hmet y hyn (hu.2.mono (hinner fun z hz => .inr hz))), .inl hu⟩
    · rintro ⟨hyn, hu | ⟨x, v, hv, hmx, hu⟩⟩
      · exact ⟨fun hy => hyn ((hnew.mem_names y).mp hy).1, .inr hu⟩
      · have hx := hmet x (Letrec.mem_names.mpr ⟨v, hv⟩) hmx
        obtain ⟨w, hw⟩ := Letrec.mem_names.mp hx
        obtain ⟨v', hv', hdone⟩ := hnew.values x w hw
        obtain rfl := h.part.unique hv hv'
        exact ⟨fun hy => hyn ((hnew.mem_names y).mp hy).1, .inl ⟨x, w, hw, (hdone.free y).mpr hu⟩⟩
  · rw [Snode.letrecs, List.mem_cons, List.mem_append, Letrec.mem_letrecs] at hres
    obtain rfl | ⟨x, w, hw, hres⟩ | hres := hres
    · exact ⟨(bs, b), h.part.letrecs List.mem_cons_self, hb.reordered hc h hnew⟩
    · obtain ⟨v, -, hdone⟩ := hnew.values x w hw
      exact hdone.letrecs res hres
    · exact hb.result.letrecs res hres

theorem Finished.letrec (hc : Part c c) (h : Ready c (.letrec bs b) seen bound)
    (hb : Finished c b b' seen seen₁ (bs :: bound) (bs₁ :: bound₁))
    (hnew : Bindings c b bs new seen₁) :
    Finished c (.letrec bs b) (.letrec new b') seen seen₁ bound bound₁ := by
  have hshape := List.cons.inj hb.shape
  have hscope : Compiler.scope bound₁ = Compiler.scope bound := scope_congr hshape.2
  have hnodup := (h.body hc).nodup
  rw [show Compiler.scope (bs :: bound) = bs.names ++ Compiler.scope bound from rfl,
    List.nodup_append] at hnodup
  -- a name on the stack is not one of the letrec
  have hother : ∀ x ∈ Compiler.scope bound, x ∉ bs.names := fun x hx hxn =>
    hnodup.2.2 x hxn x hx rfl
  have hbound₁ : ∀ p, p ∈ env bound₁ → p ∉ bs.pairs := fun p hp hpb =>
    hother p.1 (hscope ▸ mem_scope.mpr ⟨p.2, hp⟩) (Letrec.mem_names.mpr ⟨p.2, hpb⟩)
  have hbinders : ∀ x, x ∈ bs.inner ∨ x ∈ b.binders → x ∈ (Snode.letrec bs b).binders := by
    rintro x (hx | hx)
    · exact List.mem_append_left _ ((bs.mem_binders x).mpr (.inr hx))
    · exact List.mem_append_right _ hx
  refine ⟨hb.walk, hshape.2, fun p hp => ?_, fun p hp hps hp₁ => ?_, hb.done_letrec hc h hnew,
    fun x hx => ?_⟩
  · have hsame := hb.same p hp
    rw [show env (bs :: bound) = bs.pairs ++ env bound from rfl,
      show env (bs₁ :: bound₁) = bs₁.pairs ++ env bound₁ from rfl, List.mem_append,
      List.mem_append] at hsame
    constructor
    · intro hpe
      exact (hsame.mp (.inr hpe)).resolve_left (hbound₁ p hpe)
    · intro hpe
      refine (hsame.mpr (.inr hpe)).resolve_left fun hpb => ?_
      refine hother p.1 (mem_scope.mpr ⟨p.2, hpe⟩) ?_
      exact hshape.1 ▸ Letrec.mem_names.mpr ⟨p.2, hpb⟩
  · obtain ⟨w, hw, hdone⟩ := hb.done p (List.mem_append_right _ hp) hps hp₁
    refine ⟨w, (List.mem_append.mp hw).resolve_left fun hwb => ?_, hdone⟩
    exact hother p.1 (hscope ▸ mem_scope.mpr ⟨p.2, hp⟩) (Letrec.mem_names.mpr ⟨w, hwb⟩)
  · obtain hx | (hx | hx) | hx | ⟨p, hp, hps, hp₁, hx⟩ := hb.places x hx
    · exact .inl hx
    · obtain hx | hx := List.mem_append.mp hx
      · exact .inr (.inr (.inl (List.mem_append_left _ (bs.names_subset_binders hx))))
      · exact .inr (.inl (.inl hx))
    · exact .inr (.inl (.inr hx))
    · exact .inr (.inr (.inl (hbinders x (.inr hx))))
    · obtain hp | hp := List.mem_append.mp hp
      · exact .inr (.inr (.inl (hbinders x (.inl ((Letrec.lets_value hp).2.2.2.1 hx)))))
      · exact .inr (.inr (.inr ⟨p, hp, hps, hp₁, hx⟩))

end

/-! ## The pass comes to an end -/

/-- The size of the values that are still to be walked -/
noncomputable def pendingSize (seen : List String) (bound : List Letrec) : Nat :=
  ∑ p ∈ (env bound).toFinset.filter (·.1 ∉ seen), sizeOf p.2

theorem mem_pending {p : String × Snode} :
    p ∈ (env bound).toFinset.filter (·.1 ∉ seen) ↔ p ∈ env bound ∧ p.1 ∉ seen := by
  rw [Finset.mem_filter, List.mem_toFinset]

theorem pendingSize_cons (seen : List String) (bound : List Letrec) (bs : Letrec) : pendingSize seen (bs :: bound) ≤
    sizeOf bs + pendingSize seen bound := by
  have hsub : (env (bs :: bound)).toFinset.filter (·.1 ∉ seen) ⊆
      bs.pairs.toFinset ∪ (env bound).toFinset.filter (·.1 ∉ seen) := by
    intro p hp
    rw [mem_pending] at hp
    rw [Finset.mem_union, List.mem_toFinset, mem_pending]
    exact (List.mem_append.mp hp.1).imp id fun h => ⟨h, hp.2⟩
  have hunion : ∑ p ∈ bs.pairs.toFinset ∪ (env bound).toFinset.filter (·.1 ∉ seen), sizeOf p.2 + _ =
      _ + _ := Finset.sum_union_inter
  have hle := Finset.sum_le_sum_of_subset (f := fun p : String × Snode => sizeOf p.2) hsub
  have hbs := bs.sum_pairs_le
  rw [pendingSize, pendingSize]
  omega

theorem pendingSize_value (hv : (x, v) ∈ env bound) (hx : x ∉ seen) :
    sizeOf v + pendingSize (x :: seen) bound ≤ pendingSize seen bound := by
  have hmem : (x, v) ∈ (env bound).toFinset.filter (·.1 ∉ seen) := mem_pending.mpr ⟨hv, hx⟩
  rw [pendingSize, pendingSize, ← Finset.add_sum_erase _ _ hmem]
  refine Nat.add_le_add_left (Finset.sum_le_sum_of_subset fun p hp => ?_) _
  obtain ⟨hp, hps⟩ := mem_pending.mp hp
  refine Finset.mem_erase.mpr ⟨?_, mem_pending.mpr ⟨hp, List.not_mem_of_not_mem_cons hps⟩⟩
  rintro rfl
  exact hps List.mem_cons_self

theorem Finished.pendingSize_le (h : Finished c v v' seen seen₁ bound bound₁) :
    pendingSize seen₁ bound₁ ≤ pendingSize seen bound := by
  refine Finset.sum_le_sum_of_subset fun p hp => ?_
  obtain ⟨hp, hps⟩ := mem_pending.mp hp
  exact mem_pending.mpr ⟨(h.same p (.inl hps)).mp hp, fun hs => hps (h.subset hs)⟩

theorem usedOf_congr (h : Compiler.scope bound₁ = Compiler.scope bound) :
    usedOf c bound₁ seen = usedOf c bound seen := by
  rw [usedOf, usedOf]
  exact List.filter_congr fun y _ => by rw [decide_eq_decide, Visible, Visible, h]

theorem mem_usedOf (hx : Visible c bound x) : x ∈ usedOf c bound seen ↔ x ∈ seen := by
  simp [usedOf, hx]

theorem Finished.leaf (hsym : v.symbols = []) (hfree : v.free = []) (hrecs : v.letrecs = []) :
    Finished c v v seen seen bound bound where
  walk := hsym ▸ .nil seen
  shape := rfl
  same _ _ := Iff.rfl
  done _ _ hps hp := absurd hp hps
  result := by
    refine ⟨fun y => ?_, fun res hres => ?_⟩
    · rw [hfree, Uses, hsym]
      exact iff_of_false List.not_mem_nil fun h => meets_nil h.2
    · rw [hrecs] at hres
      cases hres
  places _ hx := .inl hx

/-- With enough fuel the pass comes to an end, and has walked the tree. -/
theorem reorderLetrecsR_spec (hc : Part c c) : ∀ (k : Nat) {v : Snode} {seen : List String}
    {bound : List Letrec}, Ready c v seen bound → sizeOf v + pendingSize seen bound < k →
    ∃ v' seen₁ bound₁, reorderLetrecsR k v (usedOf c bound seen) bound =
        some (v', usedOf c bound seen₁, bound₁) ∧ Finished c v v' seen seen₁ bound bound₁ := by
  intro k
  induction k with
  | zero => exact fun _ hlt => absurd hlt (Nat.not_lt_zero _)
  | succ k ih =>
    intro v seen bound h hlt
    cases v with
    | application l r s =>
      rw [Snode.application.sizeOf_spec] at hlt
      obtain ⟨l', seen₁, bound₁, hl, hfl⟩ := ih h.left (by omega)
      have hle := hfl.pendingSize_le
      obtain ⟨r', seen₂, bound₂, hr, hfr⟩ := ih (h.right hc hfl) (by omega)
      rw [usedOf_congr hfl.scope, usedOf_congr hfl.scope] at hr
      refine ⟨.application l' r' s, seen₂, bound₂, ?_, hfl.application hc h.part hfr⟩
      rw [reorderLetrecsR, hl]
      dsimp only [Option.bind_eq_bind, Option.bind_some]
      rw [hr]
      rfl
    | lambda _ _ => cases h.part.lambdaFree
    | letrec bs b =>
      rw [Snode.letrec.sizeOf_spec] at hlt
      have hle := pendingSize_cons seen bound bs
      obtain ⟨b', seen₁, bound', hb, hfb⟩ := ih (h.body hc) (by omega)
      have hstart : usedOf c (bs :: bound) seen = usedOf c bound seen := by
        refine List.filter_congr fun y hy => ?_
        have hyn : y ∉ bs.names := fun hyn =>
          (h.fresh y (List.mem_append_left _ (bs.names_subset_binders hyn))).1 hy
        rw [decide_eq_decide, Visible, Visible]
        simp [Compiler.scope, hyn]
      rw [hstart] at hb
      obtain _ | ⟨bs₁, bound₁⟩ := bound'
      · cases hfb.shape
      obtain ⟨new, used, hnew⟩ : ∃ new used,
          relink (usedOf c (bs :: bound) seen₁) bs₁ = (new, used) := ⟨_, _, rfl⟩
      obtain ⟨hbind, rfl⟩ := hfb.bindings hc h hnew
      refine ⟨.letrec new b', seen₁, bound₁, ?_, hfb.letrec hc h hbind⟩
      rw [reorderLetrecsR, hb]
      dsimp only [Option.bind_eq_bind, Option.bind_some]
      rw [hnew]
      rfl
    | symbol x =>
      have hvis := h.free x List.mem_cons_self
      by_cases hx : x ∈ seen
      · refine ⟨.symbol x, seen, bound, ?_, .met hx⟩
        rw [reorderLetrecsR, if_pos ((mem_usedOf hvis).mpr hx)]
      · rw [reorderLetrecsR, if_neg (mt (mem_usedOf hvis).mp hx)]
        have hpush : x :: usedOf c bound seen = usedOf c bound (x :: seen) := by
          rw [usedOf, usedOf, List.filter_cons_of_pos (by simpa using hvis)]
        rw [hpush]
        cases hv : findBound bound x with
        | none =>
          exact ⟨.symbol x, x :: seen, bound, rfl, .argument hc h hx (findBound_none.mp hv)⟩
        | some v =>
          have hmem := findBound_some hv
          have hle := pendingSize_value hmem hx
          have hpos : 0 < sizeOf (Snode.symbol x) := by
            rw [Snode.symbol.sizeOf_spec]
            omega
          obtain ⟨v', seen₁, bound₁, hw, hfv⟩ := ih (h.value hx hmem) (by omega)
          refine ⟨.symbol x, seen₁, assignBound bound₁ x v', ?_, .variable hc h hx hmem hfv⟩
          dsimp only
          rw [hw]
          rfl
    | builtin _ | scref _ | nil | number _ | string _ =>
      exact ⟨_, seen, bound, rfl, .leaf rfl rfl rfl⟩

end

theorem mono_reorderLetrecsR : ∀ (v : Snode) (used : List String) (bound : List Letrec),
    Mono (reorderLetrecsR · v used bound) := by
  suffices h : ∀ (k : Nat) (v : Snode) (used : List String) (bound : List Letrec),
      Extends (reorderLetrecsR k v used bound) (reorderLetrecsR (k + 1) v used bound) from
    fun v used bound k => h k v used bound
  intro k
  induction k with
  | zero => exact fun _ _ _ => .none _
  | succ k ih =>
    intro v used bound
    cases v with
    | application l r s => exact (ih l used bound).bind fun _ => (ih r _ _).bind fun _ => .refl _
    | letrec bs b => exact (ih b used _).bind fun _ => .refl _
    | symbol x =>
      rw [reorderLetrecsR, reorderLetrecsR]
      split
      · exact .refl _
      · split
        · exact .refl _
        · exact (ih _ _ _).bind fun _ => .refl _
    | lambda _ _ | builtin _ | scref _ | nil | number _ | string _ => exact .refl _

/-- The pass comes to an end. Each letrec of the result has the bindings that the source's letrec
uses; and where these do not depend on themselves, every binding comes after all those that its
value mentions if, and only if, the names are met in this order. -/
theorem reorderLetrecs_forward_iff {c : Snode} (hlift : c.lambdaFree = true) (hc : c.Distinct) :
    ∃ c', Returns (reorderLetrecs · c) c' ∧ ∀ res ∈ c'.letrecs, ∃ src ∈ c.letrecs,
      (∀ x, x ∈ res.1.names ↔ x ∈ src.1.names ∧
        Meets (follow c) (Snode.letrec src.1 src.2).own src.2.symbols x) ∧
      (src.1.Acyclic → (res.1.Forward ↔ InOrder c src.1 src.2)) := by
  have hpart : Part c c := ⟨List.Subset.refl _, List.Subset.refl _, hlift, hc⟩
  have hready : Ready c c [] [] := by
    refine ⟨hpart, fun y hy => .inr (hc.free y hy), fun y _ => ⟨List.not_mem_nil, List.not_mem_nil⟩,
      List.nodup_nil, fun y hy => absurd hy List.not_mem_nil, fun p hp => absurd hp List.not_mem_nil,
      fun p hp => absurd hp List.not_mem_nil, List.nodup_nil⟩
  have hrun : ∀ k, sizeOf c < k → ∃ c', reorderLetrecs k c = some c' ∧ Done c c c' := by
    intro k hk
    obtain ⟨c', seen, bound, hk, hf⟩ := reorderLetrecsR_spec hpart k hready hk
    refine ⟨c', ?_, hf.result⟩
    rw [reorderLetrecs, show ([] : List String) = usedOf c [] [] from rfl, hk]
    rfl
  obtain ⟨c', hk, hdone⟩ := hrun _ (Nat.lt_succ_self _)
  have hmono : Mono (reorderLetrecs · c) := fun k =>
    (mono_reorderLetrecsR c [] [] k).bind fun _ => .refl _
  exact ⟨c', hmono.returns hk, hdone.letrecs⟩

/-! ## Two letrecs -/

def one : Double := 0x3FF0000000000000#64
def two : Double := 0x4000000000000000#64
def three : Double := 0x4008000000000000#64
def four : Double := 0x4010000000000000#64
def five : Double := 0x4014000000000000#64

/-- `(op l r)` -/
def binop (op : Bif) (l r : Snode) : Snode :=
  .application (.application (.builtin op) l false) r false

/-- `letrec c = (+ b 4), b = (+ a 3), a = (+ 1 2) in (* c 5)`, where the names are met before the
bindings that they use -/
def chain : Snode :=
  .letrec
    (.bind "c" (binop .add (.symbol "b") (.number four)) false <|
      .bind "b" (binop .add (.symbol "a") (.number three)) false <|
      .bind "a" (binop .add (.number one) (.number two)) false .done)
    (binop .multiply (.symbol "c") (.number five))

theorem reorderLetrecs_forward_iff_chain :
    ∃ c', Returns (reorderLetrecs · chain) c' ∧ ∀ res ∈ c'.letrecs, ∃ src ∈ chain.letrecs,
      (∀ x, x ∈ res.1.names ↔ x ∈ src.1.names ∧
        Meets (follow chain) (Snode.letrec src.1 src.2).own src.2.symbols x) ∧
      (src.1.Acyclic → (res.1.Forward ↔ InOrder chain src.1 src.2)) :=
  reorderLetrecs_forward_iff (by decide) ⟨by decide, by decide⟩

/-- `letrec a = 1, b = (+ a 1) in (+ a b)` -/
def shared : Snode :=
  .letrec
    (.bind "a" (.number one) false <|
      .bind "b" (binop .add (.symbol "a") (.number one)) false .done)
    (binop .add (.symbol "a") (.symbol "b"))

/-- The body of `shared` mentions `a` before it comes to `b`, and `b` is put in front of `a`. -/
theorem reorderLetrecs_shared : ¬ ∀ c : Snode, c.lambdaFree = true → c.Distinct →
    (∀ src ∈ c.letrecs, src.1.Acyclic) → ∀ k c', reorderLetrecs k c = some c' →
    ∀ res ∈ c'.letrecs, res.1.Forward := by
  intro h
  have hacyclic : ∀ src ∈ shared.letrecs, src.1.Acyclic := by
    intro src hsrc x hx
    obtain rfl := List.mem_singleton.mp hsrc
    have hstep : ∀ y z, Letrec.Mentions (Letrec.bind "a" (.number one) false <|
        .bind "b" (binop .add (.symbol "a") (.number one)) false .done) y z → y = "b" ∧ z = "a" := by
      rintro y z ⟨-, v, hv, hz⟩
      simp only [Letrec.pairs, List.mem_cons, Prod.mk.injEq, List.not_mem_nil, or_false] at hv
      obtain ⟨rfl, rfl⟩ | ⟨rfl, rfl⟩ := hv
      · cases hz
      · exact ⟨rfl, by simpa [binop, Snode.free] using hz⟩
    obtain ⟨y, hy, -⟩ := Relation.TransGen.head'_iff.mp hx
    obtain ⟨z, -, hz⟩ := Relation.TransGen.tail'_iff.mp hx
    exact absurd ((hstep _ _ hy).1.symm.trans (hstep _ _ hz).2) (by decide)
  have hforward := h shared (by decide) ⟨by decide, by decide⟩ hacyclic 10 _ rfl _
    List.mem_cons_self
  exact (hforward.1 "a" (by decide)).2 (by decide)

end Reorder
end Compiler
end NReduce
