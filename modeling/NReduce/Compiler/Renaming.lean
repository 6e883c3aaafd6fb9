import NReduce.Compiler.Syntax
import Mathlib.Data.Set.Function

/-!
# NReduce.Compiler.Renaming

`renaming.c`: fresh names and the renaming of the bound variables of a tree.

`renameVariablesR` follows the C function, counter and mapping stack included. Where the binders
of the tree are distinct from one another and from its free symbols it is a uniform renaming: one
function `f` is applied to every binder and to every symbol (`renameVariablesR_spec`), so each
symbol of the result is bound by the image of the binder that bound it before. The images of the
binders are names that `next_var` had not given out.
-/

namespace NReduce
namespace Compiler

theorem nextVar_inj {m n : Nat} (h : nextVar m = nextVar n) : m = n := by
  have h1 : (Nat.repr m).toList = (Nat.repr n).toList := by
    have := congrArg String.toList h
    simpa [nextVar] using this
  rw [Nat.toList_repr, Nat.toList_repr] at h1
  have h2 := Nat.ofDigitChars_toDigits (b := 10) (n := m) (by decide) (by decide)
  rw [h1, Nat.ofDigitChars_toDigits (by decide) (by decide)] at h2
  exact h2.symm

/-- `x` is not a name that `next_var` gives out from counter value `n` on. -/
def Old (n : Nat) (x : String) : Prop := ∀ k, n ≤ k → x ≠ nextVar k

theorem Old.mono {m n : Nat} {x : String} (h : Old m x) (hmn : m ≤ n) : Old n x :=
  fun k hk => h k (hmn.trans hk)

theorem old_nextVar {k n : Nat} (h : k < n) : Old n (nextVar k) := by
  intro j hj e
  have := nextVar_inj e
  omega

/-- The stack of mappings, the top first. -/
abbrev Mappings := List (String × String)

/-- The symbol case of `rename_variables_r`. The scan goes from the top of the stack to the
bottom and does not stop at a match. -/
def renSym (μ : Mappings) (x : String) : String :=
  μ.foldl (fun name m => if m.1 = name then m.2 else name) x

/-- The first loop of the letrec case: every binding gets the next fresh name. -/
def pushNames (n : Nat) : Letrec → Mappings → Mappings
  | .done, μ => μ
  | .bind x _ _ next, μ => pushNames (n + 1) next ((x, nextVar n) :: μ)

mutual

/-- `rename_variables_r`, with the counter of `next_var` passed through. -/
def renameVariablesR (n : Nat) (μ : Mappings) : Snode → Snode × Nat
  | .application l r s =>
    let (l', n1) := renameVariablesR n μ l
    let (r', n2) := renameVariablesR n1 μ r
    (.application l' r' s, n2)
  | .lambda x b =>
    let (b', n1) := renameVariablesR (n + 1) ((x, nextVar n) :: μ) b
    (.lambda (nextVar n) b', n1)
  | .letrec bs b =>
    let μ' := pushNames n bs μ
    let (bs', n1) := renameBindings (n + bs.names.length) n μ' bs
    let (b', n2) := renameVariablesR n1 μ' b
    (.letrec bs' b', n2)
  | .symbol x => (.symbol (renSym μ x), n)
  | .builtin b => (.builtin b, n)
  | .scref i => (.scref i, n)
  | .nil => (.nil, n)
  | .number d => (.number d, n)
  | .string s => (.string s, n)

/-- The second loop of the letrec case; `k` is the counter from which the names were taken. -/
def renameBindings (n k : Nat) (μ : Mappings) : Letrec → Letrec × Nat
  | .done => (.done, n)
  | .bind _ v s next =>
    let (v', n1) := renameVariablesR n μ v
    let (next', n2) := renameBindings n1 (k + 1) μ next
    (.bind (nextVar k) v' s next', n2)

end

/-- `rename_sc_body_variables`: the arguments are mapped first, so they lie at the bottom. -/
def renameScBodyVariables (n : Nat) (body : Snode) (oldargnames newargnames : List String) :
    Snode × Nat :=
  renameVariablesR n (oldargnames.zip newargnames).reverse body

/-! ## Uniform renaming -/

mutual

/-- Apply `f` to every binder and every symbol. -/
def Snode.rename (f : String → String) : Snode → Snode
  | .application l r s => .application (l.rename f) (r.rename f) s
  | .lambda x b => .lambda (f x) (b.rename f)
  | .letrec bs b => .letrec (bs.rename f) (b.rename f)
  | .symbol x => .symbol (f x)
  | .builtin b => .builtin b
  | .scref i => .scref i
  | .nil => .nil
  | .number d => .number d
  | .string s => .string s

def Letrec.rename (f : String → String) : Letrec → Letrec
  | .done => .done
  | .bind x v s next => .bind (f x) (v.rename f) s (next.rename f)

end

mutual

theorem Snode.rename_congr : ∀ (e : Snode) {f g : String → String},
    (∀ x ∈ e.free, f x = g x) → (∀ x ∈ e.binders, f x = g x) → e.rename f = e.rename g
  | .application l r s, f, g, hf, hb => by
    simp only [Snode.free, Snode.binders, List.mem_append] at hf hb
    simp only [Snode.rename]
    rw [Snode.rename_congr l (fun x hx => hf x (Or.inl hx)) (fun x hx => hb x (Or.inl hx)),
      Snode.rename_congr r (fun x hx => hf x (Or.inr hx)) (fun x hx => hb x (Or.inr hx))]
  | .lambda y b, f, g, hf, hb => by
    simp only [Snode.free, Snode.binders, List.mem_filter, decide_eq_true_eq,
      List.mem_cons] at hf hb
    simp only [Snode.rename]
    rw [hb y (Or.inl rfl), Snode.rename_congr b ?_ (fun x hx => hb x (Or.inr hx))]
    intro x hx
    by_cases hxy : x = y
    · subst hxy; exact hb x (Or.inl rfl)
    · exact hf x ⟨hx, hxy⟩
  | .letrec bs b, f, g, hf, hb => by
    simp only [Snode.free, Snode.binders, List.mem_filter, decide_eq_true_eq,
      List.mem_append] at hf hb
    have hfree : ∀ x, x ∈ bs.free ∨ x ∈ b.free → f x = g x := by
      intro x hx
      by_cases hxn : x ∈ bs.names
      · exact hb x (Or.inl ((bs.mem_binders x).mpr (Or.inl hxn)))
      · exact hf x ⟨hx, hxn⟩
    simp only [Snode.rename]
    rw [Letrec.rename_congr bs (fun x hx => hfree x (Or.inl hx)) (fun x hx => hb x (Or.inl hx)),
      Snode.rename_congr b (fun x hx => hfree x (Or.inr hx)) (fun x hx => hb x (Or.inr hx))]
  | .symbol y, f, g, hf, _ => by
    simp only [Snode.rename]
    rw [hf y (by simp [Snode.free])]
  | .builtin _, _, _, _, _ => rfl
  | .scref _, _, _, _, _ => rfl
  | .nil, _, _, _, _ => rfl
  | .number _, _, _, _, _ => rfl
  | .string _, _, _, _, _ => rfl

theorem Letrec.rename_congr : ∀ (bs : Letrec) {f g : String → String},
    (∀ x ∈ bs.free, f x = g x) → (∀ x ∈ bs.binders, f x = g x) → bs.rename f = bs.rename g
  | .done, _, _, _, _ => rfl
  | .bind y v s next, f, g, hf, hb => by
    simp only [Letrec.free, Letrec.binders, List.mem_append, List.mem_cons] at hf hb
    simp only [Letrec.rename]
    rw [hb y (Or.inl rfl),
      Snode.rename_congr v (fun x hx => hf x (Or.inl hx)) (fun x hx => hb x (Or.inr (Or.inl hx))),
      Letrec.rename_congr next (fun x hx => hf x (Or.inr hx))
        (fun x hx => hb x (Or.inr (Or.inr hx)))]

end

/-- The binders are distinct from one another and from the free symbols. -/
structure Snode.Distinct (e : Snode) : Prop where
  nodup : e.binders.Nodup
  free : ∀ x ∈ e.free, x ∉ e.binders

/-! ## The mapping stack -/

/-- The names on the left of the mappings were not given out from counter value `n` on. -/
def MapOld (n : Nat) (μ : Mappings) : Prop := ∀ m ∈ μ, Old n m.1

theorem renSym_cons (a b : String) (μ : Mappings) (x : String) :
    renSym ((a, b) :: μ) x = renSym μ (if a = x then b else x) := rfl

theorem renSym_fresh {n k : Nat} : ∀ {μ : Mappings}, MapOld n μ → n ≤ k →
    renSym μ (nextVar k) = nextVar k
  | [], _, _ => rfl
  | (a, b) :: μ, h, hk => by
    have ha : a ≠ nextVar k := h (a, b) List.mem_cons_self k hk
    rw [renSym_cons, if_neg ha]
    exact renSym_fresh (fun m hm => h m (List.mem_cons_of_mem _ hm)) hk

theorem mapOld_cons {n : Nat} {a b : String} {μ : Mappings} (ha : Old n a) (h : MapOld n μ) :
    MapOld n ((a, b) :: μ) := by
  intro m hm
  rcases List.mem_cons.mp hm with rfl | hm
  · exact ha
  · exact h m hm

theorem mapOld_pushNames {n0 : Nat} : ∀ (bs : Letrec) (n : Nat) {μ : Mappings}, MapOld n0 μ →
    (∀ x ∈ bs.names, Old n0 x) → MapOld n0 (pushNames n bs μ)
  | .done, _, _, h, _ => h
  | .bind x _ _ next, n, _, h, hx =>
    mapOld_pushNames next (n + 1) (mapOld_cons (hx x List.mem_cons_self) h)
      (fun y hy => hx y (List.mem_cons_of_mem _ hy))

theorem renSym_pushNames_other : ∀ (bs : Letrec) (n : Nat) (μ : Mappings) {x : String},
    x ∉ bs.names → renSym (pushNames n bs μ) x = renSym μ x
  | .done, _, _, _, _ => rfl
  | .bind y _ _ next, n, μ, x, hx => by
    simp only [Letrec.names, List.mem_cons, not_or] at hx
    rw [pushNames, renSym_pushNames_other next (n + 1) _ hx.2, renSym_cons, if_neg (Ne.symm hx.1)]

theorem renSym_pushNames {n0 : Nat} : ∀ (bs : Letrec) (n : Nat) (μ : Mappings), n0 ≤ n →
    MapOld n0 μ → bs.names.Nodup → (∀ x ∈ bs.names, Old n0 x) →
    ∀ i x, bs.names[i]? = some x → renSym (pushNames n bs μ) x = nextVar (n + i)
  | .done, _, _, _, _, _, _, i, x, h => by simp [Letrec.names] at h
  | .bind y _ _ next, n, μ, hn, hμ, hnd, hold, i, x, h => by
    simp only [Letrec.names, List.nodup_cons] at hnd hold h
    rw [pushNames]
    cases i with
    | zero =>
      simp only [List.getElem?_cons_zero, Option.some.injEq] at h
      subst h
      rw [renSym_pushNames_other next _ _ hnd.1, renSym_cons, if_pos rfl]
      exact renSym_fresh hμ hn
    | succ i =>
      rw [List.getElem?_cons_succ] at h
      rw [renSym_pushNames next (n + 1) _ (by omega)
        (mapOld_cons (hold y List.mem_cons_self) hμ) hnd.2
        (fun z hz => hold z (List.mem_cons_of_mem _ hz)) i x h]
      congr 1
      omega

/-! ## `rename_variables_r` is a uniform renaming -/

/-- The renaming of a tree: binders go to the fresh names with the numbers `g` gives them, free
symbols where the mapping stack sends them. -/
def renFun (binders : List String) (g : String → Nat) (μ : Mappings) (x : String) : String :=
  if x ∈ binders then nextVar (g x) else renSym μ x

theorem renFun_mem {l : List String} {g : String → Nat} {μ : Mappings} {x : String} (h : x ∈ l) :
    renFun l g μ x = nextVar (g x) := if_pos h

theorem renFun_not_mem {l : List String} {g : String → Nat} {μ : Mappings} {x : String}
    (h : x ∉ l) : renFun l g μ x = renSym μ x := if_neg h

/-- What a renaming from counter `n` to counter `n'` says of the numbers of the binders `l`. -/
structure Numbers (l : List String) (g : String → Nat) (n n' : Nat) : Prop where
  le : n ≤ n'
  range : ∀ x ∈ l, n ≤ g x ∧ g x < n'
  inj : ∀ x ∈ l, ∀ y ∈ l, g x = g y → x = y

/-- Two runs of the counter, one after the other. -/
theorem Numbers.append {l l' : List String} {g g' : String → Nat} {n n' n'' : Nat}
    (h : Numbers l g n n') (h' : Numbers l' g' n' n'') :
    Numbers (l ++ l') (fun x => if x ∈ l then g x else g' x) n n'' where
  le := h.le.trans h'.le
  range := by
    have hle := h.le
    have hle' := h'.le
    intro x hx
    by_cases hl : x ∈ l
    · have := h.range x hl
      simp only [hl, if_true]
      omega
    · have := h'.range x ((List.mem_append.mp hx).resolve_left hl)
      simp only [hl, if_false]
      omega
  inj := by
    intro x hx y hy he
    by_cases hl : x ∈ l <;> by_cases hl' : y ∈ l <;> simp only [hl, hl', if_true, if_false] at he
    · exact h.inj x hl y hl' he
    · have h1 := h.range x hl
      have h2 := h'.range y ((List.mem_append.mp hy).resolve_left hl')
      omega
    · have h1 := h'.range x ((List.mem_append.mp hx).resolve_left hl)
      have h2 := h.range y hl'
      omega
    · exact h'.inj x ((List.mem_append.mp hx).resolve_left hl) y
        ((List.mem_append.mp hy).resolve_left hl') he

theorem Numbers.congr {l l' : List String} {g : String → Nat} {n n' : Nat}
    (h : Numbers l g n n') (hl : ∀ x, x ∈ l' ↔ x ∈ l) : Numbers l' g n n' :=
  ⟨h.le, fun x hx => h.range x ((hl x).mp hx),
    fun x hx y hy => h.inj x ((hl x).mp hx) y ((hl y).mp hy)⟩

/-- The numbers of the bindings of a letrec: consecutive from `k` on. -/
theorem numbers_names : ∀ (l : List String) (k : Nat), l.Nodup →
    Numbers l (fun x => k + l.idxOf x) k (k + l.length) := by
  intro l k hnd
  refine ⟨by omega, ?_, ?_⟩
  · intro x hx
    have := List.idxOf_lt_length_iff.mpr hx
    omega
  · intro x hx y hy he
    have h1 : l.idxOf x = l.idxOf y := by omega
    exact (List.idxOf_inj hx).mp h1

theorem Snode.Distinct.left {l r : Snode} {s : Bool} (h : (Snode.application l r s).Distinct) :
    l.Distinct := by
  have h1 := h.nodup
  simp only [Snode.binders, List.nodup_append] at h1
  refine ⟨h1.1, fun x hx hb => ?_⟩
  exact h.free x (by simp [Snode.free, hx]) (by simp [Snode.binders, hb])

theorem Snode.Distinct.right {l r : Snode} {s : Bool} (h : (Snode.application l r s).Distinct) :
    r.Distinct := by
  have h1 := h.nodup
  simp only [Snode.binders, List.nodup_append] at h1
  refine ⟨h1.2.1, fun x hx hb => ?_⟩
  exact h.free x (by simp [Snode.free, hx]) (by simp [Snode.binders, hb])

theorem Snode.Distinct.lambda_body {y : String} {b : Snode}
    (h : (Snode.lambda y b).Distinct) : b.Distinct := by
  have h1 := h.nodup
  simp only [Snode.binders, List.nodup_cons] at h1
  refine ⟨h1.2, fun x hx hb => ?_⟩
  have hxy : x ≠ y := fun e => h1.1 (e ▸ hb)
  exact h.free x (by simp [Snode.free, hx, hxy]) (by simp [Snode.binders, hb])

/-- The same for the bindings of a letrec: the binders inside the values are distinct from one
another, from the names and from the free symbols of the values. -/
structure Letrec.Distinct (bs : Letrec) : Prop where
  names : bs.names.Nodup
  nodup : bs.inner.Nodup
  disjoint : ∀ x ∈ bs.names, x ∉ bs.inner
  free : ∀ x ∈ bs.free, x ∉ bs.inner

theorem Letrec.names_inner_disjoint {bs : Letrec} (h : bs.binders.Nodup) {x : String}
    (hx : x ∈ bs.names) : x ∉ bs.inner := by
  have h1 := (bs.binders_perm.nodup_iff).mp h
  rw [List.nodup_append] at h1
  exact fun hi => h1.2.2 x hx x hi rfl

theorem Snode.Distinct.bindings {bs : Letrec} {b : Snode} (h : (Snode.letrec bs b).Distinct) :
    bs.Distinct := by
  have h1 := h.nodup
  simp only [Snode.binders, List.nodup_append] at h1
  have h2 := (bs.binders_perm.nodup_iff).mp h1.1
  rw [List.nodup_append] at h2
  refine ⟨h2.1, h2.2.1, fun x hx => Letrec.names_inner_disjoint h1.1 hx, fun x hx hi => ?_⟩
  have hxn : x ∉ bs.names := fun hn => Letrec.names_inner_disjoint h1.1 hn hi
  refine h.free x (by simp [Snode.free, hx, hxn]) ?_
  simp [Snode.binders, (bs.mem_binders x).mpr (Or.inr hi)]

theorem Snode.Distinct.letrec_body {bs : Letrec} {b : Snode} (h : (Snode.letrec bs b).Distinct) :
    b.Distinct := by
  have h1 := h.nodup
  simp only [Snode.binders, List.nodup_append] at h1
  refine ⟨h1.2.1, fun x hx hb => ?_⟩
  have hxn : x ∉ bs.names := fun hn =>
    h1.2.2 x ((bs.mem_binders x).mpr (Or.inl hn)) x hb rfl
  exact h.free x (by simp [Snode.free, hx, hxn]) (by simp [Snode.binders, hb])

theorem Letrec.Distinct.value {y : String} {v : Snode} {s : Bool} {next : Letrec}
    (h : (Letrec.bind y v s next).Distinct) : v.Distinct := by
  have h1 := h.nodup
  simp only [Letrec.inner, List.nodup_append] at h1
  exact ⟨h1.1, fun x hx hb => h.free x (by simp [Letrec.free, hx]) (by simp [Letrec.inner, hb])⟩

theorem Letrec.Distinct.next {y : String} {v : Snode} {s : Bool} {next : Letrec}
    (h : (Letrec.bind y v s next).Distinct) : next.Distinct := by
  have h1 := h.nodup
  have h2 := h.names
  simp only [Letrec.inner, List.nodup_append] at h1
  simp only [Letrec.names, List.nodup_cons] at h2
  exact ⟨h2.2, h1.2.1,
    fun x hx hb => h.disjoint x (by simp [Letrec.names, hx]) (by simp [Letrec.inner, hb]),
    fun x hx hb => h.free x (by simp [Letrec.free, hx]) (by simp [Letrec.inner, hb])⟩

mutual

theorem renameVariablesR_spec {n0 : Nat} : ∀ (e : Snode) (n : Nat) (μ : Mappings), n0 ≤ n →
    MapOld n0 μ → e.Distinct → (∀ x ∈ e.binders, Old n0 x) →
    ∃ g, (renameVariablesR n μ e).1 = e.rename (renFun e.binders g μ) ∧
      Numbers e.binders g n (renameVariablesR n μ e).2
  | .application l r s, n, μ, hn, hμ, hd, hold => by
    simp only [Snode.binders, List.mem_append] at hold
    obtain ⟨gl, hl, hnl⟩ := renameVariablesR_spec l n μ hn hμ hd.left
      (fun x hx => hold x (Or.inl hx))
    obtain ⟨gr, hr, hnr⟩ := renameVariablesR_spec r (renameVariablesR n μ l).2 μ
      (hn.trans hnl.le) hμ hd.right (fun x hx => hold x (Or.inr hx))
    have hnd := hd.nodup
    simp only [Snode.binders, List.nodup_append] at hnd
    have hfree := hd.free
    simp only [Snode.free, Snode.binders, List.mem_append, not_or] at hfree
    refine ⟨_, ?_, hnl.append hnr⟩
    simp only [renameVariablesR, Snode.rename, Snode.binders, hl, hr]
    congr 1
    · apply Snode.rename_congr l
      · intro x hx
        have := hfree x (Or.inl hx)
        rw [renFun_not_mem this.1, renFun_not_mem (by simp [this])]
      · intro x hx
        rw [renFun_mem hx, renFun_mem (by simp [hx]), if_pos hx]
    · apply Snode.rename_congr r
      · intro x hx
        have := hfree x (Or.inr hx)
        rw [renFun_not_mem this.2, renFun_not_mem (by simp [this])]
      · intro x hx
        have hxl : x ∉ l.binders := fun h => hnd.2.2 x h x hx rfl
        rw [renFun_mem hx, renFun_mem (by simp [hx]), if_neg hxl]
  | .lambda y b, n, μ, hn, hμ, hd, hold => by
    simp only [Snode.binders, List.mem_cons] at hold
    obtain ⟨g, hb, hnb⟩ := renameVariablesR_spec b (n + 1) ((y, nextVar n) :: μ) (by omega)
      (mapOld_cons (hold y (Or.inl rfl)) hμ) hd.lambda_body (fun x hx => hold x (Or.inr hx))
    have hnd := hd.nodup
    simp only [Snode.binders, List.nodup_cons] at hnd
    have hone : Numbers [y] (fun _ => n) n (n + 1) :=
      ⟨by omega, fun x _ => by omega, fun x hx z hz _ => by simp_all⟩
    refine ⟨_, ?_, hone.append hnb⟩
    simp only [renameVariablesR, Snode.rename, Snode.binders, hb]
    congr 1
    · rw [renFun_mem List.mem_cons_self, if_pos List.mem_cons_self]
    · apply Snode.rename_congr b
      · intro x hx
        have hxb : x ∉ b.binders := hd.lambda_body.free x hx
        rw [renFun_not_mem hxb, renSym_cons]
        by_cases hxy : y = x
        · subst hxy
          rw [if_pos rfl, renFun_mem List.mem_cons_self, if_pos List.mem_cons_self,
            renSym_fresh hμ hn]
        · rw [if_neg hxy, renFun_not_mem (by simp [hxb, Ne.symm hxy])]
      · intro x hx
        have hxy : x ≠ y := fun e => hnd.1 (e ▸ hx)
        rw [renFun_mem hx, renFun_mem (by simp [hx]), if_neg (by simpa using hxy)]
  | .letrec bs b, n, μ, hn, hμ, hd, hold => by
    simp only [Snode.binders, List.mem_append] at hold
    have hnames : ∀ x ∈ bs.names, Old n0 x := fun x hx =>
      hold x (Or.inl ((bs.mem_binders x).mpr (Or.inl hx)))
    have hμ' := mapOld_pushNames bs n hμ hnames
    have hpush := renSym_pushNames bs n μ hn hμ hd.bindings.names hnames
    obtain ⟨gi, hi, hni⟩ := renameBindings_spec bs (n + bs.names.length) n (pushNames n bs μ)
      (by omega) hμ' hd.bindings
      (fun x hx => hold x (Or.inl ((bs.mem_binders x).mpr (Or.inr hx)))) hpush
    obtain ⟨gb, hb, hnb⟩ := renameVariablesR_spec b
      (renameBindings (n + bs.names.length) n (pushNames n bs μ) bs).2 (pushNames n bs μ)
      (hn.trans ((Nat.le_add_right _ _).trans hni.le)) hμ' hd.letrec_body
      (fun x hx => hold x (Or.inr hx))
    have hnum := ((numbers_names bs.names n hd.bindings.names).append hni).append hnb
    have hmem : ∀ x, x ∈ (Snode.letrec bs b).binders ↔
        x ∈ (bs.names ++ bs.inner) ++ b.binders := by
      intro x
      simp only [Snode.binders, List.mem_append, bs.mem_binders x]
    have hnd := hd.nodup
    simp only [Snode.binders, List.nodup_append] at hnd
    -- a name of the letrec is mapped by the stack of the body to the number of its position
    have hsym : ∀ x ∈ bs.names, renSym (pushNames n bs μ) x = nextVar (n + bs.names.idxOf x) :=
      fun x hx => hpush _ x (by rw [List.getElem?_eq_getElem (List.idxOf_lt_length_iff.mpr hx),
        List.getElem_idxOf])
    -- the symbols below the letrec: names of it, or symbols that are free in it
    have hfree : ∀ x, x ∈ bs.free ∨ x ∈ b.free → x ∉ bs.names →
        renFun (Snode.letrec bs b).binders
          (fun x => if x ∈ bs.names ++ bs.inner then
            if x ∈ bs.names then n + bs.names.idxOf x else gi x else gb x) μ x =
          renSym (pushNames n bs μ) x := by
      intro x hx hxn
      have := hd.free x (by simpa [Snode.free, hxn] using hx)
      rw [renFun_not_mem this, renSym_pushNames_other bs n μ hxn]
    have hname : ∀ x ∈ bs.names,
        renFun (Snode.letrec bs b).binders
          (fun x => if x ∈ bs.names ++ bs.inner then
            if x ∈ bs.names then n + bs.names.idxOf x else gi x else gb x) μ x =
          renSym (pushNames n bs μ) x := by
      intro x hx
      rw [renFun_mem ((hmem x).mpr (by simp [hx])), hsym x hx]
      simp [hx]
    refine ⟨_, ?_, hnum.congr hmem⟩
    simp only [renameVariablesR, Snode.rename, hi, hb]
    congr 1
    · apply Letrec.rename_congr bs
      · intro x hx
        rw [renFun_not_mem (hd.bindings.free x hx)]
        by_cases hxn : x ∈ bs.names
        · exact (hname x hxn).symm
        · exact (hfree x (Or.inl hx) hxn).symm
      · intro x hx
        rcases (bs.mem_binders x).mp hx with hxn | hxi
        · rw [renFun_not_mem (Letrec.names_inner_disjoint hnd.1 hxn)]
          exact (hname x hxn).symm
        · have hxn : x ∉ bs.names := fun h => Letrec.names_inner_disjoint hnd.1 h hxi
          rw [renFun_mem hxi, renFun_mem ((hmem x).mpr (by simp [hxi]))]
          simp [hxn, hxi]
    · apply Snode.rename_congr b
      · intro x hx
        rw [renFun_not_mem (hd.letrec_body.free x hx)]
        by_cases hxn : x ∈ bs.names
        · exact (hname x hxn).symm
        · exact (hfree x (Or.inr hx) hxn).symm
      · intro x hx
        have hxb : x ∉ bs.binders := fun h => hnd.2.2 x h x hx rfl
        rw [bs.mem_binders, not_or] at hxb
        rw [renFun_mem hx, renFun_mem ((hmem x).mpr (by simp [hx]))]
        simp [hxb]
  | .symbol x, n, μ, _, _, _, _ => by
    refine ⟨fun _ => 0, ?_, ⟨le_refl n, ?_, ?_⟩⟩ <;>
      simp [renameVariablesR, Snode.rename, Snode.binders, renFun]
  | .builtin b, n, μ, _, _, _, _ =>
    ⟨fun _ => 0, rfl, ⟨le_refl n, by simp [Snode.binders], by simp [Snode.binders]⟩⟩
  | .scref i, n, μ, _, _, _, _ =>
    ⟨fun _ => 0, rfl, ⟨le_refl n, by simp [Snode.binders], by simp [Snode.binders]⟩⟩
  | .nil, n, μ, _, _, _, _ =>
    ⟨fun _ => 0, rfl, ⟨le_refl n, by simp [Snode.binders], by simp [Snode.binders]⟩⟩
  | .number d, n, μ, _, _, _, _ =>
    ⟨fun _ => 0, rfl, ⟨le_refl n, by simp [Snode.binders], by simp [Snode.binders]⟩⟩
  | .string s, n, μ, _, _, _, _ =>
    ⟨fun _ => 0, rfl, ⟨le_refl n, by simp [Snode.binders], by simp [Snode.binders]⟩⟩

theorem renameBindings_spec {n0 : Nat} : ∀ (bs : Letrec) (n k : Nat) (μ : Mappings), n0 ≤ n →
    MapOld n0 μ → bs.Distinct → (∀ x ∈ bs.inner, Old n0 x) →
    (∀ i x, bs.names[i]? = some x → renSym μ x = nextVar (k + i)) →
    ∃ g, (renameBindings n k μ bs).1 = bs.rename (renFun bs.inner g μ) ∧
      Numbers bs.inner g n (renameBindings n k μ bs).2
  | .done, n, k, μ, _, _, _, _, _ =>
    ⟨fun _ => 0, rfl, ⟨le_refl n, by simp [Letrec.inner], by simp [Letrec.inner]⟩⟩
  | .bind y v s next, n, k, μ, hn, hμ, hd, hold, hk => by
    simp only [Letrec.inner, List.mem_append] at hold
    obtain ⟨gv, hv, hnv⟩ := renameVariablesR_spec v n μ hn hμ hd.value
      (fun x hx => hold x (Or.inl hx))
    obtain ⟨gn, hx, hnn⟩ := renameBindings_spec next (renameVariablesR n μ v).2 (k + 1) μ
      (hn.trans hnv.le) hμ hd.next (fun x hx => hold x (Or.inr hx))
      (fun i x h => by rw [hk (i + 1) x h]; congr 1; omega)
    have hnd := hd.nodup
    have hdis := hd.disjoint
    have hfree := hd.free
    simp only [Letrec.inner, List.nodup_append] at hnd
    simp only [Letrec.names, Letrec.inner, List.mem_cons, List.mem_append, not_or] at hdis
    simp only [Letrec.free, Letrec.inner, List.mem_append, not_or] at hfree
    refine ⟨_, ?_, hnv.append hnn⟩
    simp only [renameBindings, Letrec.rename, Letrec.inner, hv, hx]
    congr 1
    · rw [renFun_not_mem (by simp [hdis y (Or.inl rfl)])]
      exact (hk 0 y rfl).symm
    · apply Snode.rename_congr v
      · intro x hx
        have := hfree x (Or.inl hx)
        rw [renFun_not_mem this.1, renFun_not_mem (by simp [this])]
      · intro x hx
        rw [renFun_mem hx, renFun_mem (by simp [hx]), if_pos hx]
    · apply Letrec.rename_congr next
      · intro x hx
        have := hfree x (Or.inr hx)
        rw [renFun_not_mem this.2, renFun_not_mem (by simp [this])]
      · intro x hx
        rcases (next.mem_binders x).mp hx with hxn | hxi
        · have := hdis x (Or.inr hxn)
          rw [renFun_not_mem this.2, renFun_not_mem (by simp [this])]
        · have hxv : x ∉ v.binders := fun h => hnd.2.2 x h x hxi rfl
          rw [renFun_mem hxi, renFun_mem (by simp [hxi]), if_neg hxv]

end

end Compiler
end NReduce
