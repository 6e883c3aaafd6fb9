import NReduce.Compiler.Renaming
import Mathlib.Data.List.Forall2

/-!
# NReduce.Compiler.RenameAlpha

`rename_variables` as alpha conversion, for trees whose binders may shadow one another in any way.

The reference is the nameless form of a tree: a symbol becomes the distance to its binder, or stays
as it is when no binder in scope has its name. Two trees with one nameless form differ only in the
names of their bound variables.

Main results:
* `nextVar_ne_makeVarname`: generated names never meet names of the source text.
* `nameless_renameVariablesR`: renaming keeps the nameless form.
* `rename_variables_alpha`: the same for the supercombinators of a whole program, with all binders
  of the result distinct.
-/

namespace NReduce
namespace Compiler

/-- `make_varname`: names that begin like a generated one get an underscore at the end. -/
def makeVarname (want : String) : String :=
  if "_v".toList.isPrefixOf want.toList then want ++ "_" else want

theorem nextVar_toList (k : Nat) : (nextVar k).toList = ['_', 'v'] ++ Nat.toDigits 10 k := by
  simp [nextVar, ← Nat.toList_repr]

theorem nextVar_ne_makeVarname (k : Nat) (want : String) : makeVarname want ≠ nextVar k := by
  intro h
  have hl := congrArg String.toList h
  rw [nextVar_toList] at hl
  unfold makeVarname at hl
  split at hl
  · -- the last character is an underscore on the left and a digit on the right
    have hne : Nat.toDigits 10 k ≠ [] := by
      intro h0
      have hlen := Nat.length_toDigits_pos (b := 10) (n := k)
      rw [h0] at hlen
      simp at hlen
    have hlast := congrArg List.getLast? hl
    rw [List.getLast?_append_of_ne_nil _ hne, String.toList_append] at hlast
    simp only [List.getLast?_append] at hlast
    have hmem : '_' ∈ Nat.toDigits 10 k := by
      apply List.mem_of_getLast?
      rw [← hlast]
      rfl
    have hdigit : '_'.isDigit = true := Nat.isDigit_of_mem_toDigits (by decide) (by decide) hmem
    exact absurd hdigit (by decide)
  · rename_i hp
    rw [hl] at hp
    exact hp (by simp)

/-- A name as the grammar makes it. -/
def SourceName (x : String) : Prop := ∃ want, x = makeVarname want

theorem SourceName.old {x : String} (h : SourceName x) (n : Nat) : Old n x := by
  obtain ⟨want, rfl⟩ := h
  exact fun k _ => nextVar_ne_makeVarname k want

/-! ## Nameless form -/

mutual

/-- A tree without names of bound variables: `bound i` is a symbol with `i` binders between it and
the one it refers to. -/
inductive Nameless where
  | application (left right : Nameless) (strict : Bool)
  | lambda (body : Nameless)
  | builtin (b : Bif)
  | bound (i : Nat)
  | free (name : String)
  | letrec (bindings : NamelessLetrec) (body : Nameless)
  | scref (sc : Nat)
  | nil
  | number (num : Double)
  | string (value : String)

inductive NamelessLetrec where
  | done
  | bind (value : Nameless) (strict : Bool) (next : NamelessLetrec)

end

mutual

/-- The nameless form of a tree below the binders of `scope`, the innermost first. All names of a
letrec are in scope in its values and in its body, a later one before an earlier one. -/
def Snode.nameless (scope : List String) : Snode → Nameless
  | .application l r s => .application (l.nameless scope) (r.nameless scope) s
  | .lambda x b => .lambda (b.nameless (x :: scope))
  | .letrec bs b =>
    .letrec (bs.nameless (bs.names.reverse ++ scope)) (b.nameless (bs.names.reverse ++ scope))
  | .symbol x => if x ∈ scope then .bound (scope.idxOf x) else .free x
  | .builtin b => .builtin b
  | .scref i => .scref i
  | .nil => .nil
  | .number d => .number d
  | .string s => .string s

def Letrec.nameless (scope : List String) : Letrec → NamelessLetrec
  | .done => .done
  | .bind _ v s next => .bind (v.nameless scope) s (next.nameless scope)

end

mutual

/-- The names of all binders and symbols of a tree. -/
def Snode.allNames : Snode → List String
  | .application l r _ => l.allNames ++ r.allNames
  | .lambda x b => x :: b.allNames
  | .letrec bs b => bs.allNames ++ b.allNames
  | .symbol x => [x]
  | .builtin _ | .scref _ | .nil | .number _ | .string _ => []

def Letrec.allNames : Letrec → List String
  | .done => []
  | .bind x v _ next => x :: (v.allNames ++ next.allNames)

end

theorem Letrec.names_subset_allNames : ∀ bs : Letrec, bs.names ⊆ bs.allNames
  | .done => List.Subset.refl _
  | .bind x v _ next => by
    simp only [Letrec.names, Letrec.allNames]
    exact List.cons_subset_cons _ (List.subset_append_of_subset_right _ next.names_subset_allNames)

/-! ## The mapping stack as two scopes -/

/-- What the stack of mappings is while the counter of `next_var` is at `n`: names of the source
text on the left, distinct generated names on the right. -/
structure ScopeMap (n : Nat) (μ : Mappings) : Prop where
  source : ∀ m ∈ μ, SourceName m.1
  given : ∀ m ∈ μ, ∃ k < n, m.2 = nextVar k
  nodup : (μ.map Prod.snd).Nodup

theorem ScopeMap.nil (n : Nat) : ScopeMap n [] := ⟨by simp, by simp, by simp⟩

theorem ScopeMap.mono {n n' : Nat} {μ : Mappings} (h : ScopeMap n μ) (hn : n ≤ n') :
    ScopeMap n' μ := by
  refine ⟨h.source, fun m hm => ?_, h.nodup⟩
  obtain ⟨k, hk, hm⟩ := h.given m hm
  exact ⟨k, by omega, hm⟩

theorem ScopeMap.mapOld {n : Nat} {μ : Mappings} (h : ScopeMap n μ) : MapOld 0 μ :=
  fun m hm => (h.source m hm).old 0

theorem ScopeMap.push {n : Nat} {μ : Mappings} {x : String} (h : ScopeMap n μ)
    (hx : SourceName x) : ScopeMap (n + 1) ((x, nextVar n) :: μ) := by
  refine ⟨?_, ?_, ?_⟩
  · intro m hm
    rcases List.mem_cons.mp hm with rfl | hm
    · exact hx
    · exact h.source m hm
  · intro m hm
    rcases List.mem_cons.mp hm with rfl | hm
    · exact ⟨n, by omega, rfl⟩
    · exact (h.mono (by omega)).given m hm
  · rw [List.map_cons, List.nodup_cons]
    refine ⟨fun hm => ?_, h.nodup⟩
    obtain ⟨m, hm, he⟩ := List.mem_map.mp hm
    obtain ⟨k, hk, hm⟩ := h.given m hm
    have := nextVar_inj (hm.symm.trans he)
    omega

theorem ScopeMap.pushNames : ∀ (bs : Letrec) {n : Nat} {μ : Mappings}, ScopeMap n μ →
    (∀ x ∈ bs.names, SourceName x) → ScopeMap (n + bs.names.length) (pushNames n bs μ)
  | .done, _, _, h, _ => h
  | .bind x _ _ next, n, μ, h, hx => by
    have := ScopeMap.pushNames next (h.push (hx x List.mem_cons_self))
      (fun y hy => hx y (List.mem_cons_of_mem _ hy))
    simp only [Letrec.names, List.length_cons, Compiler.pushNames]
    rwa [Nat.add_right_comm, Nat.add_assoc] at this

theorem pushNames_fst : ∀ (bs : Letrec) (n : Nat) (μ : Mappings),
    (pushNames n bs μ).map Prod.fst = bs.names.reverse ++ μ.map Prod.fst
  | .done, _, _ => rfl
  | .bind x _ _ next, n, μ => by
    rw [pushNames, pushNames_fst next]
    simp [Letrec.names]

/-- The names that the first loop of the letrec case gives out. -/
def givenNames (n : Nat) : Nat → List String
  | 0 => []
  | k + 1 => nextVar n :: givenNames (n + 1) k

theorem pushNames_snd : ∀ (bs : Letrec) (n : Nat) (μ : Mappings),
    (pushNames n bs μ).map Prod.snd = (givenNames n bs.names.length).reverse ++ μ.map Prod.snd
  | .done, _, _ => rfl
  | .bind x _ _ next, n, μ => by
    rw [pushNames, pushNames_snd next]
    simp [Letrec.names, givenNames]

theorem renameBindings_names : ∀ (bs : Letrec) (n k : Nat) (μ : Mappings),
    (renameBindings n k μ bs).1.names = givenNames k bs.names.length
  | .done, _, _, _ => rfl
  | .bind x v s next, n, k, μ => by
    simp only [renameBindings, Letrec.names, List.length_cons, givenNames]
    rw [renameBindings_names next]

/-- The scan of the whole stack ends at the name given to the innermost binder. -/
theorem renSym_find {n : Nat} : ∀ {μ : Mappings}, ScopeMap n μ → ∀ {x : String}, SourceName x →
    (x ∉ μ.map Prod.fst ∧ renSym μ x = x) ∨
    (x ∈ μ.map Prod.fst ∧ (μ.map Prod.snd)[(μ.map Prod.fst).idxOf x]? = some (renSym μ x))
  | [], _, x, _ => Or.inl ⟨by simp, rfl⟩
  | (a, b) :: μ, h, x, hx => by
    have htail : ScopeMap n μ :=
      ⟨fun m hm => h.source m (List.mem_cons_of_mem _ hm),
        fun m hm => h.given m (List.mem_cons_of_mem _ hm), (List.nodup_cons.mp h.nodup).2⟩
    rw [renSym_cons]
    by_cases hax : a = x
    · subst hax
      obtain ⟨k, -, hb⟩ := h.given (a, b) List.mem_cons_self
      -- the name just found is a generated one, which no mapping below has on its left
      have hstop : renSym μ b = b := by
        simp only at hb
        rw [hb]
        exact renSym_fresh htail.mapOld (Nat.zero_le k)
      right
      simp [hstop]
    · rw [if_neg hax]
      rcases renSym_find htail hx with ⟨hn, hs⟩ | ⟨hm, hs⟩
      · left
        exact ⟨by simpa [hn] using Ne.symm hax, hs⟩
      · right
        refine ⟨List.mem_cons_of_mem _ hm, ?_⟩
        rw [List.map_cons, List.map_cons, List.idxOf_cons_ne _ hax, List.getElem?_cons_succ]
        exact hs

/-- A symbol and its image refer to the same binder. -/
theorem nameless_renSym {n : Nat} {μ : Mappings} (h : ScopeMap n μ) {x : String}
    (hx : SourceName x) : (Snode.symbol (renSym μ x)).nameless (μ.map Prod.snd) =
      (Snode.symbol x).nameless (μ.map Prod.fst) := by
  simp only [Snode.nameless]
  rcases renSym_find h hx with ⟨hn, hs⟩ | ⟨hm, hs⟩
  · have hout : x ∉ μ.map Prod.snd := by
      intro hin
      obtain ⟨m, hm, he⟩ := List.mem_map.mp hin
      obtain ⟨k, -, hk⟩ := h.given m hm
      exact hx.old 0 k (Nat.zero_le k) (he.symm.trans hk)
    rw [hs, if_neg hn, if_neg hout]
  · obtain ⟨hlt, he⟩ := List.getElem?_eq_some_iff.mp hs
    have hidx : (μ.map Prod.snd).idxOf (renSym μ x) = (μ.map Prod.fst).idxOf x := by
      rw [← he]
      exact h.nodup.idxOf_getElem _ hlt
    rw [if_pos hm, if_pos (List.mem_of_getElem? hs), hidx]

/-! ## Renaming keeps the nameless form -/

mutual

theorem le_renameVariablesR : ∀ (e : Snode) (n : Nat) (μ : Mappings),
    n ≤ (renameVariablesR n μ e).2
  | .application l r _, n, μ => by
    simp only [renameVariablesR]
    exact (le_renameVariablesR l n μ).trans (le_renameVariablesR r _ μ)
  | .lambda _ b, n, μ => by
    simp only [renameVariablesR]
    exact (Nat.le_succ n).trans (le_renameVariablesR b (n + 1) _)
  | .letrec bs b, n, μ => by
    simp only [renameVariablesR]
    exact (Nat.le_add_right n _).trans
      ((le_renameBindings bs _ n _).trans (le_renameVariablesR b _ _))
  | .symbol _, n, _ | .builtin _, n, _ | .scref _, n, _ | .nil, n, _ | .number _, n, _
  | .string _, n, _ => le_refl n

theorem le_renameBindings : ∀ (bs : Letrec) (n k : Nat) (μ : Mappings),
    n ≤ (renameBindings n k μ bs).2
  | .done, n, _, _ => le_refl n
  | .bind _ v _ next, n, k, μ => by
    simp only [renameBindings]
    exact (le_renameVariablesR v n μ).trans (le_renameBindings next _ (k + 1) μ)

end

mutual

theorem nameless_renameVariablesR : ∀ (e : Snode) {n : Nat} {μ : Mappings}, ScopeMap n μ →
    (∀ x ∈ e.allNames, SourceName x) →
    (renameVariablesR n μ e).1.nameless (μ.map Prod.snd) = e.nameless (μ.map Prod.fst)
  | .application l r s, n, μ, h, hs => by
    simp only [Snode.allNames, List.mem_append] at hs
    simp only [renameVariablesR, Snode.nameless]
    rw [nameless_renameVariablesR l h (fun x hx => hs x (Or.inl hx)),
      nameless_renameVariablesR r (h.mono (le_renameVariablesR l n μ))
        (fun x hx => hs x (Or.inr hx))]
  | .lambda x b, n, μ, h, hs => by
    simp only [Snode.allNames, List.mem_cons] at hs
    have hb := nameless_renameVariablesR b (h.push (hs x (Or.inl rfl)))
      (fun y hy => hs y (Or.inr hy))
    simp only [renameVariablesR, Snode.nameless]
    rw [← List.map_cons (f := Prod.fst) (a := (x, nextVar n)), ← hb]
    rfl
  | .letrec bs b, n, μ, h, hs => by
    simp only [Snode.allNames, List.mem_append] at hs
    have hpush := ScopeMap.pushNames bs h
      (fun x hx => hs x (Or.inl (bs.names_subset_allNames hx)))
    have hbs := nameless_renameBindings bs (k := n) hpush (fun x hx => hs x (Or.inl hx))
    have hb := nameless_renameVariablesR b
      (hpush.mono (le_renameBindings bs _ n (pushNames n bs μ))) (fun x hx => hs x (Or.inr hx))
    rw [pushNames_fst, pushNames_snd] at hbs hb
    simp only [renameVariablesR, Snode.nameless]
    rw [renameBindings_names, hbs, hb]
  | .symbol x, n, μ, h, hs => nameless_renSym h (hs x (List.mem_singleton_self x))
  | .builtin _, _, _, _, _ => rfl
  | .scref _, _, _, _, _ => rfl
  | .nil, _, _, _, _ => rfl
  | .number _, _, _, _, _ => rfl
  | .string _, _, _, _, _ => rfl

theorem nameless_renameBindings : ∀ (bs : Letrec) {n k : Nat} {μ : Mappings}, ScopeMap n μ →
    (∀ x ∈ bs.allNames, SourceName x) →
    (renameBindings n k μ bs).1.nameless (μ.map Prod.snd) = bs.nameless (μ.map Prod.fst)
  | .done, _, _, _, _, _ => rfl
  | .bind x v s next, n, k, μ, h, hs => by
    simp only [Letrec.allNames, List.mem_cons, List.mem_append] at hs
    simp only [renameBindings, Letrec.nameless]
    rw [nameless_renameVariablesR v h (fun y hy => hs y (Or.inr (Or.inl hy))),
      nameless_renameBindings next (h.mono (le_renameVariablesR v n μ))
        (fun y hy => hs y (Or.inr (Or.inr hy)))]

end

/-! ## The binders of the result -/

/-- The names are distinct and were given out while the counter went from `n` to `n'`. -/
structure Given (l : List String) (n n' : Nat) : Prop where
  le : n ≤ n'
  range : ∀ x ∈ l, ∃ k, n ≤ k ∧ k < n' ∧ x = nextVar k
  nodup : l.Nodup

theorem Given.nil (n : Nat) : Given [] n n := ⟨le_refl n, by simp, List.nodup_nil⟩

theorem Given.append {l l' : List String} {n n' n'' : Nat} (h : Given l n n')
    (h' : Given l' n' n'') : Given (l ++ l') n n'' := by
  have hle := h.le
  have hle' := h'.le
  refine ⟨by omega, fun x hx => ?_, ?_⟩
  · rcases List.mem_append.mp hx with hx | hx
    · obtain ⟨k, h1, h2, he⟩ := h.range x hx
      exact ⟨k, h1, by omega, he⟩
    · obtain ⟨k, h1, h2, he⟩ := h'.range x hx
      exact ⟨k, by omega, h2, he⟩
  · rw [List.nodup_append]
    refine ⟨h.nodup, h'.nodup, fun x hx y hy he => ?_⟩
    obtain ⟨j, -, hj, hxj⟩ := h.range x hx
    obtain ⟨k, hk, -, hyk⟩ := h'.range y hy
    have := nextVar_inj (hxj.symm.trans (he.trans hyk))
    omega

theorem Given.perm {l l' : List String} {n n' : Nat} (h : Given l n n') (hp : l'.Perm l) :
    Given l' n n' :=
  ⟨h.le, fun x hx => h.range x (hp.mem_iff.mp hx), hp.nodup_iff.mpr h.nodup⟩

theorem given_singleton (n : Nat) : Given [nextVar n] n (n + 1) :=
  ⟨by omega, fun x hx => ⟨n, le_refl n, by omega, List.mem_singleton.mp hx⟩,
    List.nodup_cons.mpr ⟨List.not_mem_nil, List.nodup_nil⟩⟩

theorem given_givenNames : ∀ (k n : Nat), Given (givenNames n k) n (n + k)
  | 0, n => Given.nil n
  | k + 1, n => by
    have := (given_singleton n).append (given_givenNames k (n + 1))
    rwa [Nat.add_right_comm, Nat.add_assoc] at this

mutual

theorem given_renameVariablesR : ∀ (e : Snode) (n : Nat) (μ : Mappings),
    Given (renameVariablesR n μ e).1.binders n (renameVariablesR n μ e).2
  | .application l r s, n, μ =>
    (given_renameVariablesR l n μ).append (given_renameVariablesR r _ μ)
  | .lambda x b, n, μ =>
    (given_singleton n).append (given_renameVariablesR b (n + 1) ((x, nextVar n) :: μ))
  | .letrec bs b, n, μ => by
    have hbs := given_renameBindings bs (n + bs.names.length) n (pushNames n bs μ)
    have hb := given_renameVariablesR b
      (renameBindings (n + bs.names.length) n (pushNames n bs μ) bs).2 (pushNames n bs μ)
    have hnames : Given (renameBindings (n + bs.names.length) n (pushNames n bs μ) bs).1.binders n
        (renameBindings (n + bs.names.length) n (pushNames n bs μ) bs).2 := by
      refine Given.perm ?_ (Letrec.binders_perm _)
      rw [renameBindings_names]
      exact (given_givenNames bs.names.length n).append hbs
    exact hnames.append hb
  | .symbol _, n, _ => Given.nil n
  | .builtin _, n, _ => Given.nil n
  | .scref _, n, _ => Given.nil n
  | .nil, n, _ => Given.nil n
  | .number _, n, _ => Given.nil n
  | .string _, n, _ => Given.nil n

theorem given_renameBindings : ∀ (bs : Letrec) (n k : Nat) (μ : Mappings),
    Given (renameBindings n k μ bs).1.inner n (renameBindings n k μ bs).2
  | .done, n, _, _ => Given.nil n
  | .bind _ v _ next, n, k, μ =>
    (given_renameVariablesR v n μ).append (given_renameBindings next _ (k + 1) μ)

end

/-! ## Supercombinators and programs -/

/-- `rename_variables`: the arguments get their names before the body is renamed. -/
def renameVariables (n : Nat) (sc : Scomb) : Scomb × Nat :=
  let newargnames := givenNames n sc.nargs
  let (body, n') := renameScBodyVariables (n + sc.nargs) sc.body sc.argnames newargnames
  ({ sc with argnames := newargnames, body := body }, n')

/-- The loop of `source_process` over all supercombinators. -/
def renameProgram (n : Nat) : List Scomb → List Scomb × Nat
  | [] => ([], n)
  | sc :: scs =>
    let (sc', n1) := renameVariables n sc
    let (scs', n2) := renameProgram n1 scs
    (sc' :: scs', n2)

/-- The names bound in a supercombinator: its arguments and the binders of its body. -/
def Scomb.bound (sc : Scomb) : List String := sc.argnames ++ sc.body.binders

/-- The symbols of the body that neither a binder nor an argument binds. -/
def Scomb.unbound (sc : Scomb) : List String := sc.body.free.filter (· ∉ sc.argnames)

/-- The nameless form of the body below the arguments, the last argument innermost. -/
def Scomb.nameless (sc : Scomb) : Nameless := sc.body.nameless sc.argnames.reverse

/-- All names of the supercombinator come from the grammar. -/
def Scomb.Parsed (sc : Scomb) : Prop :=
  (∀ x ∈ sc.argnames, SourceName x) ∧ ∀ x ∈ sc.body.allNames, SourceName x

/-- Equal but for the names of bound variables: the arguments, the binders of the body and the
symbols that refer to them. -/
structure AlphaEquiv (sc sc' : Scomb) : Prop where
  nargs : sc'.nargs = sc.nargs
  nameless : sc'.nameless = sc.nameless
  others : sc' = { sc with argnames := sc'.argnames, body := sc'.body }

mutual

/-- The symbols that a nameless tree keeps by name. -/
def Nameless.frees : Nameless → List String
  | .application l r _ => l.frees ++ r.frees
  | .lambda b => b.frees
  | .letrec bs b => bs.frees ++ b.frees
  | .free x => [x]
  | .bound _ | .builtin _ | .scref _ | .nil | .number _ | .string _ => []

def NamelessLetrec.frees : NamelessLetrec → List String
  | .done => []
  | .bind v _ next => v.frees ++ next.frees

end

mutual

theorem frees_nameless : ∀ (e : Snode) (scope : List String),
    (e.nameless scope).frees = e.free.filter (· ∉ scope)
  | .application l r s, scope => by
    simp only [Snode.nameless, Nameless.frees, Snode.free, List.filter_append]
    rw [frees_nameless l scope, frees_nameless r scope]
  | .lambda x b, scope => by
    simp only [Snode.nameless, Nameless.frees, Snode.free, List.filter_filter]
    rw [frees_nameless b (x :: scope)]
    apply List.filter_congr
    intro y _
    simp [Bool.and_comm]
  | .letrec bs b, scope => by
    simp only [Snode.nameless, Nameless.frees, Snode.free, List.filter_filter, List.filter_append]
    rw [frees_namelessLetrec bs, frees_nameless b]
    congr 1 <;>
    · apply List.filter_congr
      intro y _
      simp [Bool.and_comm]
  | .symbol x, scope => by
    by_cases hx : x ∈ scope <;> simp [Snode.nameless, Nameless.frees, Snode.free, hx]
  | .builtin _, _ | .scref _, _ | .nil, _ | .number _, _ | .string _, _ => rfl

theorem frees_namelessLetrec : ∀ (bs : Letrec) (scope : List String),
    (bs.nameless scope).frees = bs.free.filter (· ∉ scope)
  | .done, _ => rfl
  | .bind _ v _ next, scope => by
    simp only [Letrec.nameless, NamelessLetrec.frees, Letrec.free, List.filter_append]
    rw [frees_nameless v scope, frees_namelessLetrec next scope]

end

theorem Scomb.unbound_eq (sc : Scomb) : sc.unbound = sc.nameless.frees := by
  unfold Scomb.unbound Scomb.nameless
  rw [frees_nameless]
  apply List.filter_congr
  intro x _
  simp

theorem length_givenNames : ∀ (k n : Nat), (givenNames n k).length = k
  | 0, _ => rfl
  | k + 1, n => by rw [givenNames, List.length_cons, length_givenNames k]

theorem ScopeMap.args : ∀ (args : List String) {n : Nat} {μ : Mappings}, ScopeMap n μ →
    (∀ x ∈ args, SourceName x) →
    ScopeMap (n + args.length) ((args.zip (givenNames n args.length)).reverse ++ μ)
  | [], _, _, h, _ => h
  | x :: args, n, μ, h, hx => by
    have := ScopeMap.args args (h.push (hx x List.mem_cons_self))
      (fun y hy => hx y (List.mem_cons_of_mem _ hy))
    simp only [List.length_cons, givenNames, List.zip_cons_cons, List.reverse_cons,
      List.append_assoc, List.singleton_append]
    rwa [Nat.add_right_comm, Nat.add_assoc] at this

theorem renameVariables_alpha (n : Nat) {sc : Scomb} (h : sc.Parsed) :
    AlphaEquiv sc (renameVariables n sc).1 := by
  refine ⟨length_givenNames _ _, ?_, rfl⟩
  have hμ := ScopeMap.args sc.argnames (ScopeMap.nil n) h.1
  rw [List.append_nil] at hμ
  have he := nameless_renameVariablesR sc.body hμ h.2
  rw [List.map_reverse, List.map_reverse, List.map_fst_zip (length_givenNames _ _).ge,
    List.map_snd_zip (length_givenNames _ _).le] at he
  exact he

theorem renameVariables_given (n : Nat) (sc : Scomb) :
    Given (renameVariables n sc).1.bound n (renameVariables n sc).2 :=
  (given_givenNames sc.nargs n).append (given_renameVariablesR sc.body _ _)

theorem renameProgram_given : ∀ (scs : List Scomb) (n : Nat),
    Given ((renameProgram n scs).1.flatMap Scomb.bound) n (renameProgram n scs).2
  | [], n => Given.nil n
  | sc :: scs, n => (renameVariables_given n sc).append (renameProgram_given scs _)

theorem renameProgram_alpha : ∀ (scs : List Scomb) (n : Nat), (∀ sc ∈ scs, sc.Parsed) →
    List.Forall₂ AlphaEquiv scs (renameProgram n scs).1
  | [], _, _ => List.Forall₂.nil
  | sc :: scs, n, h =>
    List.Forall₂.cons (renameVariables_alpha n (h sc List.mem_cons_self))
      (renameProgram_alpha scs _ (fun sc' hsc => h sc' (List.mem_cons_of_mem _ hsc)))

/-- Renaming a program of parsed supercombinators, from any value of the counter: each
supercombinator keeps its meaning up to the names of bound variables and the spelling of its
unbound symbols, and no name is bound twice in the whole result. -/
theorem rename_variables_alpha (scs : List Scomb) (n : Nat) (h : ∀ sc ∈ scs, sc.Parsed) :
    List.Forall₂ (fun sc sc' => AlphaEquiv sc sc' ∧ sc'.unbound = sc.unbound) scs
      (renameProgram n scs).1 ∧
    ((renameProgram n scs).1.flatMap Scomb.bound).Nodup := by
  refine ⟨?_, (renameProgram_given scs n).nodup⟩
  refine (renameProgram_alpha scs n h).imp ?_
  intro sc sc' he
  refine ⟨he, ?_⟩
  rw [sc'.unbound_eq, sc.unbound_eq, he.nameless]

/-- `f x x = \x.(letrec x = y  y = x in (x _v0))` and `g = (f y)`. -/
def shadowing : List Scomb :=
  [{ name := "f", argnames := ["x", "x"],
     body := .lambda "x" (.letrec (.bind "x" (.symbol "y") false
       (.bind "y" (.symbol "x") false .done))
       (.application (.symbol "x") (.symbol (makeVarname "_v0")) false)) },
   { name := "g", argnames := [], body := .application (.symbol "f") (.symbol "y") false }]

theorem shadowing_parsed : ∀ sc ∈ shadowing, sc.Parsed := by
  have hx : ∀ x ∈ ["x", "y", "f"], SourceName x := fun x hx => ⟨x, by
    simp only [List.mem_cons, List.not_mem_nil, or_false] at hx
    rcases hx with rfl | rfl | rfl <;> decide⟩
  intro sc hsc
  simp only [shadowing, List.mem_cons, List.not_mem_nil, or_false] at hsc
  rcases hsc with rfl | rfl
  · refine ⟨fun x h => hx x (by simp at h; simp [h]), fun x h => ?_⟩
    simp only [Snode.allNames, Letrec.allNames, List.mem_cons, List.mem_append,
      List.not_mem_nil, or_false] at h
    by_cases hv : x = makeVarname "_v0"
    · exact ⟨"_v0", hv⟩
    · exact hx x (by simp; tauto)
  · refine ⟨by simp, fun x h => hx x ?_⟩
    simp only [Snode.allNames, List.mem_cons, List.mem_append, List.not_mem_nil, or_false] at h
    simp; tauto

theorem rename_variables_alpha_shadowing : (∀ sc ∈ shadowing, sc.Parsed) ∧
    List.Forall₂ (fun sc sc' => AlphaEquiv sc sc' ∧ sc'.unbound = sc.unbound) shadowing
      (renameProgram 0 shadowing).1 ∧
    ((renameProgram 0 shadowing).1.flatMap Scomb.bound).Nodup :=
  ⟨shadowing_parsed, rename_variables_alpha shadowing 0 shadowing_parsed⟩

end Compiler
end NReduce
