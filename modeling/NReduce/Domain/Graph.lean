import Mathlib.Order.FixedPoints
import Mathlib.Data.Set.Lattice
import Mathlib.Order.CompletePartialOrder

/-!
# NReduce.Domain.Graph

A graph model of lazy evaluation. A value is the set of finite observations (`Tok`) that can be
made of it; a computation that never delivers a weak head normal form has none, so `∅` is
divergence and inclusion is the information order.

* `const k`: the value is the constant `k`.
* `pair`, `fst t`, `snd t`: the value is a cons cell; `t` can be observed of its head, its tail.
* `fn`, `arrow ts t`: the value is a function; given an argument of which all of `ts` can be
  observed it returns a value of which `t` can be observed.

`Dom.app_lam` is the beta law. It needs the body to be *finitary*: every observation of the
result uses finitely many observations of the environment.
-/

namespace NReduce
namespace Domain

/-- A finite observation of a lazy value with constants from `K`. -/
inductive Tok (K : Type) where
  | const (k : K)
  | pair
  | fst (t : Tok K)
  | snd (t : Tok K)
  | fn
  | arrow (ts : List (Tok K)) (t : Tok K)

/-- A value: the observations that can be made of it. -/
abbrev Dom (K : Type) := Set (Tok K)

/-- An environment gives every key a value. -/
abbrev Env (V K : Type) := V → Dom K

namespace Dom

variable {K : Type}

/-- The value of which exactly the listed observations can be made. -/
def ofList (ts : List (Tok K)) : Dom K := {t | t ∈ ts}

def app (f a : Dom K) : Dom K := {t | ∃ ts, Tok.arrow ts t ∈ f ∧ ofList ts ⊆ a}

def lam (f : Dom K → Dom K) : Dom K :=
  {t | t = .fn ∨ ∃ ts u, t = .arrow ts u ∧ u ∈ f (ofList ts)}

def cons (h t : Dom K) : Dom K :=
  {u | u = .pair ∨ (∃ v ∈ h, u = .fst v) ∨ (∃ v ∈ t, u = .snd v)}

theorem app_mono {f f' a a' : Dom K} (hf : f ⊆ f') (ha : a ⊆ a') : app f a ⊆ app f' a' := by
  rintro t ⟨ts, h1, h2⟩
  exact ⟨ts, hf h1, h2.trans ha⟩

theorem lam_mono {f g : Dom K → Dom K} (h : ∀ a, f a ⊆ g a) : lam f ⊆ lam g := by
  rintro t (rfl | ⟨ts, u, rfl, hu⟩)
  · exact Or.inl rfl
  · exact Or.inr ⟨ts, u, rfl, h _ hu⟩

theorem cons_mono {h h' t t' : Dom K} (hh : h ⊆ h') (ht : t ⊆ t') : cons h t ⊆ cons h' t' := by
  rintro u (rfl | ⟨v, hv, rfl⟩ | ⟨v, hv, rfl⟩)
  · exact Or.inl rfl
  · exact Or.inr (Or.inl ⟨v, hh hv, rfl⟩)
  · exact Or.inr (Or.inr ⟨v, ht hv, rfl⟩)

/-- The beta law for one argument. -/
theorem app_lam {f : Dom K → Dom K} (hm : Monotone f)
    (hc : ∀ a, ∀ t ∈ f a, ∃ ts, ofList ts ⊆ a ∧ t ∈ f (ofList ts)) (a : Dom K) :
    app (lam f) a = f a := by
  ext t
  constructor
  · rintro ⟨ts, h | ⟨ts', u, he, hu⟩, hsub⟩
    · cases h
    · cases he
      exact hm hsub hu
  · intro ht
    obtain ⟨ts, hsub, hts⟩ := hc a t ht
    exact ⟨ts, Or.inr ⟨ts, t, rfl, hts⟩, hsub⟩

end Dom

namespace Env

variable {V W K : Type}

/-- The environment in which exactly the listed observations can be made. -/
def ofList (l : List (V × Tok K)) : Env V K := fun x => {t | (x, t) ∈ l}

theorem ofList_le {l : List (V × Tok K)} {ρ : Env V K} :
    ofList l ≤ ρ ↔ ∀ p ∈ l, p.2 ∈ ρ p.1 := by
  constructor
  · intro h p hp
    exact h p.1 hp
  · intro h x t ht
    exact h (x, t) ht

theorem ofList_mono {l l' : List (V × Tok K)} (h : l ⊆ l') :
    (ofList l : Env V K) ≤ ofList l' :=
  fun _ _ ht => h ht

theorem ofList_append_le {l l' : List (V × Tok K)} {ρ : Env V K} (h : ofList l ≤ ρ)
    (h' : ofList l' ≤ ρ) : ofList (l ++ l') ≤ ρ := by
  rw [ofList_le] at *
  intro p hp
  rcases List.mem_append.mp hp with hp | hp
  · exact h p hp
  · exact h' p hp

/-- A finitary function of the environment: monotone, and every observation of its result is
already made of the result in a finite part of the environment. -/
structure Finitary (F : Env V K → Dom K) : Prop where
  mono : Monotone F
  compact : ∀ ρ, ∀ t ∈ F ρ, ∃ l, ofList l ≤ ρ ∧ t ∈ F (ofList l)

theorem Finitary.var (x : V) : Finitary (fun ρ : Env V K => ρ x) where
  mono := fun _ _ h => h x
  compact := by
    intro ρ t ht
    refine ⟨[(x, t)], ?_, ?_⟩
    · rw [ofList_le]
      intro p hp
      obtain rfl := List.mem_singleton.mp hp
      exact ht
    · simp [ofList]

theorem Finitary.const (d : Dom K) : Finitary (fun _ : Env V K => d) where
  mono := fun _ _ _ => le_refl d
  compact := fun ρ _ ht => ⟨[], by simp [ofList_le], ht⟩

/-- Finitely many observations of one result need a finite part of the environment only. -/
theorem Finitary.compact_list {F : Env V K → Dom K} (hF : Finitary F) (ρ : Env V K)
    (ts : List (Tok K)) (h : Dom.ofList ts ⊆ F ρ) :
    ∃ l, ofList l ≤ ρ ∧ Dom.ofList ts ⊆ F (ofList l) := by
  induction ts with
  | nil => exact ⟨[], by simp [ofList_le], fun t ht => by simp [Dom.ofList] at ht⟩
  | cons u ts ih =>
    obtain ⟨l, hl, hts⟩ := ih (fun t ht => h (List.mem_cons_of_mem _ ht))
    obtain ⟨l', hl', hu⟩ := hF.compact ρ u (h List.mem_cons_self)
    refine ⟨l' ++ l, ofList_append_le hl' hl, ?_⟩
    intro t ht
    rcases List.mem_cons.mp ht with rfl | ht
    · exact hF.mono (ofList_mono (List.subset_append_left l' l)) hu
    · exact hF.mono (ofList_mono (List.subset_append_right l' l)) (hts ht)

theorem Finitary.app {F G : Env V K → Dom K} (hF : Finitary F) (hG : Finitary G) :
    Finitary (fun ρ => Dom.app (F ρ) (G ρ)) where
  mono := fun _ _ h => Dom.app_mono (hF.mono h) (hG.mono h)
  compact := by
    rintro ρ t ⟨ts, hf, ha⟩
    obtain ⟨l, hl, hlf⟩ := hF.compact ρ _ hf
    obtain ⟨l', hl', hla⟩ := hG.compact_list ρ ts ha
    refine ⟨l ++ l', ofList_append_le hl hl', ts, ?_, ?_⟩
    · exact hF.mono (ofList_mono (List.subset_append_left l l')) hlf
    · exact hla.trans (hG.mono (ofList_mono (List.subset_append_right l l')))

theorem Finitary.cons {F G : Env V K → Dom K} (hF : Finitary F) (hG : Finitary G) :
    Finitary (fun ρ => Dom.cons (F ρ) (G ρ)) where
  mono := fun _ _ h => Dom.cons_mono (hF.mono h) (hG.mono h)
  compact := by
    rintro ρ t (rfl | ⟨v, hv, rfl⟩ | ⟨v, hv, rfl⟩)
    · exact ⟨[], by simp [ofList_le], Or.inl rfl⟩
    · obtain ⟨l, hl, h⟩ := hF.compact ρ v hv
      exact ⟨l, hl, Or.inr (Or.inl ⟨v, h, rfl⟩)⟩
    · obtain ⟨l, hl, h⟩ := hG.compact ρ v hv
      exact ⟨l, hl, Or.inr (Or.inr ⟨v, h, rfl⟩)⟩

/-- Finitary functions compose with finitary changes of environment. -/
theorem Finitary.comp {F : Env W K → Dom K} (hF : Finitary F) {G : Env V K → Env W K}
    (hG : ∀ x, Finitary (fun ρ => G ρ x)) : Finitary (fun ρ => F (G ρ)) where
  mono := fun _ _ h => hF.mono (fun x => (hG x).mono h)
  compact := by
    intro ρ t ht
    obtain ⟨l, hl, hlt⟩ := hF.compact (G ρ) t ht
    obtain ⟨l', hl', hGl⟩ : ∃ l', ofList l' ≤ ρ ∧ ofList l ≤ G (ofList l') := by
      rw [ofList_le] at hl
      clear hlt
      induction l with
      | nil => exact ⟨[], by simp [ofList_le], by simp [ofList_le]⟩
      | cons p l ih =>
        obtain ⟨l', hl', hGl⟩ := ih (fun q hq => hl q (List.mem_cons_of_mem _ hq))
        obtain ⟨m, hm, hp⟩ := (hG p.1).compact ρ p.2 (hl p List.mem_cons_self)
        refine ⟨m ++ l', ofList_append_le hm hl', ?_⟩
        rw [ofList_le]
        intro q hq
        rcases List.mem_cons.mp hq with rfl | hq
        · exact (hG q.1).mono (ofList_mono (List.subset_append_left m l')) hp
        · exact (hG q.1).mono (ofList_mono (List.subset_append_right m l'))
            (ofList_le.mp hGl q hq)
    exact ⟨l', hl', hF.mono hGl hlt⟩

section Update

variable [DecidableEq V]

theorem update_mono {ρ ρ' : Env V K} (h : ρ ≤ ρ') (x : V) {a a' : Dom K} (ha : a ⊆ a') :
    Function.update ρ x a ≤ Function.update ρ' x a' := by
  intro y
  by_cases hy : y = x
  · subst hy; simpa using ha
  · simpa [Function.update_of_ne hy] using h y

/-- The observations listed for one key. -/
def at_ (l : List (V × Tok K)) (x : V) : List (Tok K) :=
  (l.filter (fun p => p.1 = x)).map Prod.snd

theorem mem_at_ {l : List (V × Tok K)} {x : V} {t : Tok K} : t ∈ at_ l x ↔ (x, t) ∈ l := by
  simp [at_]

/-- A finite part of an updated environment splits into a finite part of the environment and
finitely many observations of the new value. -/
theorem ofList_le_update {l : List (V × Tok K)} {ρ : Env V K} {x : V} {a : Dom K}
    (h : ofList l ≤ Function.update ρ x a) :
    Dom.ofList (at_ l x) ⊆ a ∧ ofList (l.filter (fun p => p.1 ≠ x)) ≤ ρ ∧
      ofList l ≤ Function.update (ofList (l.filter (fun p => p.1 ≠ x))) x
        (Dom.ofList (at_ l x)) := by
  rw [ofList_le] at h
  refine ⟨?_, ?_, ?_⟩
  · intro t ht
    simpa using h (x, t) (mem_at_.mp ht)
  · rw [ofList_le]
    intro p hp
    simp only [List.mem_filter, decide_eq_true_eq] at hp
    simpa [Function.update_of_ne hp.2] using h p hp.1
  · intro y t ht
    by_cases hy : y = x
    · subst hy
      simpa [Dom.ofList] using mem_at_.mpr ht
    · rw [Function.update_of_ne hy]
      exact List.mem_filter.mpr ⟨ht, by simpa using hy⟩

theorem Finitary.lam {F : Env V K → Dom K} (hF : Finitary F) (x : V) :
    Finitary (fun ρ => Dom.lam (fun a => F (Function.update ρ x a))) where
  mono := fun _ _ h => Dom.lam_mono (fun a => hF.mono (update_mono h x (le_refl a)))
  compact := by
    rintro ρ t (rfl | ⟨ts, u, rfl, hu⟩)
    · exact ⟨[], by simp [ofList_le], Or.inl rfl⟩
    · obtain ⟨l, hl, hlu⟩ := hF.compact _ u hu
      obtain ⟨h1, h2, h3⟩ := ofList_le_update hl
      refine ⟨_, h2, Or.inr ⟨ts, u, rfl, ?_⟩⟩
      exact hF.mono (h3.trans (update_mono (le_refl _) x h1)) hlu

/-- The beta law for a finitary body. -/
theorem Finitary.beta {F : Env V K → Dom K} (hF : Finitary F) (ρ : Env V K) (x : V)
    (a : Dom K) :
    Dom.app (Dom.lam (fun b => F (Function.update ρ x b))) a = F (Function.update ρ x a) := by
  apply Dom.app_lam
  · exact fun _ _ h => hF.mono (update_mono (le_refl ρ) x h)
  · intro b t ht
    obtain ⟨l, hl, hlt⟩ := hF.compact _ t ht
    obtain ⟨h1, h2, h3⟩ := ofList_le_update hl
    exact ⟨at_ l x, h1, hF.mono (h3.trans (update_mono h2 x (le_refl _))) hlt⟩

end Update

end Env
end Domain
end NReduce
