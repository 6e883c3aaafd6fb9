import NReduce.Compiler.Syntax
import Mathlib.Data.Set.Insert
import Mathlib.Logic.Function.Basic

/-!
# NReduce.Compiler.Need

Call-by-need evaluation of lambda-free trees to weak head normal form, on a heap of suspended
expressions. An argument or a binding is suspended in a node of its own, and the node is replaced by
the value when it is evaluated for the first time.

`Runs` records the nodes that an evaluation asks for. `Runs.forces` says that a suspended node that
is asked for is evaluated, to weak head normal form, in the course of it.

Strictness marks play no part: expressions are suspended and evaluated without them (`unmark`).
-/

namespace NReduce
namespace Compiler

/-! ## Marks -/

mutual

/-- The tree without its strictness marks. -/
def Snode.unmark : Snode → Snode
  | .application l r _ => .application l.unmark r.unmark false
  | .lambda x b => .lambda x b.unmark
  | .letrec bs b => .letrec bs.unmark b.unmark
  | e => e

def Letrec.unmark : Letrec → Letrec
  | .done => .done
  | .bind x v _ next => .bind x v.unmark false next.unmark

end

theorem unmark_names : ∀ bs : Letrec, bs.unmark.names = bs.names
  | .done => rfl
  | .bind x v s next => by simp [Letrec.unmark, Letrec.names, unmark_names next]

/-! ## Heaps -/

abbrev Loc := Nat

/-- What can be called: a supercombinator or a builtin. -/
inductive Head where
  | sc (i : Nat)
  | bif (b : Bif)
  deriving DecidableEq

/-- Weak head normal forms: a function that lacks arguments, or data. -/
inductive Whnf (D : Type) where
  | fn (h : Head) (args : List Loc)
  | data (d : D)

/-- The nodes that the variables in scope stand for. -/
abbrev Locals := String → Option Loc

inductive Node (D : Type) where
  | suspended (e : Snode) (ρ : Locals)
  | value (v : Whnf D)
  /-- a node whose expression is being evaluated -/
  | busy

/-- The nodes in use. -/
abbrev Store (D : Type) := Loc → Option (Node D)

variable {D : Type}

/-- A suspended node of one store is so in the other. -/
def Suspends (l : Loc) (e : Snode) (ρ : Locals) (Γ : Store D) : Prop := Γ l = some (.suspended e ρ)

/-- The names `xs` stand for the nodes `ls`. -/
def Locals.bind (ρ : Locals) : List String → List Loc → Locals
  | x :: xs, l :: ls => Function.update (ρ.bind xs ls) x (some l)
  | _, _ => ρ

/-- The values of bindings, suspended in the nodes `ls`. -/
def Store.suspend (Γ : Store D) (ρ : Locals) : Letrec → List Loc → Store D
  | .bind _ v _ next, l :: ls => Function.update (Γ.suspend ρ next ls) l (some (.suspended v ρ))
  | _, _ => Γ

/-- The constants, and what the builtins do once their strict arguments are evaluated. -/
structure Prims (D : Type) where
  number : Double → D
  string : String → D
  nil : D
  /-- the store with the nodes that the builtin makes, and the node of its result -/
  result : Bif → List Loc → Store D → Store D → Loc → Prop
  /-- a builtin evaluates nothing that is suspended -/
  keeps : ∀ {b : Bif} {args : List Loc} {Γ Δ : Store D} {r l : Loc} {e : Snode} {ρ : Locals},
    result b args Γ Δ r → Suspends l e ρ Γ → Suspends l e ρ Δ

/-- The node that a builtin gives: a branch of `if`, the second argument of `seq`, or the result of
any other. -/
inductive Selects (P : Prims D) : Bif → List Loc → Store D → Store D → Loc → Prop where
  | ifTrue {Γ : Store D} {c t f : Loc} {v : Whnf D} : Γ c = some (.value v) → v ≠ .data P.nil →
      Selects P .if_ [c, t, f] Γ Γ t
  | ifFalse {Γ : Store D} {c t f : Loc} : Γ c = some (.value (.data P.nil)) →
      Selects P .if_ [c, t, f] Γ Γ f
  | seq {Γ : Store D} {a b : Loc} : Selects P .seq [a, b] Γ Γ b
  | other {b : Bif} {args : List Loc} {Γ Δ : Store D} {r : Loc} : b ≠ .if_ → b ≠ .seq →
      P.result b args Γ Δ r → Selects P b args Γ Δ r

/-! ## Evaluation -/

/-- What can be evaluated: an expression, a node, a call, and a builtin whose strict arguments are
evaluated up to the `k`-th. -/
inductive Job where
  | eval (ρ : Locals) (e : Snode)
  | force (l : Loc)
  | apply (h : Head) (args : List Loc)
  | strict (b : Bif) (k : Nat) (args : List Loc)

def Head.arity (scs : List Scomb) : Head → Option Nat
  | .sc i => (scs[i]?).map Scomb.nargs
  | .bif b => some (builtinInfo b).nargs

/-- `Runs P scs Γ j Δ v F`: from `Γ` the job `j` ends with the value `v` and the store `Δ`, and has
asked for the nodes `F`. -/
inductive Runs (P : Prims D) (scs : List Scomb) :
    Store D → Job → Store D → Whnf D → Set Loc → Prop where
  | nil {Γ : Store D} {ρ : Locals} : Runs P scs Γ (.eval ρ .nil) Γ (.data P.nil) ∅
  | number {Γ : Store D} {ρ : Locals} {d : Double} :
      Runs P scs Γ (.eval ρ (.number d)) Γ (.data (P.number d)) ∅
  | string {Γ : Store D} {ρ : Locals} {s : String} :
      Runs P scs Γ (.eval ρ (.string s)) Γ (.data (P.string s)) ∅
  | builtin {Γ Δ : Store D} {ρ : Locals} {b : Bif} {v : Whnf D} {F : Set Loc} :
      Runs P scs Γ (.apply (.bif b) []) Δ v F → Runs P scs Γ (.eval ρ (.builtin b)) Δ v F
  | scref {Γ Δ : Store D} {ρ : Locals} {i : Nat} {v : Whnf D} {F : Set Loc} :
      Runs P scs Γ (.apply (.sc i) []) Δ v F → Runs P scs Γ (.eval ρ (.scref i)) Δ v F
  | symbol {Γ Δ : Store D} {ρ : Locals} {x : String} {l : Loc} {v : Whnf D} {F : Set Loc} :
      ρ x = some l → Runs P scs Γ (.force l) Δ v F → Runs P scs Γ (.eval ρ (.symbol x)) Δ v F
  | application {Γ Γ' Δ : Store D} {ρ : Locals} {f a : Snode} {s : Bool} {h : Head}
      {args : List Loc} {l : Loc} {v : Whnf D} {F G : Set Loc} :
      Runs P scs Γ (.eval ρ f) Γ' (.fn h args) F → Γ' l = none →
      Runs P scs (Function.update Γ' l (some (.suspended a ρ))) (.apply h (args ++ [l])) Δ v G →
      Runs P scs Γ (.eval ρ (.application f a s)) Δ v (F ∪ G)
  | letrec {Γ Δ : Store D} {ρ : Locals} {bs : Letrec} {b : Snode} {ls : List Loc} {v : Whnf D}
      {F : Set Loc} :
      ls.length = bs.names.length → ls.Nodup → (∀ l ∈ ls, Γ l = none) →
      Runs P scs (Γ.suspend (ρ.bind bs.names ls) bs ls) (.eval (ρ.bind bs.names ls) b) Δ v F →
      Runs P scs Γ (.eval ρ (.letrec bs b)) Δ v F
  | found {Γ : Store D} {l : Loc} {v : Whnf D} : Γ l = some (.value v) →
      Runs P scs Γ (.force l) Γ v {l}
  | force {Γ Δ : Store D} {l : Loc} {e : Snode} {ρ : Locals} {v : Whnf D} {F : Set Loc} :
      Suspends l e ρ Γ → Runs P scs (Function.update Γ l (some .busy)) (.eval ρ e) Δ v F →
      Runs P scs Γ (.force l) (Function.update Δ l (some (.value v))) v (insert l F)
  | lacking {Γ : Store D} {h : Head} {args : List Loc} {k : Nat} : h.arity scs = some k →
      args.length < k → Runs P scs Γ (.apply h args) Γ (.fn h args) ∅
  | call {Γ Δ : Store D} {i : Nat} {sc : Scomb} {args : List Loc} {v : Whnf D} {F : Set Loc} :
      scs[i]? = some sc → args.length = sc.nargs →
      Runs P scs Γ (.eval (Locals.bind (fun _ => none) sc.argnames args) sc.body.unmark) Δ v F →
      Runs P scs Γ (.apply (.sc i) args) Δ v F
  | prim {Γ Δ : Store D} {b : Bif} {args : List Loc} {v : Whnf D} {F : Set Loc} :
      args.length = (builtinInfo b).nargs → Runs P scs Γ (.strict b 0 args) Δ v F →
      Runs P scs Γ (.apply (.bif b) args) Δ v F
  | next {Γ Γ' Δ : Store D} {b : Bif} {k : Nat} {args : List Loc} {l : Loc} {u v : Whnf D}
      {F G : Set Loc} :
      k < (builtinInfo b).nstrict → args[k]? = some l → Runs P scs Γ (.force l) Γ' u F →
      Runs P scs Γ' (.strict b (k + 1) args) Δ v G → Runs P scs Γ (.strict b k args) Δ v (F ∪ G)
  | result {Γ Γ' Δ : Store D} {b : Bif} {k : Nat} {args : List Loc} {r : Loc} {v : Whnf D}
      {F : Set Loc} :
      k = (builtinInfo b).nstrict → Selects P b args Γ Γ' r → Runs P scs Γ' (.force r) Δ v F →
      Runs P scs Γ (.strict b k args) Δ v F

/-! ## Nodes that are asked for -/

theorem suspend_other : ∀ (bs : Letrec) (ls : List Loc) (Γ : Store D) (ρ : Locals) {l : Loc},
    l ∉ ls → Γ.suspend ρ bs ls l = Γ l
  | .done, _, _, _, _, _ => rfl
  | .bind _ _ _ _, [], _, _, _, _ => rfl
  | .bind x v s next, l' :: ls, Γ, ρ, l, h => by
    rw [List.mem_cons, not_or] at h
    rw [Store.suspend, Function.update_of_ne h.1]
    exact suspend_other next ls Γ ρ h.2

section

variable {P : Prims D} {scs : List Scomb} {Γ Δ : Store D} {j : Job} {v : Whnf D} {F : Set Loc}
  {l : Loc} {e : Snode} {ρ : Locals}

theorem Suspends.update {l' : Loc} {nd : Option (Node D)} (h : Suspends l e ρ Γ) (hne : l ≠ l') :
    Suspends l e ρ (Function.update Γ l' nd) := by
  rw [Suspends, Function.update_of_ne hne]
  exact h

theorem Suspends.ne_of_none {l' : Loc} (h : Suspends l e ρ Γ) (hn : Γ l' = none) : l ≠ l' := by
  rintro rfl
  rw [Suspends, hn] at h
  cases h

theorem Suspends.suspend {bs : Letrec} {ls : List Loc} {ρ' : Locals} (h : Suspends l e ρ Γ)
    (hls : ∀ l ∈ ls, Γ l = none) : Suspends l e ρ (Γ.suspend ρ' bs ls) := by
  rw [Suspends, suspend_other bs ls Γ ρ' (fun hl => h.ne_of_none (hls l hl) rfl)]
  exact h

theorem Selects.keeps {b : Bif} {args : List Loc} {r : Loc} (h : Selects P b args Γ Δ r)
    (hl : Suspends l e ρ Γ) : Suspends l e ρ Δ := by
  cases h with
  | ifTrue _ _ => exact hl
  | ifFalse _ => exact hl
  | seq => exact hl
  | other _ _ hr => exact P.keeps hr hl

/-- What is suspended stays so, unless it is asked for. -/
theorem Runs.keeps (h : Runs P scs Γ j Δ v F) (hl : Suspends l e ρ Γ) :
    Suspends l e ρ Δ ∨ l ∈ F := by
  induction h with
  | nil => exact Or.inl hl
  | number => exact Or.inl hl
  | string => exact Or.inl hl
  | builtin _ ih => exact ih hl
  | scref _ ih => exact ih hl
  | symbol _ _ ih => exact ih hl
  | application _ hn _ ih1 ih2 =>
    rcases ih1 hl with h1 | h1
    · exact (ih2 (h1.update (h1.ne_of_none hn))).imp id Or.inr
    · exact Or.inr (Or.inl h1)
  | letrec _ _ hls _ ih => exact ih (hl.suspend hls)
  | found _ => exact Or.inl hl
  | @force _ _ l' _ _ _ _ _ _ ih =>
    by_cases hll : l = l'
    · exact Or.inr (Or.inl hll)
    · exact (ih (hl.update hll)).imp (fun h1 => h1.update hll) Or.inr
  | lacking _ _ => exact Or.inl hl
  | call _ _ _ ih => exact ih hl
  | prim _ _ ih => exact ih hl
  | next _ _ _ _ ih1 ih2 =>
    rcases ih1 hl with h1 | h1
    · exact (ih2 h1).imp id Or.inr
    · exact Or.inr (Or.inl h1)
  | result _ hs _ ih => exact ih (hs.keeps hl)

/-- The expression `e` is evaluated to weak head normal form, and asks for nodes of `F` only. -/
def Evaluated (P : Prims D) (scs : List Scomb) (ρ : Locals) (e : Snode) (F : Set Loc) : Prop :=
  ∃ Γ Δ v F', Runs P scs Γ (.eval ρ e) Δ v F' ∧ F' ⊆ F

theorem Evaluated.mono {G : Set Loc} (h : Evaluated P scs ρ e F) (hFG : F ⊆ G) :
    Evaluated P scs ρ e G := by
  obtain ⟨Γ, Δ, v, F', hr, hsub⟩ := h
  exact ⟨Γ, Δ, v, F', hr, hsub.trans hFG⟩

/-- One job after another. -/
theorem Runs.forces_union {Γ' : Store D} {A B : Set Loc} (h1 : Runs P scs Γ j Γ' v A)
    (hl : Suspends l e ρ Γ) (hA : l ∈ A → Evaluated P scs ρ e A)
    (hB : Suspends l e ρ Γ' → l ∈ B → Evaluated P scs ρ e B) (hF : l ∈ A ∪ B) :
    Evaluated P scs ρ e (A ∪ B) := by
  rcases h1.keeps hl with hk | hk
  · rcases hF with hF | hF
    · exact (hA hF).mono Set.subset_union_left
    · exact (hB hk hF).mono Set.subset_union_right
  · exact (hA hk).mono Set.subset_union_left

/-- The expression of a suspended node that is asked for is evaluated in the course of it. -/
theorem Runs.forces (h : Runs P scs Γ j Δ v F) (hl : Suspends l e ρ Γ) (hF : l ∈ F) :
    Evaluated P scs ρ e F := by
  induction h with
  | nil => cases hF
  | number => cases hF
  | string => cases hF
  | builtin _ ih => exact ih hl hF
  | scref _ ih => exact ih hl hF
  | symbol _ _ ih => exact ih hl hF
  | application h1 hn _ ih1 ih2 =>
    exact h1.forces_union hl (ih1 hl) (fun hk => ih2 (hk.update (hk.ne_of_none hn))) hF
  | letrec _ _ hls _ ih => exact ih (hl.suspend hls) hF
  | found hv =>
    rw [Set.mem_singleton_iff.mp hF, Suspends, hv] at hl
    cases hl
  | @force _ _ l' _ _ _ _ hs hr ih =>
    by_cases hll : l = l'
    · subst hll
      rw [Suspends, hs] at hl
      cases hl
      exact ⟨_, _, _, _, hr, Set.subset_insert _ _⟩
    · exact (ih (hl.update hll) (hF.resolve_left hll)).mono (Set.subset_insert _ _)
  | lacking _ _ => cases hF
  | call _ _ _ ih => exact ih hl hF
  | prim _ _ ih => exact ih hl hF
  | next _ _ h1 _ ih1 ih2 => exact h1.forces_union hl (ih1 hl) ih2 hF
  | result _ hs _ ih => exact ih (hs.keeps hl) hF

end

end Compiler
end NReduce
