import NReduce.Runtime.HeapValue

/-!
# NReduce.Runtime.Spine

The spine of an expression, as `reduce` unwinds it: the applications from the root down to the tip,
which is no application. A cell belongs to the spines above it, and there is only one way down from
it: two spines that share a cell have the same tip and the same arguments below that cell.
-/

namespace NReduce
namespace Reduction

open Compiler Domain

namespace Heap

/-- The cells of the applications from `p` down to `q`, each with its argument -/
inductive Spine (h : Heap) (q : Pntr) : List (Nat × Pntr) → Pntr → Prop
  | tip : Spine h q [] q
  | app {c : Nat} {f a p : Pntr} {s : List (Nat × Pntr)} (hc : h.cells c = .application f a)
    (hf : h.Resolves f p) (hs : Spine h q s p) : Spine h q ((c, a) :: s) (.cell c)

variable {h h' : Heap} {p q q' : Pntr} {s s' : List (Nat × Pntr)}

theorem application?_eq_some {f a : Pntr} :
    h.application? p = some (f, a) ↔ ∃ c, p = .cell c ∧ h.cells c = .application f a := by
  cases p with
  | number d => simp [application?]
  | cell c =>
    cases hc : h.cells c <;> simp [application?, hc]

theorem Spine.mem (hs : h.Spine q s p) {b : Nat × Pntr} (hb : b ∈ s) :
    ∃ f, h.cells b.1 = .application f b.2 := by
  induction hs with
  | tip => cases hb
  | @app c f a p s hc hf hs ih =>
    obtain rfl | hb := List.mem_cons.mp hb
    · exact ⟨f, hc⟩
    · exact ih hb

theorem Spine.root (hs : h.Spine q ((c, a) :: s) p) : p = .cell c := by
  cases hs
  rfl

/-- The lower part of a spine is a spine. -/
theorem Spine.of_append {s₁ s₂ : List (Nat × Pntr)} (hs : h.Spine q (s₁ ++ s₂) p) :
    ∃ r, h.Spine q s₂ r := by
  induction s₁ generalizing p with
  | nil => exact ⟨p, hs⟩
  | cons b s₁ ih =>
    cases hs with
    | app hc hf hs => exact ih hs

/-- The way down from a cell is determined by the heap. -/
theorem Spine.unique (hs : h.Spine q s p) (hs' : h.Spine q' s' p) (hq : h.application? q = none)
    (hq' : h.application? q' = none) : q = q' ∧ s = s' := by
  induction hs generalizing s' with
  | tip =>
    cases hs' with
    | tip => exact ⟨rfl, rfl⟩
    | app hc hf hs' =>
      rw [application?_eq_some.mpr ⟨_, rfl, hc⟩] at hq
      cases hq
  | app hc hf hs ih =>
    cases hs' with
    | tip =>
      rw [application?_eq_some.mpr ⟨_, rfl, hc⟩] at hq'
      cases hq'
    | app hc' hf' hs' =>
      rw [hc] at hc'
      cases hc'
      cases hf.unique hf'
      obtain ⟨rfl, rfl⟩ := ih hs'
      exact ⟨rfl, rfl⟩

/-- Two spines that share a cell are the same below it. -/
theorem Spine.shared {r : Pntr} {c : Nat} {a : Pntr} (hs : h.Spine q ((c, a) :: s) p)
    (hs' : h.Spine q' s' r) (hq : h.application? q = none) (hq' : h.application? q' = none)
    (hc : c ∈ s'.map Prod.fst) : q = q' ∧ ∃ s₁, s' = s₁ ++ (c, a) :: s := by
  obtain ⟨b, hb, rfl⟩ := List.mem_map.mp hc
  obtain ⟨s₁, s₂, rfl⟩ := List.append_of_mem hb
  obtain ⟨r', hs₂⟩ := hs'.of_append
  obtain rfl := hs.root
  obtain rfl := Spine.root (c := b.1) (a := b.2) hs₂
  obtain ⟨rfl, heq⟩ := hs.unique hs₂ hq hq'
  exact ⟨rfl, s₁, by rw [heq]⟩

/-- No cell is on its own spine twice. -/
theorem Spine.not_mem {c : Nat} {a : Pntr} (hs : h.Spine q ((c, a) :: s) p)
    (hq : h.application? q = none) : c ∉ s.map Prod.fst := by
  intro hc
  cases hs with
  | app hc' hf hs =>
    obtain ⟨-, s₁, heq⟩ := Spine.shared (.app hc' hf hs) hs hq hq hc
    have hlen := congrArg List.length heq
    rw [List.length_append, List.length_cons] at hlen
    omega

/-- A spine whose cells stay, and whose tip stays no indirection, stays. -/
theorem Spine.keep (hind : ∀ c p, h.cells c = .ind p → h'.cells c = .ind p)
    (hcells : ∀ b ∈ s, h'.cells b.1 = h.cells b.1) (hq : h'.Resolves q q) (hs : h.Spine q s p) :
    h'.Spine q s p := by
  induction hs with
  | tip => exact .tip
  | @app c f a p s hc hf hs ih =>
    have hs' := ih fun b hb => hcells b (List.mem_cons_of_mem _ hb)
    have hp : h'.Resolves p p := by
      cases hs' with
      | tip => exact hq
      | app hc' _ _ => exact .cell fun r => by rw [hc']; simp
    refine .app ?_ (hf.keep hind hp) hs'
    rw [hcells (c, a) List.mem_cons_self, hc]

/-- The arguments on a spine, the first one first -/
def args (s : List (Nat × Pntr)) : List Pntr := s.reverse.map Prod.snd

theorem args_cons (c : Nat) (a : Pntr) (s : List (Nat × Pntr)) :
    args ((c, a) :: s) = args s ++ [a] := by
  simp [args]

theorem args_length (s : List (Nat × Pntr)) : (args s).length = s.length := by
  simp [args]

section

variable {K : Type} (I : Interp K) (scs : List Scomb)

theorem appN_append_singleton (f : Dom K) (as : List (Dom K)) (a : Dom K) :
    appN f (as ++ [a]) = Dom.app (appN f as) a := by
  simp [appN]

/-- The root of a spine means its tip applied to its arguments, where the equations of the cells on
the way hold. -/
theorem Spine.value {σ : Values K} (hind : ∀ c p, h.cells c = .ind p → σ c = p.value I σ)
    (hs : h.Spine q s p) (hcells : ∀ b ∈ s, σ b.1 = (h.cells b.1).value I scs σ) :
    p.value I σ = appN (q.value I σ) ((args s).map (·.value I σ)) := by
  induction hs with
  | tip => rfl
  | @app c f a p s hc hf hs ih =>
    rw [args_cons, List.map_append, List.map_singleton, appN_append_singleton,
      ← ih fun b hb => hcells b (List.mem_cons_of_mem _ hb), ← hf.value I hind]
    have hself := hcells (c, a) List.mem_cons_self
    rw [hc] at hself
    exact hself

end

/-! ## The stack -/

/-- The cells of a spine on the stack, the tip on top -/
def onStack (q : Pntr) (s : List (Nat × Pntr)) : List Pntr := q :: s.reverse.map (.cell ·.1)

theorem length_onStack (q : Pntr) (s : List (Nat × Pntr)) :
    (onStack q s).length = s.length + 1 := by
  simp [onStack]

theorem onStack_cons (q : Pntr) (c : Nat) (a : Pntr) (s : List (Nat × Pntr)) :
    onStack q ((c, a) :: s) = onStack q s ++ [.cell c] := by
  simp [onStack]

/-- The loop that unwinds the spine stops at the tip of it. -/
theorem unwind_spec {k : Nat} {st st' : List Pntr} (hp : h.Resolves p p)
    (hrun : unwind h k p (p :: st) = some st') :
    ∃ q s, h.Spine q s p ∧ h.application? q = none ∧ h.Resolves q q ∧ st' = onStack q s ++ st := by
  induction k generalizing p st with
  | zero => cases hrun
  | succ k ih =>
    cases happ : h.application? p with
    | none =>
      simp only [unwind, happ, Option.some.injEq] at hrun
      exact ⟨p, [], .tip, happ, hp, hrun.symm⟩
    | some fa =>
      obtain ⟨f, a⟩ := fa
      obtain ⟨c, rfl, hc⟩ := application?_eq_some.mp happ
      simp only [unwind, happ, Option.bind_eq_bind, Option.bind_eq_some_iff] at hrun
      obtain ⟨r, hr, hrun⟩ := hrun
      have hr := resolves_of_resolve hr
      obtain ⟨q, s, hs, hq, hqq, rfl⟩ := ih hr.idem hrun
      refine ⟨q, (c, a) :: s, .app hc hr hs, hq, hqq, ?_⟩
      rw [onStack_cons, List.append_assoc]
      rfl

/-- What `reduce` puts in the place of the applications -/
theorem spineArgs_spec {k n : Nat} {r : List (Nat × Pntr)} {top : Pntr} {st l : List Pntr}
    (hr : ∀ b ∈ r, ∃ f, h.cells b.1 = .application f b.2) (hn : n ≤ r.length)
    (hrun : spineArgs h k n (top :: r.map (.cell ·.1) ++ st) = some l) :
    l = (r.take n).map Prod.snd := by
  induction n generalizing r top l with
  | zero =>
    cases hrun
    rfl
  | succ n ih =>
    cases r with
    | nil => simp at hn
    | cons b r =>
      simp only [List.map_cons, List.cons_append, spineArgs, Option.bind_eq_bind,
        Option.bind_eq_some_iff, Option.pure_def, Option.some.injEq, Prod.exists] at hrun
      obtain ⟨arg, harg, f', a', happ, l', hrest, rfl⟩ := hrun
      obtain ⟨f, hf⟩ := hr b List.mem_cons_self
      have hself : h.Resolves (.cell b.1) (.cell b.1) := .cell fun r => by rw [hf]; simp
      obtain rfl := hself.unique (resolves_of_resolve harg)
      rw [application?_eq_some.mpr ⟨_, rfl, hf⟩] at happ
      cases happ
      rw [ih (fun b hb => hr b (List.mem_cons_of_mem _ hb)) (by simpa using hn) hrest]
      rfl

/-- The part of a spine that a redex with `n` arguments takes up, and its root on the stack -/
theorem Spine.redex {n : Nat} (hs : h.Spine q s p) (hn : n ≤ s.length) (st : List Pntr) :
    ∃ s₁ s₂ r, s = s₁ ++ s₂ ∧ s₂.length = n ∧ h.Spine q s₂ r ∧
      args s₂ = (args s).take n ∧ (onStack q s ++ st)[n]? = some r := by
  obtain ⟨s₁, s₂, rfl, hlen⟩ : ∃ s₁ s₂, s = s₁ ++ s₂ ∧ s₂.length = n :=
    ⟨s.take (s.length - n), s.drop (s.length - n), (List.take_append_drop _ _).symm, by
      rw [List.length_drop]
      omega⟩
  obtain ⟨r, hs₂⟩ := hs.of_append
  refine ⟨s₁, s₂, r, rfl, hlen, hs₂, ?_, ?_⟩
  · rw [args, args, List.reverse_append, List.map_append, ← hlen]
    exact (List.take_left' (by simp)).symm
  · rw [onStack, List.reverse_append, List.map_append]
    cases hs₂ with
    | tip =>
      subst hlen
      rfl
    | app hc hf hs₂ =>
      subst hlen
      simp

end Heap

end Reduction
end NReduce
