import Mathlib.Data.Option.Basic

/-!
# NReduce.Logic.Partial

Partial correctness of programs that change a state and may fail. A failure is a run that stops:
there is no state after it.

* `Triple`: from every state with the precondition, a run that ends has the postcondition.
* one rule for each way to build a program, and `zoom`, which runs a program on a part of the
  state.
-/

namespace NReduce
namespace Logic

abbrev Prog (σ α : Type) := StateT σ Option α

/-- A failed check stops the program. -/
def check {σ : Type} (b : Prop) [Decidable b] : Prog σ Unit := if b then pure () else failure

/-- A step that is taken under a condition. -/
def when {σ : Type} (c : Prop) [Decidable c] (m : Prog σ Unit) : Prog σ Unit :=
  if c then m else pure ()

/-- An absent value stops the program. -/
def need {σ α : Type} : Option α → Prog σ α
  | some a => pure a
  | none => failure

/-- A program on a part of the state. -/
def zoom {σ τ α : Type} (part : σ → τ) (put : τ → σ → σ) (m : Prog τ α) : Prog σ α :=
  fun s => (m (part s)).map (fun r => (r.1, put r.2 s))

theorem check_true {σ : Type} {b : Prop} [Decidable b] (h : b) :
    (check b : Prog σ Unit) = pure () :=
  if_pos h

theorem get_apply {σ α : Type} (f : σ → Prog σ α) (s : σ) : (get >>= f) s = f s s := rfl

/-- A run of two programs, one after the other. -/
theorem bind_eq_some {σ α β : Type} {m : Prog σ β} {f : β → Prog σ α} {s : σ} {r : α × σ} :
    (m >>= f) s = some r ↔ ∃ b s', m s = some (b, s') ∧ f b s' = some r := by
  refine Option.bind_eq_some_iff.trans ⟨?_, ?_⟩
  · rintro ⟨⟨b, s'⟩, h1, h2⟩
    exact ⟨b, s', h1, h2⟩
  · rintro ⟨b, s', h1, h2⟩
    exact ⟨(b, s'), h1, h2⟩

theorem check_eq_some {σ : Type} {b : Prop} [Decidable b] {s s' : σ} {u : Unit} :
    check b s = some (u, s') ↔ b ∧ s' = s := by
  unfold check
  split
  · next hb =>
    constructor
    · intro h
      cases h
      exact ⟨hb, rfl⟩
    · rintro ⟨-, rfl⟩
      rfl
  · next hb =>
    constructor
    · nofun
    · exact fun h => absurd h.1 hb

theorem need_eq_some {σ α : Type} {o : Option α} {s s' : σ} {a : α} :
    need o s = some (a, s') ↔ o = some a ∧ s' = s := by
  cases o with
  | none =>
    constructor
    · nofun
    · nofun
  | some b =>
    constructor
    · intro h
      cases h
      exact ⟨rfl, rfl⟩
    · rintro ⟨h, rfl⟩
      cases h
      rfl

theorem modify_eq_some {σ : Type} {f : σ → σ} {s s' : σ} {u : PUnit} :
    (modify f : Prog σ PUnit) s = some (u, s') ↔ s' = f s := by
  constructor
  · intro h
    cases h
    rfl
  · rintro rfl
    rfl

theorem get_eq_some {σ : Type} {s s' a : σ} :
    (get : Prog σ σ) s = some (a, s') ↔ a = s ∧ s' = s := by
  constructor
  · intro h
    cases h
    exact ⟨rfl, rfl⟩
  · rintro ⟨rfl, rfl⟩
    rfl

theorem pure_eq_some {σ α : Type} {a b : α} {s s' : σ} :
    (pure a : Prog σ α) s = some (b, s') ↔ b = a ∧ s' = s := by
  constructor
  · intro h
    cases h
    exact ⟨rfl, rfl⟩
  · rintro ⟨rfl, rfl⟩
    rfl

theorem zoom_eq_some {σ τ α : Type} {part : σ → τ} {put : τ → σ → σ} {m : Prog τ α} {s s' : σ}
    {a : α} : zoom part put m s = some (a, s') ↔ ∃ t, m (part s) = some (a, t) ∧ s' = put t s := by
  refine Option.map_eq_some_iff.trans ⟨?_, ?_⟩
  · rintro ⟨⟨b, t⟩, h1, h2⟩
    cases h2
    exact ⟨t, h1, rfl⟩
  · rintro ⟨t, h1, rfl⟩
    exact ⟨(a, t), h1, rfl⟩

section

variable {σ τ α β : Type} {P P' : σ → Prop} {Q Q' : α → σ → Prop}

def Triple (P : σ → Prop) (m : Prog σ α) (Q : α → σ → Prop) : Prop :=
  ∀ s, P s → ∀ a s', m s = some (a, s') → Q a s'

theorem Triple.conseq {m : Prog σ α} (h : Triple P' m Q') (hP : ∀ s, P s → P' s)
    (hQ : ∀ a s, Q' a s → Q a s) : Triple P m Q :=
  fun s hs a s' hm => hQ a s' (h s (hP s hs) a s' hm)

theorem Triple.ret (a : α) (h : ∀ s, P s → Q a s) : Triple P (pure a) Q := by
  intro s hs a' s' hm
  cases hm
  exact h s hs

theorem Triple.bind {m : Prog σ β} {f : β → Prog σ α} {R : β → σ → Prop} (hm : Triple P m R)
    (hf : ∀ b, Triple (R b) (f b) Q) : Triple P (m >>= f) Q := by
  intro s hs a s'' h
  obtain ⟨⟨b, s'⟩, hb, ha⟩ := Option.bind_eq_some_iff.mp h
  exact hf b s' (hm s hs b s' hb) a s'' ha

/-- A read whose value the precondition need not know. -/
theorem Triple.look {f : σ → Prog σ α} (h : ∀ s, Triple P (f s) Q) : Triple P (get >>= f) Q := by
  intro s hs a s' hm
  exact h s s hs a s' hm

/-- The state as it is read. -/
theorem Triple.read {f : σ → Prog σ α} (h : ∀ s, P s → Triple (fun s' => s' = s) (f s) Q) :
    Triple P (get >>= f) Q := by
  intro s hs a s' hm
  exact h s hs s rfl a s' hm

theorem Triple.update {f : σ → σ} {Q : Unit → σ → Prop} (h : ∀ s, P s → Q () (f s)) :
    Triple P (modify f) Q := by
  intro s hs a s' hm
  cases hm
  exact h s hs

theorem Triple.fail : Triple P (failure : Prog σ α) Q := by
  intro s _ a s' hm
  cases hm

theorem Triple.check {b : Prop} [Decidable b] {Q : Unit → σ → Prop}
    (h : b → ∀ s, P s → Q () s) : Triple P (check b) Q := by
  unfold Logic.check
  split
  · exact Triple.ret () (h ‹_›)
  · exact Triple.fail

theorem Triple.when {c : Prop} [Decidable c] {m : Prog σ Unit} {Q : Unit → σ → Prop}
    (h : c → Triple P m Q) (h' : ¬ c → ∀ s, P s → Q () s) : Triple P (when c m) Q := by
  unfold Logic.when
  split
  · exact h ‹_›
  · exact Triple.ret () (h' ‹_›)

theorem Triple.need {o : Option α} (h : ∀ a, o = some a → ∀ s, P s → Q a s) :
    Triple P (need o) Q := by
  cases o with
  | none => exact Triple.fail
  | some a => exact Triple.ret a (h a rfl)

theorem Triple.ite {c : Prop} [Decidable c] {m m' : Prog σ α} (h : c → Triple P m Q)
    (h' : ¬ c → Triple P m' Q) : Triple P (if c then m else m') Q := by
  split
  · exact h ‹_›
  · exact h' ‹_›

/-- A fact that the state does not decide. -/
theorem Triple.pure_pre {c : Prop} {m : Prog σ α} (h : c → Triple P m Q) :
    Triple (fun s => c ∧ P s) m Q :=
  fun s hs a s' hm => h hs.1 s hs.2 a s' hm

/-- A program on a part of the state changes nothing else. -/
theorem Triple.zoom {part : σ → τ} {put : τ → σ → σ} {m : Prog τ α}
    {R : σ → τ → Prop} {S : σ → α → τ → Prop} (hm : ∀ s, Triple (R s) m (S s))
    (hP : ∀ s, P s → R s (part s)) (hQ : ∀ s, P s → ∀ a t, S s a t → Q a (put t s)) :
    Triple P (zoom part put m) Q := by
  intro s hs a s' h
  obtain ⟨⟨b, t⟩, hb, he⟩ := Option.map_eq_some_iff.mp h
  cases he
  exact hQ s hs b t (hm s (part s) (hP s hs) b t hb)

/-! ## Invariants of programs -/

/-- What holds before a program holds after it. -/
def Keeps (P : σ → Prop) (m : Prog σ α) : Prop := Triple P m (fun _ => P)

theorem Keeps.ret (a : α) : Keeps P (pure a) := Triple.ret a (fun _ hs => hs)

theorem Keeps.bind {m : Prog σ β} {f : β → Prog σ α} (hm : Keeps P m) (hf : ∀ b, Keeps P (f b)) :
    Keeps P (m >>= f) :=
  Triple.bind hm hf

theorem Keeps.look {f : σ → Prog σ α} (h : ∀ s, Keeps P (f s)) : Keeps P (get >>= f) :=
  Triple.look h

theorem Keeps.update {f : σ → σ} (h : ∀ s, P s → P (f s)) : Keeps P (modify f) := Triple.update h

theorem Keeps.fail : Keeps P (failure : Prog σ α) := Triple.fail

theorem Keeps.check (b : Prop) [Decidable b] : Keeps P (check b) := Triple.check (fun _ _ hs => hs)

theorem Keeps.when {c : Prop} [Decidable c] {m : Prog σ Unit} (h : c → Keeps P m) :
    Keeps P (when c m) :=
  Triple.when h (fun _ _ hs => hs)

theorem Keeps.need (o : Option α) : Keeps P (need o) := Triple.need (fun _ _ _ hs => hs)

/-- A program on a part of the state that keeps what is known of this part. -/
theorem Keeps.zoom {part : σ → τ} {put : τ → σ → σ} {m : Prog τ α} {R : τ → Prop}
    (hm : Keeps R m) (hP : ∀ s, P s → R (part s)) (hQ : ∀ s t, P s → R t → P (put t s)) :
    Keeps P (zoom part put m) :=
  Triple.zoom (R := fun _ => R) (S := fun _ _ => R) (fun _ => hm) hP (fun s hs _ t ht => hQ s t hs ht)

end

end Logic
end NReduce
