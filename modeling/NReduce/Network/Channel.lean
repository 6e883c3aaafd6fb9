import Mathlib.Data.List.Basic
import Mathlib.Algebra.BigOperators.Fin
import Mathlib.Algebra.Order.BigOperators.Group.List
import Mathlib.Data.Fintype.Option

/-!
# NReduce.Network.Channel

Message passing between any set of parties: one FIFO queue for each ordered pair, nothing lost and
nothing duplicated, and runs of a labelled transition system.

* `Channels` — the queues, with `send`, `sendAll` and `pop`; `load` adds up a weight over all that
  is in flight to a party.
* `Run`      — the states that a system reaches, each with the labels of the steps taken.
-/

namespace NReduce
namespace Network

/-- The queue from `a` to `b` is `ch a b`, the oldest message first. -/
abbrev Channels (E M : Type) := E → E → List M

namespace Channels

variable {E M : Type} [DecidableEq E]

def send (ch : Channels E M) (a b : E) (m : M) : Channels E M :=
  fun x y => if x = a ∧ y = b then ch x y ++ [m] else ch x y

/-- `a` sends a list of messages, each with its destination, in order. -/
def sendAll (ch : Channels E M) (a : E) : List (E × M) → Channels E M
  | [] => ch
  | (b, m) :: out => (ch.send a b m).sendAll a out

/-- The oldest message from `a` to `b` is taken out. -/
def pop (ch : Channels E M) (a b : E) : Channels E M :=
  fun x y => if x = a ∧ y = b then (ch x y).tail else ch x y

/-- The messages of a list of sends that go to `b`. -/
def sentTo (out : List (E × M)) (b : E) : List M :=
  (out.filter (fun d => d.1 = b)).map Prod.snd

@[simp] theorem sentTo_nil (b : E) : sentTo ([] : List (E × M)) b = [] := rfl

theorem sentTo_cons (d : E × M) (out : List (E × M)) (b : E) :
    sentTo (d :: out) b = if d.1 = b then d.2 :: sentTo out b else sentTo out b := by
  by_cases h : d.1 = b <;> simp [sentTo, h]

theorem sentTo_append (out out' : List (E × M)) (b : E) :
    sentTo (out ++ out') b = sentTo out b ++ sentTo out' b := by
  simp [sentTo]

theorem mem_sentTo {out : List (E × M)} {b : E} {m : M} :
    m ∈ sentTo out b ↔ (b, m) ∈ out := by
  simp only [sentTo, List.mem_map, List.mem_filter, decide_eq_true_eq]
  constructor
  · rintro ⟨d, ⟨hd, rfl⟩, rfl⟩
    exact hd
  · exact fun h => ⟨(b, m), ⟨h, rfl⟩, rfl⟩

theorem send_apply (ch : Channels E M) (a b : E) (m : M) (x y : E) :
    ch.send a b m x y = ch x y ++ if x = a ∧ y = b then [m] else [] := by
  unfold send
  split <;> simp

theorem sendAll_apply : ∀ (out : List (E × M)) (ch : Channels E M) (a x y : E),
    ch.sendAll a out x y = ch x y ++ if x = a then sentTo out y else []
  | [], ch, a, x, y => by simp [sendAll]
  | (b, m) :: out, ch, a, x, y => by
    rw [sendAll, sendAll_apply out, send_apply, sentTo_cons, List.append_assoc]
    by_cases hx : x = a <;> by_cases hy : b = y <;> simp [hx, hy, eq_comm]

theorem pop_self {ch : Channels E M} {a b : E} {m : M} {rest : List M} (h : ch a b = m :: rest) :
    ch.pop a b a b = rest := by
  simp [pop, h]

theorem pop_other (ch : Channels E M) {a b x y : E} (h : ¬ (x = a ∧ y = b)) :
    ch.pop a b x y = ch x y := if_neg h

/-- What is in flight to `b`, each message with its weight. -/
def load [Fintype E] (f : M → Nat) (ch : Channels E M) (b : E) : Nat :=
  ∑ a, ((ch a b).map f).sum

section Load

variable [Fintype E] (f : M → Nat) (ch : Channels E M)

theorem load_sendAll (a : E) (out : List (E × M)) (b : E) :
    load f (ch.sendAll a out) b = load f ch b + ((sentTo out b).map f).sum := by
  simp only [load, sendAll_apply, List.map_append, List.sum_append, Finset.sum_add_distrib]
  congr 1
  rw [Finset.sum_eq_single a]
  · rw [if_pos rfl]
  · intro x _ hx
    rw [if_neg hx]
    rfl
  · intro h
    exact absurd (Finset.mem_univ a) h

theorem load_pop {a b : E} {m : M} {rest : List M} (h : ch a b = m :: rest) :
    load f ch b = load f (ch.pop a b) b + f m := by
  simp only [load]
  rw [← Finset.sum_erase_add _ _ (Finset.mem_univ a),
    ← Finset.sum_erase_add _ (fun x => ((ch.pop a b x b).map f).sum) (Finset.mem_univ a), pop_self h,
    h, List.map_cons, List.sum_cons, add_assoc, add_comm (f m)]
  congr 1
  apply Finset.sum_congr rfl
  intro x hx
  rw [pop_other ch (fun hc => (Finset.ne_of_mem_erase hx) hc.1)]

theorem load_pop_other {a b c : E} (h : c ≠ b) : load f (ch.pop a b) c = load f ch c := by
  simp only [load]
  apply Finset.sum_congr rfl
  intro x _
  rw [pop_other ch (fun hc => h hc.2)]

omit [DecidableEq E] in
theorem load_eq_zero {b : E} : load f ch b = 0 ↔ ∀ a, ∀ m ∈ ch a b, f m = 0 := by
  simp [load, List.sum_eq_zero_iff_forall_eq_nat]

end Load

end Channels

section Runs

variable {S L : Type} {init : S → Prop} {step : S → L → S → Prop}

/-- `Run init step s tr`: the steps `tr`, oldest first, lead from an initial state to `s`. -/
inductive Run (init : S → Prop) (step : S → L → S → Prop) : S → List L → Prop where
  | start {s : S} : init s → Run init step s []
  | next {s s' : S} {tr : List L} {l : L} :
      Run init step s tr → step s l s' → Run init step s' (tr ++ [l])

/-- What holds at the start and is kept by every step holds in all states reached. -/
theorem Run.invariant {I : S → List L → Prop} (h0 : ∀ s, init s → I s [])
    (hstep : ∀ s tr l s', Run init step s tr → I s tr → step s l s' → I s' (tr ++ [l]))
    {s : S} {tr : List L} (h : Run init step s tr) : I s tr := by
  induction h with
  | start hs => exact h0 _ hs
  | next hr hs ih => exact hstep _ _ _ _ hr ih hs

/-- Every part of a run is a run that goes on with the next step. -/
theorem Run.split {s : S} {tr : List L} (h : Run init step s tr) :
    ∀ {tr₁ tr₂ : List L} {l : L}, tr = tr₁ ++ l :: tr₂ →
      ∃ s₁ s₂, Run init step s₁ tr₁ ∧ step s₁ l s₂ := by
  induction h with
  | start _ =>
    intro tr₁ tr₂ l he
    simp at he
  | @next s s' tr l' hr hs ih =>
    intro tr₁ tr₂ l he
    rcases List.eq_nil_or_concat tr₂ with rfl | ⟨tr₂', last, rfl⟩
    · obtain ⟨rfl, hl⟩ := List.append_inj' he rfl
      cases hl
      exact ⟨s, s', hr, hs⟩
    · have : tr ++ [l'] = (tr₁ ++ l :: tr₂') ++ [last] := by simpa using he
      exact ih (List.append_inj' this rfl).1

theorem Run.mono {init' : S → Prop} {step' : S → L → S → Prop} (h0 : ∀ s, init s → init' s)
    (hstep : ∀ s l s', step s l s' → step' s l s') {s : S} {tr : List L} (h : Run init step s tr) :
    Run init' step' s tr := by
  induction h with
  | start hs => exact .start (h0 _ hs)
  | next _ hs ih => exact .next ih (hstep _ _ _ hs)

end Runs

end Network
end NReduce
