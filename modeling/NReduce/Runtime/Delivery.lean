import NReduce.Runtime.Group

/-!
# NReduce.Runtime.Delivery

The channels of a group after a step: what is taken out, what is added, and weights of what is in
flight.
-/

namespace NReduce
namespace Runtime

open Network

variable {n : Nat} {W : Work n}

/-- The weight of the message that a step took, at its receiver. -/
def Event.tookWeight (f : Msg n W.Msg → Nat) (e : Event W) (b : Party n) : Nat :=
  match e.took with
  | some (_, m) => if b = e.actor then f m else 0
  | none => 0

/-- The message that the step takes is the oldest of its channel. -/
def Event.Fits (e : Event W) (s : Group W) : Prop :=
  ∀ j m, e.took = some (j, m) → ∃ rest, s.chan j e.actor = m :: rest

theorem load_deliver (f : Msg n W.Msg → Nat) {s : Group W} {e : Event W} (h : e.Fits s)
    (b : Party n) :
    Channels.load f (s.deliver e).chan b + e.tookWeight f b =
      Channels.load f s.chan b + ((Channels.sentTo e.out b).map f).sum := by
  simp only [Group.deliver, Channels.load_sendAll, Event.tookWeight]
  cases ht : e.took with
  | none => rfl
  | some jm =>
    obtain ⟨j, m⟩ := jm
    obtain ⟨rest, hr⟩ := h j m ht
    by_cases hb : b = e.actor
    · subst hb
      have := Channels.load_pop f s.chan hr
      simp only [if_pos]
      omega
    · simp only [if_neg hb, Channels.load_pop_other f s.chan hb]
      omega

theorem chan_deliver (s : Group W) (e : Event W) (a b : Party n) :
    (s.deliver e).chan a b =
      (match e.took with
        | some (j, _) => if a = j ∧ b = e.actor then (s.chan a b).tail else s.chan a b
        | none => s.chan a b) ++ if a = e.actor then Channels.sentTo e.out b else [] := by
  simp only [Group.deliver, Channels.sendAll_apply]
  cases e.took with
  | none => rfl
  | some jm => rfl

theorem mem_chan_deliver {s : Group W} {e : Event W} {a b : Party n} {m : Msg n W.Msg}
    (h : m ∈ (s.deliver e).chan a b) : m ∈ s.chan a b ∨ (b, m) ∈ e.out := by
  rw [chan_deliver] at h
  rcases List.mem_append.mp h with h | h
  · left
    revert h
    cases e.took with
    | none => exact id
    | some jm =>
      simp only
      split
      · exact List.mem_of_mem_tail
      · exact id
  · right
    by_cases ha : a = e.actor
    · rw [if_pos ha] at h
      exact Channels.mem_sentTo.mp h
    · simp [ha] at h

/-- A message in flight stays there, unless the step takes it. -/
theorem mem_deliver_of_mem {s : Group W} {e : Event W} (h : e.Fits s) {a b : Party n}
    {m : Msg n W.Msg} (hm : m ∈ s.chan a b) (hne : ∀ j m', e.took = some (j, m') → m' ≠ m) :
    m ∈ (s.deliver e).chan a b := by
  rw [chan_deliver]
  apply List.mem_append_left
  cases ht : e.took with
  | none => exact hm
  | some jm =>
    obtain ⟨j, m'⟩ := jm
    simp only
    split
    · rename_i hc
      obtain ⟨rest, hr⟩ := h j m' ht
      rw [hc.1, hc.2] at hm ⊢
      rw [hr] at hm ⊢
      exact (List.mem_cons.mp hm).resolve_left (fun he => hne j m' ht he.symm)
    · exact hm

/-- What a step of `b` takes from `a`, if it is in the view `f`. -/
def Event.takenFrom {β : Type} (f : Msg n W.Msg → Option β) (a b : Party n) (e : Event W) : List β :=
  match e.took with
  | some (j, m) => if j = a ∧ e.actor = b then (f m).toList else []
  | none => []

/-- A view of a channel before and after a step. -/
theorem view_deliver {β : Type} (f : Msg n W.Msg → Option β) {s : Group W} {e : Event W}
    (h : e.Fits s) (a b : Party n) :
    (s.chan a b).filterMap f ++
        (if e.actor = a then (Channels.sentTo e.out b).filterMap f else []) =
      e.takenFrom f a b ++ ((s.deliver e).chan a b).filterMap f := by
  rw [chan_deliver, List.filterMap_append]
  have hif : (if a = e.actor then Channels.sentTo e.out b else []).filterMap f =
      if e.actor = a then (Channels.sentTo e.out b).filterMap f else [] := by
    by_cases ha : e.actor = a
    · rw [if_pos ha.symm, if_pos ha]
    · rw [if_neg (Ne.symm ha), if_neg ha]
      rfl
  rw [hif, ← List.append_assoc]
  congr 1
  unfold Event.takenFrom
  cases ht : e.took with
  | none => rfl
  | some jm =>
    obtain ⟨j, m⟩ := jm
    simp only
    by_cases hc : j = a ∧ e.actor = b
    · obtain ⟨rest, hr⟩ := h j m ht
      rw [hc.1, hc.2] at hr
      rw [if_pos hc, if_pos ⟨hc.1.symm, hc.2.symm⟩, hr, List.tail_cons]
      cases hf : f m with
      | none => simp [List.filterMap_cons_none hf]
      | some x => simp [List.filterMap_cons_some hf]
    · rw [if_neg hc, if_neg (fun hc' => hc ⟨hc'.1.symm, hc'.2.symm⟩)]
      rfl

/-! ## Messages to all tasks -/

theorem sentTo_toAll {V : Type} (m : Msg n V) (i : Fin n) :
    Channels.sentTo (toAll m) (some i) = [m] := by
  have h : (List.finRange n).filter (fun j => j = i) = [i] := by
    rw [List.filter_eq, List.count_eq_one_of_mem (List.nodup_finRange n) (List.mem_finRange i)]
    rfl
  simp [Channels.sentTo, toAll, List.filter_map, Function.comp_def, h]

theorem mem_toAll {V : Type} {m : Msg n V} {d : Party n × Msg n V} (h : d ∈ toAll m) : d.2 = m := by
  obtain ⟨i, -, rfl⟩ := List.mem_map.mp h
  rfl

theorem mem_toOthers {V : Type} {i : Fin n} {m : Msg n V} {d : Party n × Msg n V}
    (h : d ∈ toOthers i m) : d.2 = m := by
  obtain ⟨j, -, rfl⟩ := List.mem_map.mp h
  rfl

theorem mem_toAll_self {V : Type} (i : Fin n) (m : Msg n V) : (some i, m) ∈ toAll m :=
  List.mem_map.mpr ⟨i, List.mem_finRange i, rfl⟩

theorem sum_toAll {V : Type} (f : Msg n V → Nat) (m : Msg n V) (k : Fin n) :
    ((Channels.sentTo (toAll m) (some k)).map f).sum = f m := by
  simp [sentTo_toAll]

theorem sentTo_toAll_none {V : Type} (m : Msg n V) : Channels.sentTo (toAll m) none = [] := by
  rw [Channels.sentTo, List.map_eq_nil_iff, List.filter_eq_nil_iff]
  intro d hd
  obtain ⟨i, -, rfl⟩ := List.mem_map.mp hd
  simp

theorem sum_sentTo_zero {f : Msg n W.Msg → Nat} {out : Sends n W.Msg}
    (h : ∀ d ∈ out, f d.2 = 0) (b : Party n) : ((Channels.sentTo out b).map f).sum = 0 := by
  rw [List.sum_eq_zero_iff_forall_eq_nat]
  intro k hk
  obtain ⟨m, hm, rfl⟩ := List.mem_map.mp hk
  exact h _ (Channels.mem_sentTo.mp hm)

/-! ## The steps of a group -/

theorem fits_receive {s : Group W} {i : Fin n} {m : Msg n W.Msg} {rest : List (Msg n W.Msg)}
    {out : Sends n W.Msg} (hch : s.chan (some i) none = m :: rest) :
    Event.Fits ⟨none, some (some i, m), [], out⟩ s := by
  intro j' m' ht
  simp only [Option.some.injEq, Prod.mk.injEq] at ht
  obtain ⟨rfl, rfl⟩ := ht
  exact ⟨rest, hch⟩

theorem fits_handle {s : Group W} {i : Fin n} {j : Party n} {m : Msg n W.Msg}
    {rest : List (Msg n W.Msg)} {pending : List (Gaddr n)} {out : Sends n W.Msg}
    (hch : s.chan j (some i) = m :: rest) :
    Event.Fits ⟨some i, some (j, m), pending, out⟩ s := by
  intro j' m' ht
  simp only [Option.some.injEq, Prod.mk.injEq] at ht
  obtain ⟨rfl, rfl⟩ := ht
  exact ⟨rest, hch⟩

theorem fits_none (s : Group W) (a : Party n) (pending : List (Gaddr n)) (out : Sends n W.Msg) :
    Event.Fits ⟨a, none, pending, out⟩ s := by
  intro j m ht
  cases ht

/-- A step changes the channels by the delivery that its event describes. -/
theorem Step.chan_eq {s s' : Group W} {e : Event W} (h : Step s e s') :
    s'.chan = (s.deliver e).chan := by
  cases h <;> rfl

theorem Step.fits {s s' : Group W} {e : Event W} (h : Step s e s') : e.Fits s := by
  cases h with
  | timeout _ => exact fits_none _ _ _ _
  | receive hch _ => exact fits_receive hch
  | handle hch _ _ => exact fits_handle hch
  | mark _ => exact fits_none _ _ _ _
  | external _ _ => exact fits_none _ _ _ _
  | evaluate _ _ _ => exact fits_none _ _ _ _

end Runtime
end NReduce
