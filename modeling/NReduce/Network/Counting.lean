import Mathlib.Data.Fintype.BigOperators
import Mathlib.Algebra.BigOperators.Group.List.Basic
import Mathlib.Algebra.Order.BigOperators.Group.List
import Mathlib.Data.Int.Order.Basic
import Mathlib.Tactic.Linarith

/-!
# NReduce.Network.Counting

Detecting that a diffusing computation has ended, by counting.

Every party takes messages that are in flight to it, sends new ones while it works on them, and
then reports to an observer one signed number for each party: how much it sent there, less what it
took itself. The observer adds up the reports. They reach it in the order in which one party made
them, but reports of different parties overtake one another, so the sums may be negative on the way
and may be built from a cut of the run that is not consistent.

`Count.Inv.finished`: when all sums are zero, nothing is in flight, no report is on its way and
nobody is at work.
-/

namespace NReduce
namespace Network

variable {ι : Type} [DecidableEq ι]

/-- The state of the computation as the counting sees it. -/
structure Count (ι : Type) where
  /-- the sums of the observer -/
  count : ι → Int
  /-- how much is in flight to a party -/
  flight : ι → Nat
  /-- the reports on their way, the oldest first -/
  reports : ι → List (ι → Int)
  /-- the report that a working party will make -/
  current : ι → Option (ι → Int)

namespace Count

/-- One piece of work that the observer has not heard of: who did it, how much it took, and how
much it sent so far. -/
structure Entry (ι : Type) where
  who : ι
  took : Nat
  sent : ι → Nat

/-- The report of a piece of work. -/
def Entry.report (e : Entry ι) (j : ι) : Int := (e.sent j : Int) - if j = e.who then e.took else 0

theorem Entry.report_other (e : Entry ι) {j : ι} (h : j ≠ e.who) : e.report j = (e.sent j : Int) := by
  simp [Entry.report, h]

/-- The sum of the reports at one party. -/
def total (U : List (Entry ι)) (j : ι) : Int := (U.map (fun e => e.report j)).sum

@[simp] theorem total_nil (j : ι) : total ([] : List (Entry ι)) j = 0 := rfl

@[simp] theorem total_cons (e : Entry ι) (U : List (Entry ι)) (j : ι) :
    total (e :: U) j = e.report j + total U j := by simp [total]

@[simp] theorem total_append (U V : List (Entry ι)) (j : ι) :
    total (U ++ V) j = total U j + total V j := by simp [total]

/-- The reports of one party that the observer has not added, the one being made included. -/
def reportsOf (U : List (Entry ι)) (i : ι) : List (ι → Int) :=
  (U.filter (fun e => e.who = i)).map Entry.report

/-- `U` lists the work that the observer has not heard of, in the order in which it was begun. -/
structure Explains (s : Count ι) (U : List (Entry ι)) : Prop where
  took_pos : ∀ e ∈ U, 0 < e.took
  /-- per party, the list is what is on its way or being made -/
  made : ∀ i, reportsOf U i = s.reports i ++ (s.current i).toList
  /-- the observer's sum and the outstanding reports account for what is in flight -/
  flight : ∀ j, s.count j + total U j = s.flight j
  /-- what a party took had been sent before: by work the observer knows, or by work begun
  earlier -/
  before : ∀ V e W, U = V ++ e :: W → (e.took : Int) ≤ s.count e.who + total V e.who

/-- The invariant of the counting. -/
def Inv (s : Count ι) : Prop := ∃ U, Explains s U

/-- Work that the observer does not know keeps a sum positive: the sum of the party that began
the oldest of it. -/
theorem Inv.finished {s : Count ι} (h : Inv s) (h0 : ∀ i, s.count i = 0) :
    (∀ i, s.flight i = 0) ∧ (∀ i, s.reports i = []) ∧ ∀ i, s.current i = none := by
  obtain ⟨U, hU⟩ := h
  have hnil : U = [] := by
    cases U with
    | nil => rfl
    | cons e W =>
      have h1 := hU.before [] e W rfl
      have h2 := hU.took_pos e List.mem_cons_self
      rw [h0, total_nil] at h1
      omega
  subst hnil
  have hmade : ∀ i, s.reports i ++ (s.current i).toList = [] := fun i => (hU.made i).symm
  refine ⟨fun i => ?_, fun i => (List.append_eq_nil_iff.mp (hmade i)).1, fun i => ?_⟩
  · have := hU.flight i
    rw [h0, total_nil] at this
    omega
  · exact Option.toList_eq_nil_iff.mp (List.append_eq_nil_iff.mp (hmade i)).2

/-- The observer starts with what it sends itself. -/
theorem Inv.start {s : Count ι} (hc : ∀ i, s.count i = s.flight i) (hr : ∀ i, s.reports i = [])
    (hn : ∀ i, s.current i = none) : Inv s := by
  refine ⟨[], ⟨by simp, fun i => ?_, fun j => ?_, fun V e W h => by simp at h⟩⟩
  · rw [hr, hn]
    rfl
  · rw [total_nil, hc, add_zero]

theorem reportsOf_append (U V : List (Entry ι)) (i : ι) :
    reportsOf (U ++ V) i = reportsOf U i ++ reportsOf V i := by
  simp [reportsOf]

theorem reportsOf_cons (e : Entry ι) (U : List (Entry ι)) (i : ι) :
    reportsOf (e :: U) i = if e.who = i then e.report :: reportsOf U i else reportsOf U i := by
  by_cases h : e.who = i <;> simp [reportsOf, h]

/-- `i` takes a part `w` of what is in flight to it and begins to work. -/
theorem Inv.begin {s s' : Count ι} (h : Inv s) {i : ι} {w : Nat} (hw : 0 < w)
    (hidle : s.current i = none) (hflight : s.flight i = s'.flight i + w)
    (hother : ∀ j, j ≠ i → s'.flight j = s.flight j) (hcount : s'.count = s.count)
    (hreports : s'.reports = s.reports)
    (hcur : s'.current i = some (fun j => if j = i then -(w : Int) else 0))
    (hcur' : ∀ j, j ≠ i → s'.current j = s.current j) : Inv s' := by
  obtain ⟨U, hU⟩ := h
  let e : Entry ι := ⟨i, w, fun _ => 0⟩
  have hrep : e.report = fun j => if j = i then -(w : Int) else 0 := by
    funext j
    by_cases hj : j = i <;> simp [Entry.report, e, hj]
  refine ⟨U ++ [e], ⟨?_, ?_, ?_, ?_⟩⟩
  · intro e' he'
    rcases List.mem_append.mp he' with he' | he'
    · exact hU.took_pos e' he'
    · rw [List.mem_singleton.mp he']
      exact hw
  · intro j
    rw [reportsOf_append, hU.made, reportsOf_cons, hreports]
    by_cases hj : j = i
    · subst hj
      rw [if_pos rfl, hidle, hcur, hrep]
      simp [reportsOf]
    · rw [if_neg (Ne.symm hj), hcur' j hj]
      simp [reportsOf]
  · intro j
    have hf := hU.flight j
    rw [total_append, total_cons, total_nil, hcount, add_zero, ← add_assoc, hf, hrep]
    by_cases hj : j = i
    · subst hj
      simp only [if_pos]
      omega
    · simp only [if_neg hj, hother j hj]
      omega
  · intro V e' W hsplit
    rw [hcount]
    rcases List.eq_nil_or_concat W with hW | ⟨W', last, hW⟩
    · -- the new work takes what is in flight, and all of that is accounted for
      subst hW
      obtain ⟨hV, he⟩ := List.append_inj' hsplit rfl
      have hee : e = e' := by simpa using he
      subst hee
      subst hV
      have hf := hU.flight i
      show (w : Int) ≤ s.count i + total U i
      omega
    · subst hW
      have : U = V ++ e' :: W' := by
        have h1 : U ++ [e] = (V ++ e' :: W') ++ [last] := by simpa using hsplit
        exact (List.append_inj' h1 rfl).1
      exact hU.before V e' W' this

/-- The last entry of `i` is the work it is doing. -/
theorem Explains.last {s : Count ι} {U : List (Entry ι)} (hU : Explains s U) {i : ι}
    {v : ι → Int} (hcur : s.current i = some v) :
    ∃ A e B, U = A ++ e :: B ∧ e.who = i ∧ (∀ x ∈ B, x.who ≠ i) ∧ e.report = v ∧
      reportsOf A i = s.reports i := by
  have hmade := hU.made i
  rw [hcur, Option.toList_some] at hmade
  clear hU hcur
  induction U using List.reverseRecOn with
  | nil => simp [reportsOf] at hmade
  | append_singleton U e ih =>
    rw [reportsOf_append, reportsOf_cons] at hmade
    by_cases he : e.who = i
    · rw [if_pos he] at hmade
      obtain ⟨h1, h2⟩ := List.append_inj' hmade rfl
      exact ⟨U, e, [], rfl, he, by simp, (List.cons.inj h2).1, h1⟩
    · rw [if_neg he] at hmade
      obtain ⟨A, e', B, hsplit, hw, hB, hv, hA⟩ := ih (by simpa [reportsOf] using hmade)
      refine ⟨A, e', B ++ [e], by simp [hsplit], hw, ?_, hv, hA⟩
      intro x hx
      rcases List.mem_append.mp hx with hx | hx
      · exact hB x hx
      · rw [List.mem_singleton.mp hx]
        exact he

/-- `i`, at work, sends `w` to `j`. -/
theorem Inv.send {s s' : Count ι} (h : Inv s) {i j : ι} {w : Nat} {v : ι → Int}
    (hcur : s.current i = some v) (hflight : s'.flight j = s.flight j + w)
    (hother : ∀ k, k ≠ j → s'.flight k = s.flight k) (hcount : s'.count = s.count)
    (hreports : s'.reports = s.reports)
    (hnew : s'.current i = some (fun k => if k = j then v k + w else v k))
    (hcur' : ∀ k, k ≠ i → s'.current k = s.current k) : Inv s' := by
  obtain ⟨U, hU⟩ := h
  obtain ⟨A, e, B, rfl, rfl, hB, hv, hA⟩ := hU.last hcur
  let e' : Entry ι := ⟨e.who, e.took, fun k => if k = j then e.sent k + w else e.sent k⟩
  have hrep : ∀ k, e'.report k = e.report k + if k = j then (w : Int) else 0 := by
    intro k
    by_cases hk : k = j
    · simp only [Entry.report, e', hk, if_pos]
      push_cast
      omega
    · simp [Entry.report, e', hk]
  have hBnil : reportsOf B e.who = [] := by
    simp only [reportsOf, List.map_eq_nil_iff, List.filter_eq_nil_iff, decide_eq_true_eq]
    exact hB
  refine ⟨A ++ e' :: B, ⟨?_, ?_, ?_, ?_⟩⟩
  · intro x hx
    rcases List.mem_append.mp hx with hx | hx
    · exact hU.took_pos x (by simp [hx])
    · rcases List.mem_cons.mp hx with rfl | hx
      · exact hU.took_pos e (by simp)
      · exact hU.took_pos x (by simp [hx])
  · intro k
    have hm := hU.made k
    rw [reportsOf_append, reportsOf_cons] at hm ⊢
    rw [hreports]
    by_cases hk : e.who = k
    · subst hk
      rw [if_pos rfl, hBnil, hA, hnew]
      have : e'.report = fun k => if k = j then v k + w else v k := by
        funext k
        rw [hrep, hv]
        by_cases hkj : k = j <;> simp [hkj]
      rw [this]
      rfl
    · rw [if_neg hk] at hm
      rw [if_neg (show ¬ e'.who = k from hk), hcur' k (Ne.symm hk), hm]
  · intro k
    have hf := hU.flight k
    rw [total_append, total_cons] at hf ⊢
    rw [hcount, hrep]
    by_cases hk : k = j
    · subst hk
      rw [if_pos rfl, hflight]
      push_cast
      linarith
    · rw [if_neg hk, hother k hk]
      linarith
  · intro V x W hsplit
    rw [hcount]
    rcases List.append_eq_append_iff.mp hsplit with ⟨V', hV, hsp⟩ | ⟨V', hV, hsp⟩
    · cases V' with
      | nil =>
        simp only [List.append_nil] at hV
        simp only [List.nil_append, List.cons.injEq] at hsp
        obtain ⟨rfl, rfl⟩ := hsp
        subst hV
        exact hU.before _ e _ rfl
      | cons y V' =>
        -- work begun after the one that sends: its sum can only have grown
        simp only [List.cons_append, List.cons.injEq] at hsp
        obtain ⟨rfl, rfl⟩ := hsp
        have hb := hU.before (A ++ e :: V') x W (by simp)
        subst hV
        rw [total_append, total_cons] at hb ⊢
        rw [hrep]
        have : (0 : Int) ≤ if x.who = j then (w : Int) else 0 := by split <;> omega
        linarith
    · cases V' with
      | nil =>
        simp only [List.append_nil] at hV
        simp only [List.nil_append, List.cons.injEq] at hsp
        obtain ⟨rfl, rfl⟩ := hsp
        subst hV
        exact hU.before _ e _ rfl
      | cons y V' =>
        simp only [List.cons_append, List.cons.injEq] at hsp
        obtain ⟨rfl, rfl⟩ := hsp
        subst hV
        exact hU.before V x (V' ++ e :: B) (by simp)

/-- `i` ends its work and sends its report. -/
theorem Inv.report {s s' : Count ι} (h : Inv s) {i : ι} {v : ι → Int}
    (hcur : s.current i = some v) (hflight : s'.flight = s.flight) (hcount : s'.count = s.count)
    (hreports : s'.reports i = s.reports i ++ [v])
    (hreports' : ∀ j, j ≠ i → s'.reports j = s.reports j) (hnone : s'.current i = none)
    (hcur' : ∀ j, j ≠ i → s'.current j = s.current j) : Inv s' := by
  obtain ⟨U, hU⟩ := h
  refine ⟨U, ⟨hU.took_pos, fun j => ?_, fun j => ?_, fun V e W hs => ?_⟩⟩
  · by_cases hj : j = i
    · subst hj
      rw [hU.made, hcur, hreports, hnone]
      simp
    · rw [hU.made, hreports' j hj, hcur' j hj]
  · rw [hcount, hflight]
    exact hU.flight j
  · rw [hcount]
    exact hU.before V e W hs

/-- The observer adds the oldest report of `i`. -/
theorem Inv.collect {s s' : Count ι} (h : Inv s) {i : ι} {v : ι → Int} {rest : List (ι → Int)}
    (hrep : s.reports i = v :: rest) (hreports : s'.reports i = rest)
    (hreports' : ∀ j, j ≠ i → s'.reports j = s.reports j)
    (hcount : ∀ j, s'.count j = s.count j + v j) (hflight : s'.flight = s.flight)
    (hcur : s'.current = s.current) : Inv s' := by
  obtain ⟨U, hU⟩ := h
  -- the first entry of `i` is the one whose report is added
  obtain ⟨A, e, B, rfl, rfl, hA, hv, hB⟩ : ∃ A e B, U = A ++ e :: B ∧ e.who = i ∧
      (∀ x ∈ A, x.who ≠ i) ∧ e.report = v ∧ reportsOf B i = rest ++ (s.current i).toList := by
    have hmade := hU.made i
    rw [hrep, List.cons_append] at hmade
    clear hU hrep hreports hreports' hcount
    induction U with
    | nil => simp [reportsOf] at hmade
    | cons e U ih =>
      rw [reportsOf_cons] at hmade
      by_cases he : e.who = i
      · rw [if_pos he] at hmade
        simp only [List.cons.injEq] at hmade
        exact ⟨[], e, U, rfl, he, by simp, hmade.1, hmade.2⟩
      · rw [if_neg he] at hmade
        obtain ⟨A, e', B, hs, hw, hA, hv, hB⟩ := ih hmade
        refine ⟨e :: A, e', B, by simp [hs], hw, ?_, hv, hB⟩
        intro x hx
        rcases List.mem_cons.mp hx with rfl | hx
        · exact he
        · exact hA x hx
  have hAnil : reportsOf A e.who = [] := by
    simp only [reportsOf, List.map_eq_nil_iff, List.filter_eq_nil_iff, decide_eq_true_eq]
    exact hA
  refine ⟨A ++ B, ⟨?_, ?_, ?_, ?_⟩⟩
  · intro x hx
    apply hU.took_pos x
    rcases List.mem_append.mp hx with hx | hx <;> simp [hx]
  · intro j
    rw [reportsOf_append, hcur]
    by_cases hj : j = e.who
    · subst hj
      rw [hAnil, hB, hreports, List.nil_append]
    · have hm := hU.made j
      rw [reportsOf_append, reportsOf_cons, if_neg (Ne.symm hj)] at hm
      rw [hm, hreports' j hj]
  · intro j
    have hf := hU.flight j
    rw [total_append, total_cons] at hf
    rw [total_append, hcount, hflight, ← hv]
    linarith
  · intro V x W hsplit
    rw [hcount, ← hv]
    rcases List.append_eq_append_iff.mp hsplit with ⟨V', hV, hsp⟩ | ⟨V', hV, hsp⟩
    · have hb := hU.before (A ++ e :: V') x W (by simp [hsp])
      rw [total_append, total_cons] at hb
      rw [hV, total_append]
      linarith
    · cases V' with
      | nil =>
        simp only [List.nil_append] at hsp
        simp only [List.append_nil] at hV
        have hb := hU.before (A ++ [e]) x W (by simp [← hsp])
        rw [total_append, total_cons, total_nil] at hb
        rw [← hV]
        linarith
      | cons y V' =>
        -- work of another party, begun before: the report only adds what was sent to it
        simp only [List.cons_append, List.cons.injEq] at hsp
        obtain ⟨rfl, rfl⟩ := hsp
        have hb := hU.before V x (V' ++ e :: B) (by simp [hV])
        have hne : x.who ≠ e.who := hA x (by simp [hV])
        rw [e.report_other hne]
        have : (0 : Int) ≤ (e.sent x.who : Int) := Int.natCast_nonneg _
        linarith

end Count

end Network
end NReduce
