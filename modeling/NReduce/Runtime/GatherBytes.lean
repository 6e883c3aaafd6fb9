import NReduce.Runtime.Gather

/-!
# NReduce.Runtime.GatherBytes

The loop of `maybe_expand_array` for strings. Other than an array of pointers, a string may be split
between the full array and a new one.
-/

namespace NReduce
namespace Runtime
namespace Lists

open Store

section

variable {s : Store} {c a₀ r a : Nat} {σ σ' : Store} {arr : Carray} {t t' : Pntr}
variable (misread : Store → Data → Nat → Pntr)

theorem reads_bytes_take {b i n : Nat} (hb : b < σ.narrays) {l : List (BitVec 8)}
    (hl : (σ.arrays b).elements = .bytes l) (hi : i + n ≤ l.length) :
    Reads misread σ ⟨.array b, i⟩ .byte (.bytes ((l.drop i).take n)) := by
  intro s' hs'
  have hlen : ((l.drop i).take n).length = n := by
    rw [List.length_take, List.length_drop]
    omega
  simp [readData, Elements.size, hs' b hb, hl, hlen, hi]

theorem readsRest_bytes {b i n : Nat} (hb : b < σ.narrays) {l : List (BitVec 8)}
    (hl : (σ.arrays b).elements = .bytes l) (hi : i + n ≤ l.length) {els : Elements}
    (hels : b = a → ∃ m, els = .bytes (l ++ m)) :
    ReadsRest misread σ a els ⟨.array b, i + n⟩ .byte (.bytes (l.drop (i + n))) := by
  intro s' hs' ha
  have hread : ∀ m, (s'.arrays b).elements = .bytes (l ++ m) →
      readData misread s' ⟨.array b, i + n⟩ .byte (Elements.bytes (l.drop (i + n))).size =
        some (.bytes (l.drop (i + n))) := by
    intro m hm
    have hle : i + n + (l.length - (i + n)) ≤ l.length + m.length := by omega
    have hdrop : ((l ++ m).drop (i + n)).take (l.length - (i + n)) = l.drop (i + n) := by
      rw [List.drop_append_of_le_length hi, List.take_append_of_le_length (by rw [List.length_drop]),
        List.take_of_length_le (by rw [List.length_drop])]
    simp [readData, Elements.size, hm, hle, hdrop]
  by_cases hba : b = a
  · subst hba
    obtain ⟨m, rfl⟩ := hels rfl
    obtain h | h := ha rfl
    · exact hread [] (by rw [h, hl, List.append_nil])
    · exact hread m h
  · exact hread [] (by rw [hs' b hb hba, hl, List.append_nil])

theorem expandBytes_aref {d i b k : Nat} {r' : Nat} {σ₁ σ₂ : Store}
    (ha : σ.aref r = some (a, .obj d i)) (hn : σ.nodes d = .aref b t')
    (hw : (σ.arrays b).elements.width = .byte) (hw₀ : (σ.arrays a₀).elements.width = .byte)
    (hfits : (σ.arrays a₀).size + ((σ.arrays b).size - i) ≤ maxArraySize)
    (happ : carrayAppend misread r ⟨.array b, i⟩ ((σ.arrays b).size - i) .byte σ = some (r', σ₁))
    (hset : arefSetTail r' t' σ₁ = some σ₂) :
    expandBytes misread a₀ (k + 1) r σ = expandBytes misread a₀ k r' σ₂ := by
  rw [expandBytes]
  simp only [ha, Option.bind_eq_bind, Option.bind_some, node, hn, hw, hw₀, ne_eq, not_true_eq_false,
    if_false, if_neg (Nat.not_lt.mpr hfits), happ, hset]

theorem expandBytes_large {d i b k : Nat} (ha : σ.aref r = some (a, .obj d i))
    (hn : σ.nodes d = .aref b t') (hw : (σ.arrays b).elements.width = .byte)
    (hw₀ : (σ.arrays a₀).elements.width = .byte)
    (hlarge : maxArraySize < (σ.arrays a₀).size + ((σ.arrays b).size - i)) :
    expandBytes misread a₀ (k + 1) r σ = some (r, σ) := by
  rw [expandBytes]
  simp only [ha, Option.bind_eq_bind, Option.bind_some, node, hn, hw, hw₀, ne_eq, not_true_eq_false,
    if_false, if_pos hlarge]
  rfl

/-- A turn of the loop: the string of the list gets all of the next one, or it gets full and the
rest goes behind it. -/
theorem Gathered.turn_bytes (h : Gathered s c a₀ σ r a arr t) (hw : arr.elements.width = .byte)
    {d i b : Nat} (ht : t = .obj d i) (hn : σ.nodes d = .aref b t')
    (hwb : (σ.arrays b).elements.width = .byte)
    (hw₀ : (σ.arrays a₀).elements.width = .byte)
    (hfits : (σ.arrays a₀).size + ((σ.arrays b).size - i) ≤ maxArraySize) :
    ∃ σ₂ r', (∀ k, expandBytes misread a₀ (k + 1) r σ = expandBytes misread a₀ k r' σ₂) ∧
      ((r' = r ∧ arr.size + ((σ.arrays b).size - i) ≤ maxArraySize ∧ ∃ a' arr' els,
          els.width = .byte ∧ els.size = arr.size + ((σ.arrays b).size - i) ∧
          Absorbed σ σ₂ r a a' arr arr' t' els) ∨
        (maxArraySize < arr.size + ((σ.arrays b).size - i) ∧ ∃ b' arr₁ arr₂ new,
          new.width = .byte ∧ Chained σ σ₂ r a r' b' arr arr₁ arr₂ t' new)) := by
  subst ht
  have hv := h.refers.valid_tail
  have hwf := h.keeps.wf
  have htake := Takes.aref (i := i) hn
  have htaken := htake.taken hwf hv
  have hb := (hwf.aref d b t' hv.1 hn).1
  have hi : i < (σ.arrays b).size := by
    have h2 := hv.2
    simpa only [hn] using h2
  cases hl : (σ.arrays b).elements with
  | pntrs l =>
    rw [hl] at hwb
    cases hwb
  | bytes l =>
    have hlen : (σ.arrays b).size = l.length := by rw [Carray.size, hl, Elements.size]
    rw [hl] at htaken
    by_cases hle : arr.size + (l.length - i) ≤ maxArraySize
    · have hsz : (Elements.bytes (l.drop i)).size = l.length - i := List.length_drop
      obtain ⟨σ₁, σ₂, a', arr', els, hrun, hset, -, happ, hab⟩ := carrayAppend_fits misread h.refers
        (.bytes (l.drop i)) hw rfl htaken.pos (by rwa [hsz])
        (reads_bytes misread hb hl (by omega)) htaken.ok htaken.tail htaken.denote
      obtain ⟨els', happ', hwels, hszels, -⟩ := Elements.append_of_width (.bytes (l.drop i)) hw
      obtain rfl : els' = els := by simpa [happ] using happ'.symm
      rw [hsz, ← hlen] at hrun
      refine ⟨σ₂, r, fun k => expandBytes_aref misread h.refers.aref hn hwb hw₀ hfits hrun hset,
        .inl ⟨rfl, by rwa [hlen], a', arr', els', hwels.trans hw, ?_, hab⟩⟩
      rw [hszels, hsz, hlen]
      rfl
    · have hsize := h.refers.ok.size_le
      have hcap := (hwf.aref d b t' hv.1 hn).2.2.size_le
      have hn₁ : ((l.drop i).take (maxArraySize - arr.size)).length = maxArraySize - arr.size := by
        rw [List.length_take, List.length_drop]
        omega
      have hn₂ : (l.drop (i + (maxArraySize - arr.size))).length =
          l.length - (i + (maxArraySize - arr.size)) := List.length_drop
      have hle' : i + (maxArraySize - arr.size) ≤ l.length := by omega
      have hels : ∀ els, arr.elements.append
          (.bytes ((l.drop i).take (maxArraySize - arr.size))) = some els → b = a →
          ∃ m, els = .bytes (l ++ m) := by
        rintro els happ rfl
        rw [h.refers.array] at hl
        exact ⟨_, by simpa [hl, Elements.append] using happ.symm⟩
      obtain ⟨σ₁, σ₂, r', b', arr₁, arr₂, hrun, hset, -, hch⟩ := carrayAppend_splits misread
        h.refers ⟨.array b, i⟩ (.bytes ((l.drop i).take (maxArraySize - arr.size)))
        (.bytes (l.drop (i + (maxArraySize - arr.size)))) hw rfl rfl
        (by simp only [Elements.size, hn₁]; omega) (by simp only [Elements.size, hn₂]; omega)
        (by simp only [Elements.size, hn₂]; omega) (.inr rfl)
        (reads_bytes_take misread hb hl hle')
        (fun els happ => by
          have hrest := readsRest_bytes misread hb hl hle' (hels els happ)
          simpa only [Elements.size, hn₁] using hrest)
        (by rintro _ ⟨⟩) htaken.tail
        (by
          rw [htaken.denote, ← prepend_append]
          congr 1
          simp only [items, Elements.drop, ← List.map_append]
          rw [← List.drop_drop, List.take_append_drop])
      have htot : (Elements.bytes ((l.drop i).take (maxArraySize - arr.size))).size +
          (Elements.bytes (l.drop (i + (maxArraySize - arr.size)))).size =
          (σ.arrays b).size - i := by
        simp only [Elements.size, hn₁, hn₂, hlen]
        omega
      rw [htot] at hrun
      exact ⟨σ₂, r', fun k => expandBytes_aref misread h.refers.aref hn hwb hw₀ hfits hrun hset,
        .inr ⟨by omega, b', arr₁, arr₂, _, rfl, hch⟩⟩

theorem Gathered.expandBytes_ends (h : Gathered s c a₀ σ r a arr t) (hw : s.Wf)
    (hown : s.Own c a₀) (hw₀ : (σ.arrays a₀).elements.width = .byte) (hends : Ends s c .byte t)
    (k : Nat) : expandBytes misread a₀ (k + 1) r σ = some (r, σ) := by
  rw [expandBytes]
  simp only [h.refers.aref, Option.bind_eq_bind, Option.bind_some]
  cases t with
  | num d => rfl
  | obj d i =>
    have hne : d ≠ c := fun heq => hends.1 i (heq ▸ rfl)
    have hd := h.tail.1
    have hnode := h.changes.nodes d hd hne
    simp only [node]
    cases hn : s.nodes d with
    | aref b tl =>
      obtain ⟨-, harr, -, -⟩ := h.aref hw hown hd hne hn
      have hwid : (s.arrays b).elements.width ≠ .byte := by
        intro hwid
        have htake := Takes.aref (i := i) hn
        rw [hwid] at htake
        exact hends.2 _ _ htake
      simp only [hnode, hn, harr, hw₀, if_pos hwid]
      rfl
    | _ =>
      rw [hnode, hn]
      rfl

/-- The size of the array of `c`, as `SettlesBytes` follows it. -/
def HeadAt (s σ : Store) (c r : Nat) (arr : Carray) (room : Option Nat) (n : Nat) : Prop :=
  (r = c ∧ arr.size = n) ∨
    (s.ncells ≤ r ∧ room = none ∧ n = maxArraySize ∧
      ∃ b tl, σ.nodes c = .aref b tl ∧ (σ.arrays b).elements.width = .byte ∧
        (σ.arrays b).size = maxArraySize)

/-- What holds in every turn of the loop. -/
structure Strings (s : Store) (c a₀ nbytes : Nat) (σ : Store) (r a : Nat) (arr : Carray) (t : Pntr)
    (room : Option Nat) (seen n : Nat) : Prop extends Gathered s c a₀ σ r a arr t where
  width : arr.elements.width = .byte
  place : RoomAt room nbytes a₀ a arr
  width_first : (σ.arrays a₀).elements.width = .byte
  size_first : (σ.arrays a₀).size = seen
  head : HeadAt s σ c r arr room n
  /-- pointers into the list are to what was there before -/
  index : ∀ i, s.Valid (.obj c i) → i < seen

variable {nbytes seen n : Nat} {room : Option Nat}

/-- While the array has not moved, the loop sees its size. -/
theorem Strings.seen_eq (h : Strings s c a₀ nbytes σ r a arr t room seen n)
    (hroom : room.isSome) : seen = n := by
  cases room with
  | none => cases hroom
  | some m =>
    obtain ⟨rfl, -, -⟩ := h.place
    obtain ⟨-, rfl⟩ | ⟨-, hnone, -⟩ := h.head
    · rw [← h.size_first, h.refers.array]
    · cases hnone

/-- The array of the list is the one at `c`, or a new one when `room` is used up. -/
theorem Strings.room_eq (h : Strings s c a₀ nbytes σ r a arr t room seen n) {m : Nat}
    (hle : arr.size + m ≤ maxArraySize) {room' : Option Nat}
    (hroom' : room' = room.bind (reserve nbytes .byte · (min maxArraySize (n + m)))) :
    room' = room.bind (reserve nbytes .byte · (arr.size + m)) := by
  obtain ⟨-, rfl⟩ | ⟨-, rfl, -⟩ := h.head
  · rw [hroom', Nat.min_eq_right hle]
  · rw [hroom']
    rfl

/-- Only a list that has moved away gets more than fits. -/
theorem Strings.moved (h : Strings s c a₀ nbytes σ r a arr t room seen n) {m : Nat}
    (hlarge : maxArraySize < arr.size + m) (hfits : seen + m ≤ maxArraySize) : room = none := by
  cases hroom : room with
  | none => rfl
  | some m =>
    have heq := h.seen_eq (by rw [hroom]; rfl)
    obtain ⟨-, hn⟩ | ⟨-, hnone, -⟩ := h.head
    · omega
    · rw [hroom] at hnone
      cases hnone

theorem Strings.absorb (h : Strings s c a₀ nbytes σ r a arr t room seen n) (hc : c < s.ncells)
    {a' m : Nat} {arr' : Carray} {els : Elements} (ht : s.Valid t') (hw : els.width = .byte)
    (hsize : els.size = arr.size + m) (hle : arr.size + m ≤ maxArraySize)
    (hab : Absorbed σ σ' r a a' arr arr' t' els) {room' : Option Nat}
    (hroom' : room' = room.bind (reserve nbytes .byte · (min maxArraySize (n + m)))) :
    Strings s c a₀ nbytes σ' r a' arr' t' room' (if room'.isSome then n + m else seen)
      (min maxArraySize (n + m)) := by
  have hfirst := h.place.first_absorb h.first h.refers.array hab
  have hrm := h.place.absorb h.first hab
  rw [h.width, hsize] at hfirst hrm
  have hsz' : arr'.size = arr.size + m := by rw [Carray.size, hab.elements, hsize]
  have hr' := h.room_eq hle hroom'
  rw [← hr'] at hfirst hrm
  have hseen : (σ'.arrays a₀).size = if room'.isSome then n + m else seen := by
    have hn : room'.isSome → arr.size = n := by
      intro hs
      obtain ⟨-, hn⟩ | ⟨-, rfl, -⟩ := h.head
      · exact hn
      · rw [hr'] at hs
        cases hs
    rw [Carray.size, hfirst]
    split
    · rename_i hs
      rw [hsize, hn hs]
    · rw [← h.size_first]
      rfl
  refine ⟨h.toGathered.absorb ht hab, ?_, hrm, ?_, hseen, ?_, ?_⟩
  · rw [hab.elements, hw]
  · rw [hfirst]
    split
    · exact hw
    · exact h.width_first
  · obtain ⟨hr, rfl⟩ | ⟨hr, rfl, rfl, hhead⟩ := h.head
    · exact .inl ⟨hr, by rw [hsz', Nat.min_eq_right hle]⟩
    · refine .inr ⟨hr, by rw [hr']; rfl, Nat.min_eq_left (by omega), ?_⟩
      exact h.keeps_head hc hr hab.changes
        (P := fun arr => arr.elements.width = .byte ∧ arr.size = maxArraySize) hhead
  · intro i hi
    have hlt := h.index i hi
    split
    · rename_i hs
      have hroom : room.isSome := by
        cases room with
        | none =>
          rw [hr'] at hs
          cases hs
        | some m => rfl
      have heq := h.seen_eq hroom
      omega
    · exact hlt

theorem Strings.chain (h : Strings s c a₀ nbytes σ r a arr t room seen n) (hc : c < s.ncells)
    {r' b m : Nat} {arr₁ arr₂ : Carray} {new : Elements} (ht : s.Valid t') (hw : new.width = .byte)
    (hlarge : maxArraySize < arr.size + m) (hfits : seen + m ≤ maxArraySize)
    (hch : Chained σ σ' r a r' b arr arr₁ arr₂ t' new) {room' : Option Nat}
    (hroom' : room' = room.bind (reserve nbytes .byte · (min maxArraySize (n + m)))) :
    Strings s c a₀ nbytes σ' r' b arr₂ t' room' (if room'.isSome then n + m else seen)
      (min maxArraySize (n + m)) := by
  obtain rfl := h.moved hlarge hfits
  obtain rfl : room' = none := hroom'
  have ha₀ : a ≠ a₀ := h.place
  have hfirst := hch.changes.arrays a₀ h.first ha₀.symm
  refine ⟨h.toGathered.chain ht hch, ?_, ?_, ?_, ?_, ?_, h.index⟩
  · rw [hch.elements, hw]
  · have h1 := h.first
    have h2 := hch.new_array
    simp only [RoomAt]
    omega
  · rw [hfirst]
    exact h.width_first
  · rw [hfirst]
    exact h.size_first
  · refine .inr ⟨h.changes.ncells_le.trans hch.new_cell, rfl, ?_, ?_⟩
    · obtain ⟨-, hn⟩ | ⟨-, -, hn, -⟩ := h.head
      · omega
      · omega
    · obtain ⟨rfl, -⟩ | ⟨hr, -, -, hhead⟩ := h.head
      · obtain ⟨a₁, t₁, href, -⟩ := hch.head
        refine ⟨a₁, t₁, href.node, ?_, ?_⟩
        · rw [href.array]
          exact hch.width_head (.inl h.width)
        · rw [href.array, hch.size_head]
      · exact h.keeps_head hc hr hch.changes
          (P := fun arr => arr.elements.width = .byte ∧ arr.size = maxArraySize) hhead

/-- The array of `c` in a turn. -/
theorem Strings.head_array (h : Strings s c a₀ nbytes σ r a arr t room seen n) :
    ∃ b tl, σ.nodes c = .aref b tl ∧ (σ.arrays b).elements.width = .byte ∧ (σ.arrays b).size = n := by
  obtain ⟨rfl, rfl⟩ | ⟨-, -, rfl, hhead⟩ := h.head
  · refine ⟨a, t, h.refers.node, ?_, ?_⟩
    · rw [h.refers.array]
      exact h.width
    · rw [h.refers.array]
  · exact hhead

theorem Takes.bytes {d i : Nat} {xs : Elements} (h : Takes s .byte (.obj d i) xs t') :
    ∃ b, s.nodes d = .aref b t' ∧ (s.arrays b).elements.width = .byte ∧
      xs.size = (s.arrays b).size - i := by
  generalize hw : Width.byte = w at h
  cases h with
  | cons hn => cases hw
  | @aref _ _ b tl hn => exact ⟨b, hn, rfl, Elements.size_drop _ _⟩
/-- One turn, as `SettlesBytes` follows it. -/
theorem Strings.turn (h : Strings s c a₀ nbytes σ r a arr t room seen n) (hc : c < s.ncells)
    {d i b m : Nat} (ht : t = .obj d i) (hn : σ.nodes d = .aref b t')
    (hwb : (σ.arrays b).elements.width = .byte) (hm : (σ.arrays b).size - i = m)
    (hfits : seen + m ≤ maxArraySize) (ht' : s.Valid t') {room' : Option Nat}
    (hroom' : room' = room.bind (reserve nbytes .byte · (min maxArraySize (n + m))))
    (hstill : Still s c nbytes .byte room n t → maxArraySize < n + m ∨
      room.bind (reserve nbytes .byte · (n + m)) = none)
    (hrec : ∀ {σ : Store} {r a : Nat} {arr : Carray},
      Strings s c a₀ nbytes σ r a arr t' room' (if room'.isSome then n + m else seen)
        (min maxArraySize (n + m)) →
      Finishes s c a₀ (Still s c nbytes .byte room' (min maxArraySize (n + m)) t')
        (σ.arrays a₀).elements (fun k => expandBytes misread a₀ k r σ)) :
    Finishes s c a₀ (Still s c nbytes .byte room n t) (σ.arrays a₀).elements
      (fun k => expandBytes misread a₀ k r σ) := by
  obtain ⟨σ₂, r', hturn, hcase⟩ := h.turn_bytes misread h.width ht hn hwb h.width_first
    (by rwa [h.size_first, hm])
  have hnone : Still s c nbytes .byte room n t → room' = none := by
    intro hs
    cases hr : room with
    | none => rw [hroom', hr, Option.bind_none]
    | some α =>
      have heq := h.seen_eq (by rw [hr]; rfl)
      rw [hroom', Nat.min_eq_right (by omega)]
      exact (hstill hs).resolve_left (by omega)
  rw [hm] at hcase
  obtain ⟨rfl, hle, a', arr', els, hw, hsize, hab⟩ | ⟨hlarge, b', arr₁, arr₂, new, hw, hch⟩ := hcase
  · have h' := h.absorb hc ht' hw hsize hle hab hroom'
    refine (hrec h').turn hturn (fun hs => ?_)
    have hfirst := h.place.first_absorb h.first h.refers.array hab
    rw [h.width, hsize, ← h.room_eq hle hroom', hnone hs] at hfirst
    rw [hnone hs]
    exact ⟨still_none, hfirst⟩
  · have h' := h.chain hc ht' hw hlarge hfits hch hroom'
    refine (hrec h').turn hturn (fun hs => ?_)
    obtain rfl := h.moved hlarge hfits
    have ha₀ : a ≠ a₀ := h.place
    rw [hnone hs, hch.changes.arrays a₀ h.first ha₀.symm]
    exact ⟨still_none, rfl⟩

theorem expandBytes_of_settles (hw : s.Wf) (hown : s.Own c a₀) (hc : c < s.ncells)
    (hst : SettlesBytes s c nbytes room seen n t) :
    ∀ {σ : Store} {r a : Nat} {arr : Carray},
      Strings s c a₀ nbytes σ r a arr t room seen n →
      Finishes s c a₀ (Still s c nbytes .byte room n t) (σ.arrays a₀).elements
        (fun k => expandBytes misread a₀ k r σ) := by
  induction hst with
  | ends hends =>
    intro σ r a arr h
    exact h.finishes (h.expandBytes_ends misread hw hown h.width_first hends) _
  | @large room seen n d i xs t' hne htake hlarge =>
    intro σ r a arr h
    obtain ⟨b, hn, hwb, hsz⟩ := htake.bytes
    obtain ⟨hn', harr, -, -⟩ := h.aref hw hown h.tail.1 hne hn
    refine h.finishes (fun k => ?_) _
    apply expandBytes_large misread h.refers.aref hn' (by rw [harr, hwb]) h.width_first
    rwa [h.size_first, harr, ← hsz]
  | @ownLarge room seen n i hlarge =>
    intro σ r a arr h
    obtain ⟨b, tl, hn, hwb, hsz⟩ := h.head_array
    refine h.finishes (fun k => ?_) _
    apply expandBytes_large misread h.refers.aref hn hwb h.width_first
    rwa [h.size_first, hsz]
  | @take room room' seen n d i xs t' hne htake hfits hroom _ ih =>
    intro σ r a arr h
    obtain ⟨b, hn, hwb, hsz⟩ := htake.bytes
    obtain ⟨hn', harr, -, -⟩ := h.aref hw hown h.tail.1 hne hn
    exact h.turn misread hc rfl hn' (by rw [harr, hwb]) (by rw [harr, ← hsz]) hfits
      (htake.taken hw h.tail).tail hroom (fun hs => hs.1 _ _ htake) ih
  | @own room room' seen n i hfits hroom _ ih =>
    intro σ r a arr h
    have hi := h.index i h.tail
    obtain ⟨rfl, rfl⟩ | ⟨-, -, rfl, -⟩ := h.head
    · exact h.turn misread hc rfl h.refers.node (by rw [h.refers.array, h.width])
        (by rw [h.refers.array]) hfits h.tail hroom (fun hs => hs.2 i rfl) ih
    · -- the array is full, so the loop does not take it over
      omega

end

end Lists
end Runtime
end NReduce
