import NReduce.Runtime.ChordRing

/-!
# NReduce.Runtime.ChordLinks

The links that a Chord node holds to its fingers: `set_noderef`, `count_instances` and `check_links`
(`chord.c`) over `endpoint_link` and `endpoint_unlink` (`node.c`).

`Linked` is a node of `Runtime.Chord` with the outlinks of its endpoint, and the handlers that write
the table are given again with them. `handleLinked_chord` says that on the node they are the same
handlers, `links_run` that the outlinks are the fingers after every handler.
-/

namespace NReduce
namespace Runtime
namespace Chord

/-- The part of `endpoint` that links concern is `outlinks`. -/
structure Linked (E : Type) where
  chord : Chord E
  outlinks : List E

theorem setFinger_self {E : Type} {crd : Chord E} {i : Nat} {cn : Chordnode E} :
    (crd.setFinger i cn).fingers i = cn := Function.update_self ..

theorem setFinger_of_ne {E : Type} {crd : Chord E} {i j : Nat} {cn : Chordnode E} (h : j ≠ i) :
    (crd.setFinger i cn).fingers j = crd.fingers j := Function.update_of_ne h ..

section

variable {E : Type} [DecidableEq E]

/-! ## node.c -/

/-- `endpoint_link`; `list_push` puts the new one at the front. -/
def endpointLink (dest : E) (outlinks : List E) : List E :=
  if dest ∈ outlinks then outlinks else dest :: outlinks

/-- `endpoint_unlink`; `endpoint_list_remove` removes the first one. -/
def endpointUnlink (dest : E) (outlinks : List E) : List E := outlinks.erase dest

/-- `endpoint_check_links`, of the endpoints that are not null -/
def endpointCheckLinks (outlinks epids : List E) : Bool :=
  epids.all (fun e => outlinks.contains e) && outlinks.all (fun e => epids.contains e)

/-! ## chord.c -/

/-- `count_instances`; the loop ends before `MBITS`. -/
def countInstances (crd : Chord E) (epid : E) : Nat :=
  ((List.range' 1 (mbits - 1)).filter (fun i => (crd.fingers i).epid = some epid)).length

namespace Linked

/-- `check_links` -/
def checkLinks (n : Linked E) : Bool :=
  endpointCheckLinks n.outlinks
    ((List.range' 1 (mbits - 1)).filterMap (fun i => (n.chord.fingers i).epid))

/-- What `set_noderef` does before it writes the entry. -/
def unlinkLast (n : Linked E) (ptr : Chordnode E) : List E :=
  match ptr.epid with
  | some e => if countInstances n.chord e = 1 then endpointUnlink e n.outlinks else n.outlinks
  | none => n.outlinks

/-- `set_noderef`, for an entry of the table -/
def setNoderef (n : Linked E) (i : Nat) (cn : Chordnode E) : Linked E :=
  let ptr := n.chord.fingers i
  if ptr.id = cn.id ∧ ptr.epid = cn.epid then n
  else
    let outlinks := n.unlinkLast ptr
    ⟨n.chord.setFinger i cn,
      match cn.epid with
      | some e => endpointLink e outlinks
      | none => outlinks⟩

/-- `set_successor` -/
def setSuccessor (n : Linked E) (cn : Chordnode E) : Linked E := n.setNoderef 1 cn

/-- The loop of `chord_clear_tables`. It is not unfolded where a handler is compared. -/
@[irreducible] def clearFingers (n : Linked E) : Linked E :=
  (List.range' 1 mbits).foldl (fun n i => n.setNoderef i .null) n

/-- `memset(&crd->successors,0,sizeof(crd->successors))` -/
def clearSuccessors (n : Linked E) : Linked E :=
  { n with chord := { n.chord with successors := List.replicate nsuccessors .null } }

/-- `chord_clear_tables` -/
def clearTables (n : Linked E) : Linked E := n.clearFingers.clearSuccessors

end Linked

abbrev LinkedHandler (E : Type) := Except Assertion (Linked E × List (Packet E))

/-- `endpoint_send`, as the last thing that a handler does -/
def sendLinked (n : Linked E) (dest : Option E) (m : Msg E) : LinkedHandler E :=
  match dest with
  | none => .error .send
  | some d => .ok (n, [(d, m)])

/-- `chord_join` -/
def joinLinked (n : Linked E) : Linked E × List (Packet E) :=
  let n := n.clearTables
  match n.chord.initial with
  | none => (n.setSuccessor n.chord.self, [])
  | some initial => (n, [(initial, .findSuccessor n.chord.id n.chord.epid 0 1)])

/-- `duplicate_detected` -/
def duplicateLinked (n : Linked E) (rand : Nat) : Linked E × List (Packet E) :=
  joinLinked { n with chord := { n.chord with id := rand % keyspace } }

/-- `chord_insert` -/
def insertLinked (n : Linked E) (rand : Nat) (predecessor : Option E) (successor : Chordnode E) :
    LinkedHandler E :=
  if successor.id = n.chord.id then .ok (duplicateLinked n rand)
  else sendLinked (n.setSuccessor successor) predecessor (.setNext n.chord.self successor)

/-- `chord_set_next` -/
def setNextLinked (n : Linked E) (newSuccessor oldSuccessor : Chordnode E) : LinkedHandler E :=
  let crd := n.chord
  if oldSuccessor.epid ≠ crd.successor.epid then
    if oldSuccessor.id = crd.successor.id ∨ newSuccessor.id = crd.id then .error .setNext
    else if inrangeOpenClosed newSuccessor.id crd.id crd.successor.id then
      sendLinked n newSuccessor.epid (.insert (some crd.epid) crd.successor)
    else sendLinked n newSuccessor.epid (.insert crd.successor.epid oldSuccessor)
  else if oldSuccessor.id ≠ crd.successor.id then .error .setNext
  else .ok (n.setSuccessor newSuccessor, [])

/-- `chord_got_successor` -/
def gotSuccessorLinked (n : Linked E) (successor : Chordnode E) (payload : Nat) :
    LinkedHandler E :=
  if 1 < payload ∧ successor.isnull = false ∧
      (successor.id ≠ n.chord.id ∨ successor.epid = some n.chord.epid) then
    .ok (n.setNoderef payload successor, [])
  else .error .gotSuccessor

/-- A handler that writes no finger -/
def withLinks (n : Linked E) (r : Handler E) : LinkedHandler E :=
  r.map (fun (crd, sent) => (⟨crd, n.outlinks⟩, sent))

/-- The messages of `chord_thread`. -/
def handleLinked (n : Linked E) (rand : Nat) : Msg E → LinkedHandler E
  | .insert predecessor successor => insertLinked n rand predecessor successor
  | .setNext newSuccessor oldSuccessor => setNextLinked n newSuccessor oldSuccessor
  | .gotSuccessor successor _ payload => gotSuccessorLinked n successor payload
  | m => withLinks n (handle n.chord rand m)

/-! ## The links and the fingers -/

/-- The outlinks are the endpoints of the fingers, each once. Nothing outside of
`fingers[1..MBITS-1]` is set. -/
structure Tied (n : Linked E) : Prop where
  nodup : n.outlinks.Nodup
  mem_iff : ∀ e, e ∈ n.outlinks ↔ ∃ i, 1 ≤ i ∧ i < mbits ∧ (n.chord.fingers i).epid = some e
  outside : ∀ i, i = 0 ∨ mbits ≤ i → n.chord.fingers i = .null

variable {n : Linked E} {i : Nat} {e : E}

theorem mem_instances {crd : Chord E} {j : Nat} :
    j ∈ (List.range' 1 (mbits - 1)).filter (fun i => (crd.fingers i).epid = some e) ↔
      (1 ≤ j ∧ j < mbits) ∧ (crd.fingers j).epid = some e := by
  rw [List.mem_filter, List.mem_range'_1, decide_eq_true_eq]
  rfl

/-- The test of `set_noderef`: the entry is the only one of its endpoint. -/
theorem countInstances_eq_one_iff {crd : Chord E} (hi : 1 ≤ i ∧ i < mbits)
    (he : (crd.fingers i).epid = some e) :
    countInstances crd e = 1 ↔
      ∀ j, 1 ≤ j → j < mbits → (crd.fingers j).epid = some e → j = i := by
  have hmem := mem_instances.mpr ⟨hi, he⟩
  constructor
  · intro hcount j hj hj' hje
    obtain ⟨k, hk⟩ := List.length_eq_one_iff.mp hcount
    have hj := mem_instances.mpr ⟨⟨hj, hj'⟩, hje⟩
    rw [hk] at hmem hj
    rw [List.mem_singleton.mp hmem, List.mem_singleton.mp hj]
  · intro hall
    have hnodup : ((List.range' 1 (mbits - 1)).filter
        (fun j => (crd.fingers j).epid = some e)).Nodup := (List.nodup_range' ..).filter _
    have hrep := List.eq_replicate_of_mem (a := i) (l := (List.range' 1 (mbits - 1)).filter
        (fun j => (crd.fingers j).epid = some e)) (fun j hj => by
      obtain ⟨⟨hj₁, hj₂⟩, hje⟩ := mem_instances.mp hj
      exact hall j hj₁ hj₂ hje)
    have hle : countInstances crd e ≤ 1 := by
      rw [hrep] at hnodup
      exact List.nodup_replicate.mp hnodup
    have hpos : 0 < countInstances crd e := List.length_pos_of_mem hmem
    exact Nat.le_antisymm hle hpos

/-- Before the entry is written, the outlinks are the endpoints of the other entries. -/
theorem Tied.unlinkLast (h : Tied n) (hi : 1 ≤ i ∧ i < mbits) :
    (n.unlinkLast (n.chord.fingers i)).Nodup ∧ ∀ x, x ∈ n.unlinkLast (n.chord.fingers i) ↔
      ∃ j, 1 ≤ j ∧ j < mbits ∧ j ≠ i ∧ (n.chord.fingers j).epid = some x := by
  -- an endpoint that is not the one of the entry
  have hother : ∀ x, (n.chord.fingers i).epid ≠ some x → (x ∈ n.outlinks ↔
      ∃ j, 1 ≤ j ∧ j < mbits ∧ j ≠ i ∧ (n.chord.fingers j).epid = some x) := by
    intro x hx
    rw [h.mem_iff]
    constructor
    · rintro ⟨j, hj, hj', hje⟩
      refine ⟨j, hj, hj', ?_, hje⟩
      rintro rfl
      exact hx hje
    · rintro ⟨j, hj, hj', -, hje⟩
      exact ⟨j, hj, hj', hje⟩
  rw [Linked.unlinkLast]
  cases he : (n.chord.fingers i).epid with
  | none => exact ⟨h.nodup, fun x => hother x (by simp [he])⟩
  | some e =>
    dsimp only
    by_cases hone : countInstances n.chord e = 1
    · rw [if_pos hone]
      refine ⟨h.nodup.erase e, fun x => ?_⟩
      rw [endpointUnlink, h.nodup.mem_erase_iff]
      by_cases hx : x = e
      · subst hx
        refine iff_of_false (fun hn => hn.1 rfl) ?_
        rintro ⟨j, hj, hj', hne, hje⟩
        exact hne ((countInstances_eq_one_iff hi he).mp hone j hj hj' hje)
      · rw [hother x (by simpa [he] using Ne.symm hx)]
        exact and_iff_right hx
    · rw [if_neg hone]
      refine ⟨h.nodup, fun x => ?_⟩
      by_cases hx : x = e
      · subst hx
        refine iff_of_true ((h.mem_iff x).mpr ⟨i, hi.1, hi.2, he⟩) ?_
        by_contra hno
        apply hone
        rw [countInstances_eq_one_iff hi he]
        intro j hj hj' hje
        by_contra hne
        exact hno ⟨j, hj, hj', hne, hje⟩
      · exact hother x (by simpa [he] using Ne.symm hx)

theorem endpointLink_nodup {l : List E} (h : l.Nodup) : (endpointLink e l).Nodup := by
  rw [endpointLink]
  split
  · exact h
  · next hn => exact List.nodup_cons.mpr ⟨hn, h⟩

theorem mem_endpointLink {l : List E} {x : E} : x ∈ endpointLink e l ↔ x = e ∨ x ∈ l := by
  rw [endpointLink]
  split
  · next hm =>
    constructor
    · exact .inr
    · rintro (rfl | hx)
      · exact hm
      · exact hx
  · exact List.mem_cons

theorem Tied.setNoderef (h : Tied n) (hi : 1 ≤ i ∧ i < mbits) (cn : Chordnode E) :
    Tied (n.setNoderef i cn) := by
  obtain ⟨hnodup, hmem⟩ := h.unlinkLast hi
  rw [Linked.setNoderef]
  dsimp only
  split
  · exact h
  refine ⟨?_, fun x => ?_, fun j hj => ?_⟩
  · cases cn.epid with
    | none => exact hnodup
    | some e => exact endpointLink_nodup hnodup
  · have hnew : (∃ j, 1 ≤ j ∧ j < mbits ∧ ((n.chord.setFinger i cn).fingers j).epid = some x) ↔
        cn.epid = some x ∨ ∃ j, 1 ≤ j ∧ j < mbits ∧ j ≠ i ∧ (n.chord.fingers j).epid = some x := by
      constructor
      · rintro ⟨j, hj, hj', hje⟩
        by_cases hji : j = i
        · subst hji
          rw [setFinger_self] at hje
          exact .inl hje
        · rw [setFinger_of_ne hji] at hje
          exact .inr ⟨j, hj, hj', hji, hje⟩
      · rintro (hx | ⟨j, hj, hj', hji, hje⟩)
        · exact ⟨i, hi.1, hi.2, by rwa [setFinger_self]⟩
        · exact ⟨j, hj, hj', by rwa [setFinger_of_ne hji]⟩
    rw [hnew, ← hmem]
    cases cn.epid with
    | none => simp
    | some e =>
      rw [mem_endpointLink, Option.some.injEq, eq_comm]
  · have hji : j ≠ i := by omega
    rw [setFinger_of_ne hji]
    exact h.outside j hj

/-! ## The handlers -/

theorem setNoderef_chord (n : Linked E) (i : Nat) (cn : Chordnode E) :
    (n.setNoderef i cn).chord = n.chord.setFinger i cn := by
  rw [Linked.setNoderef]
  dsimp only
  split
  · next heq =>
    have hcn : n.chord.fingers i = cn := by
      cases hf : n.chord.fingers i
      cases cn
      simp_all
    rw [Chord.setFinger, ← hcn, Function.update_eq_self]
  · rfl

/-- The loop of `chord_clear_tables`, over some of the entries -/
theorem clear_fingers (l : List Nat) : ∀ n : Linked E,
    (l.foldl (fun n i => n.setNoderef i .null) n).chord =
      { n.chord with fingers := fun i => if i ∈ l then .null else n.chord.fingers i } := by
  induction l with
  | nil =>
    intro n
    simp
  | cons i l ih =>
    intro n
    rw [List.foldl_cons, ih, setNoderef_chord]
    have hf : (fun j => if j ∈ l then Chordnode.null else (n.chord.setFinger i .null).fingers j) =
        fun j => if j ∈ i :: l then .null else n.chord.fingers j := by
      funext j
      by_cases hj : j ∈ l
      · rw [if_pos hj, if_pos (List.mem_cons_of_mem i hj)]
      · rw [if_neg hj]
        by_cases hji : j = i
        · subst hji
          rw [setFinger_self, if_pos (List.mem_cons_self ..)]
        · rw [setFinger_of_ne hji, if_neg (by simp [hj, hji])]
    rw [hf]
    rfl

/-- An entry that is cleared; the loop goes one beyond the entries that are counted. -/
theorem Tied.clear (h : Tied n) (hi : 1 ≤ i ∧ i ≤ mbits) : Tied (n.setNoderef i .null) := by
  by_cases hlt : i < mbits
  · exact h.setNoderef ⟨hi.1, hlt⟩ _
  · have hnull := h.outside i (.inr (Nat.le_of_not_lt hlt))
    rw [Linked.setNoderef, hnull]
    exact h

theorem Tied.clearLoop {l : List Nat} (hl : ∀ i ∈ l, 1 ≤ i ∧ i ≤ mbits) :
    ∀ {n : Linked E}, Tied n → Tied (l.foldl (fun n i => n.setNoderef i .null) n) := by
  induction l with
  | nil => exact fun h => h
  | cons i l ih =>
    intro n h
    exact ih (fun j hj => hl j (List.mem_cons_of_mem i hj)) (h.clear (hl i (List.mem_cons_self ..)))

theorem clearLoop_chord (h : Tied n) {l : List Nat} (hl : ∀ i, 1 ≤ i ∧ i ≤ mbits → i ∈ l) :
    (l.foldl (fun n i => n.setNoderef i .null) n).chord =
      { n.chord with fingers := fun _ => .null } := by
  have hf : (fun i => if i ∈ l then Chordnode.null else n.chord.fingers i) = fun _ => .null := by
    funext i
    split
    · rfl
    · next hi =>
      have hrange : ¬ (1 ≤ i ∧ i ≤ mbits) := fun hi' => hi (hl i hi')
      exact h.outside i (by omega)
  rw [clear_fingers, hf]

theorem mem_entries (i : Nat) : i ∈ List.range' 1 mbits ↔ 1 ≤ i ∧ i ≤ mbits := by
  rw [List.mem_range'_1]
  omega

theorem Tied.clearFingers (h : Tied n) : Tied n.clearFingers := by
  unfold Linked.clearFingers
  exact Tied.clearLoop (fun i hi => (mem_entries i).mp hi) h

theorem clearFingers_chord (h : Tied n) :
    n.clearFingers.chord = { n.chord with fingers := fun _ => .null } := by
  unfold Linked.clearFingers
  exact clearLoop_chord h (fun i hi => (mem_entries i).mpr hi)

theorem Tied.clearTables (h : Tied n) : Tied n.clearTables :=
  ⟨h.clearFingers.nodup, h.clearFingers.mem_iff, h.clearFingers.outside⟩

theorem clearTables_chord (h : Tied n) : n.clearTables.chord = n.chord.clearTables := by
  rw [Linked.clearTables, Linked.clearSuccessors, clearFingers_chord h]
  rfl

theorem Tied.setSuccessor (h : Tied n) (cn : Chordnode E) : Tied (n.setSuccessor cn) :=
  h.setNoderef ⟨Nat.le_refl 1, by decide⟩ cn

theorem setSuccessor_chord (n : Linked E) (cn : Chordnode E) :
    (n.setSuccessor cn).chord = n.chord.setSuccessor cn := setNoderef_chord n 1 cn

theorem Tied.join (h : Tied n) : Tied (joinLinked n).1 := by
  rw [joinLinked]
  cases n.clearTables.chord.initial with
  | none => exact h.clearTables.setSuccessor _
  | some initial => exact h.clearTables

theorem joinLinked_chord (h : Tied n) :
    ((joinLinked n).1.chord, (joinLinked n).2) = chordJoin n.chord := by
  have hc := clearTables_chord h
  rw [joinLinked, chordJoin, hc]
  cases n.chord.clearTables.initial with
  | none => simp only [setSuccessor_chord, hc]
  | some initial => simp only [hc]

omit [DecidableEq E] in
theorem Tied.withId (h : Tied n) (id : Nat) :
    Tied { n with chord := { n.chord with id := id } } := ⟨h.nodup, h.mem_iff, h.outside⟩

/-- What a handler does to the node, without the links -/
def LinkedHandler.onChord (r : LinkedHandler E) : Handler E :=
  r.map (fun (n, sent) => (n.chord, sent))

omit [DecidableEq E] in
theorem sendLinked_onChord (n : Linked E) (dest : Option E) (m : Msg E) :
    LinkedHandler.onChord (sendLinked n dest m) = endpointSend n.chord dest m := by
  cases dest <;> rfl

theorem insertLinked_onChord (h : Tied n) (rand : Nat) (predecessor : Option E)
    (successor : Chordnode E) :
    LinkedHandler.onChord (insertLinked n rand predecessor successor) =
      chordInsert n.chord rand predecessor successor := by
  rw [insertLinked, chordInsert]
  split
  · exact congrArg Except.ok (joinLinked_chord (h.withId _))
  · rw [sendLinked_onChord, setSuccessor_chord]

theorem setNextLinked_onChord (n : Linked E) (newSuccessor oldSuccessor : Chordnode E) :
    LinkedHandler.onChord (setNextLinked n newSuccessor oldSuccessor) =
      chordSetNext n.chord newSuccessor oldSuccessor := by
  rw [setNextLinked, chordSetNext]
  split
  · split
    · rfl
    · split <;> exact sendLinked_onChord ..
  · split
    · rfl
    · exact congrArg (fun crd => Except.ok (crd, [])) (setSuccessor_chord n newSuccessor)

theorem gotSuccessorLinked_onChord (n : Linked E) (successor : Chordnode E) (payload : Nat) :
    LinkedHandler.onChord (gotSuccessorLinked n successor payload) =
      chordGotSuccessor n.chord successor payload := by
  rw [gotSuccessorLinked, chordGotSuccessor]
  split
  · exact congrArg (fun crd => Except.ok (crd, [])) (setNoderef_chord n payload successor)
  · rfl

omit [DecidableEq E] in
theorem withLinks_onChord (n : Linked E) (r : Handler E) :
    LinkedHandler.onChord (withLinks n r) = r := by
  cases r <;> rfl

/-- On the node, the handlers are those of `Runtime.Chord`. -/
theorem handleLinked_chord (h : Tied n) (rand : Nat) (m : Msg E) :
    LinkedHandler.onChord (handleLinked n rand m) = handle n.chord rand m := by
  cases m with
  | insert predecessor successor => exact insertLinked_onChord h rand predecessor successor
  | setNext newSuccessor oldSuccessor => exact setNextLinked_onChord n newSuccessor oldSuccessor
  | gotSuccessor successor hops payload => exact gotSuccessorLinked_onChord n successor payload
  | _ => exact withLinks_onChord ..

omit [DecidableEq E] in
theorem Tied.withLinks (h : Tied n) {r : Handler E} {n' : Linked E} {sent : List (Packet E)}
    (hf : ∀ crd sent, r = .ok (crd, sent) → crd.fingers = n.chord.fingers)
    (hr : withLinks n r = .ok (n', sent)) : Tied n' := by
  cases r with
  | error f => cases hr
  | ok res =>
    obtain ⟨crd, sent'⟩ := res
    cases hr
    have hf := hf crd _ rfl
    refine ⟨h.nodup, fun e => ?_, fun i hi => ?_⟩
    · rw [h.mem_iff, hf]
    · rw [hf]
      exact h.outside i hi

omit [DecidableEq E] in
theorem endpointSend_chord {crd crd' : Chord E} {dest : Option E} {m : Msg E}
    {sent : List (Packet E)} (h : endpointSend crd dest m = .ok (crd', sent)) : crd' = crd := by
  cases dest <;> cases h
  rfl

omit [DecidableEq E] in
theorem sendLinked_linked {n' : Linked E} {dest : Option E} {m : Msg E} {sent : List (Packet E)}
    (h : sendLinked n dest m = .ok (n', sent)) : n' = n := by
  cases dest <;> cases h
  rfl

omit [DecidableEq E] in
theorem chordFindSuccessor_chord {crd crd' : Chord E} {id hops payload : Nat} {sender : E}
    {sent : List (Packet E)} (h : chordFindSuccessor crd id sender hops payload = .ok (crd', sent)) :
    crd' = crd := by
  rw [chordFindSuccessor] at h
  split at h
  · cases h
  · split at h
    · split at h <;> cases h <;> rfl
    · exact endpointSend_chord h

/-- The fingers that a message may set: those that the node has asked for. -/
def Answers (asked : List Nat) : Msg E → Prop
  | .gotSuccessor _ _ payload => payload ∈ asked
  | _ => True

instance (asked : List Nat) (m : Msg E) : Decidable (Answers asked m) := by
  unfold Answers
  split <;> infer_instance

theorem Tied.handle (h : Tied n) {asked : List Nat} (hasked : ∀ k ∈ asked, k < mbits) {rand : Nat}
    {m : Msg E} (hm : Answers asked m) {n' : Linked E} {sent : List (Packet E)}
    (hr : handleLinked n rand m = .ok (n', sent)) : Tied n' := by
  cases m with
  | findSuccessor id sender hops payload =>
    exact h.withLinks (fun _ _ hc => by rw [chordFindSuccessor_chord hc]) hr
  | gotSuccessor successor hops payload =>
    rw [handleLinked, gotSuccessorLinked] at hr
    split at hr
    · next hpre =>
      cases hr
      exact h.setNoderef ⟨Nat.le_of_lt hpre.1, hasked payload hm⟩ successor
    · cases hr
  | insert predecessor successor =>
    rw [handleLinked, insertLinked] at hr
    split at hr
    · obtain rfl : (duplicateLinked n rand).1 = n' := congrArg Prod.fst (Except.ok.inj hr)
      exact (h.withId _).join
    · rw [sendLinked_linked hr]
      exact h.setSuccessor successor
  | setNext newSuccessor oldSuccessor =>
    rw [handleLinked, setNextLinked] at hr
    split at hr
    · split at hr
      · cases hr
      · split at hr
        all_goals
          rw [sendLinked_linked hr]
          exact h
    · split at hr
      · cases hr
      · cases hr
        exact h.setSuccessor newSuccessor
  | getSucclist sender => exact h.withLinks (fun _ _ hc => by cases hc; rfl) hr
  | replySucclist sender successors =>
    refine h.withLinks (fun crd sent hc => ?_) hr
    rw [Chord.handle, chordReplySucclist] at hc
    split at hc <;> cases hc <;> rfl

omit [DecidableEq E] in
theorem chordStabilize_chord {crd crd' : Chord E} {rand : Nat} {sent : List (Packet E)}
    (h : chordStabilize crd rand = .ok (crd', sent)) : crd' = crd := by
  rw [chordStabilize] at h
  split at h <;> cases h <;> rfl

/-! ## The run of a node -/

/-- A node with the fingers that its STABILIZE messages have asked for. -/
structure Peer (E : Type) where
  linked : Linked E
  asked : List Nat

inductive Act (E : Type) where
  | receive (m : Msg E) (rand : Nat)
  | stabilize (rand : Nat)

/-- The payloads of the requests among the messages sent -/
def requests (sent : List (Packet E)) : List Nat :=
  sent.filterMap fun p =>
    match p.2 with
    | .findSuccessor _ _ _ payload => some payload
    | _ => none

/-- What a node does, whatever the other nodes send. Only an answer to a request that it has not made
does not occur. -/
def act (p : Peer E) : Act E → Except Assertion (Peer E)
  | .receive m rand =>
    if Answers p.asked m then (handleLinked p.linked rand m).map (fun r => ⟨r.1, p.asked⟩) else .ok p
  | .stabilize rand =>
    (withLinks p.linked (chordStabilize p.linked.chord rand)).map
      (fun r => ⟨r.1, requests r.2 ++ p.asked⟩)

/-- `chord_thread`, up to its loop -/
def Peer.start (e : E) (rand : Nat) (initial : Option E) : Peer E :=
  ⟨(joinLinked ⟨fresh e rand initial, []⟩).1, []⟩

structure Peer.Ok (p : Peer E) : Prop where
  tied : Tied p.linked
  asked : ∀ k ∈ p.asked, k < mbits

omit [DecidableEq E] in
theorem tied_fresh (e : E) (rand : Nat) (initial : Option E) :
    Tied ⟨fresh e rand initial, []⟩ where
  nodup := List.nodup_nil
  mem_iff x := by
    refine iff_of_false (List.not_mem_nil) ?_
    rintro ⟨i, -, -, hi⟩
    cases hi
  outside _ _ := rfl

theorem Peer.start_ok (e : E) (rand : Nat) (initial : Option E) : (Peer.start e rand initial).Ok :=
  ⟨(tied_fresh e rand initial).join, fun _ hk => absurd hk List.not_mem_nil⟩

omit [DecidableEq E] in
/-- `chord_stabilize` asks for one of the fingers that are counted. -/
theorem requests_stabilize {crd crd' : Chord E} {rand : Nat} {sent : List (Packet E)}
    (h : chordStabilize crd rand = .ok (crd', sent)) : ∀ k ∈ requests sent, k < mbits := by
  rw [chordStabilize] at h
  split at h
  · cases h
    exact fun _ hk => absurd hk List.not_mem_nil
  · cases h
    intro k hk
    have hlt : rand % (mbits - 2) < mbits - 2 := Nat.mod_lt _ (by decide)
    obtain rfl : k = 2 + rand % (mbits - 2) := by simpa [requests] using hk
    have : mbits = 8 := rfl
    omega

theorem Peer.Ok.step {p p' : Peer E} {a : Act E} (h : p.Ok) (ha : act p a = .ok p') : p'.Ok := by
  cases a with
  | receive m rand =>
    rw [Chord.act] at ha
    split at ha
    · next hm =>
      cases hr : handleLinked p.linked rand m with
      | error f =>
        rw [hr] at ha
        cases ha
      | ok r =>
        rw [hr] at ha
        cases ha
        exact ⟨h.tied.handle h.asked hm hr, h.asked⟩
    · cases ha
      exact h
  | stabilize rand =>
    rw [Chord.act] at ha
    cases hr : chordStabilize p.linked.chord rand with
    | error f =>
      rw [hr] at ha
      cases ha
    | ok r =>
      rw [hr] at ha
      cases ha
      have hcrd : r.1 = p.linked.chord := chordStabilize_chord hr
      refine ⟨h.tied.withLinks (r := .ok r) (fun crd sent hc => ?_) rfl, ?_⟩
      · cases hc
        exact congrArg Chord.fingers hcrd
      · intro k hk
        obtain hk | hk := List.mem_append.mp hk
        · exact requests_stabilize hr k hk
        · exact h.asked k hk

theorem Peer.Ok.run {acts : List (Act E)} : ∀ {p p' : Peer E}, p.Ok →
    acts.foldlM act p = .ok p' → p'.Ok := by
  induction acts with
  | nil =>
    intro p p' h hr
    cases hr
    exact h
  | cons a acts ih =>
    intro p p' h hr
    rw [List.foldlM_cons] at hr
    cases ha : Chord.act p a with
    | error f =>
      rw [ha] at hr
      cases hr
    | ok p₁ =>
      rw [ha] at hr
      exact ih (h.step ha) hr

/-- `check_links` says what `Tied` says. -/
theorem Tied.checkLinks (h : Tied n) : n.checkLinks = true := by
  have hmem : ∀ x, x ∈ (List.range' 1 (mbits - 1)).filterMap
      (fun i => (n.chord.fingers i).epid) ↔ x ∈ n.outlinks := by
    intro x
    rw [List.mem_filterMap, h.mem_iff]
    constructor
    · rintro ⟨i, hi, hx⟩
      obtain ⟨hi₁, hi₂⟩ := List.mem_range'_1.mp hi
      exact ⟨i, hi₁, hi₂, hx⟩
    · rintro ⟨i, hi₁, hi₂, hx⟩
      exact ⟨i, List.mem_range'_1.mpr ⟨hi₁, hi₂⟩, hx⟩
  rw [Linked.checkLinks, endpointCheckLinks, Bool.and_eq_true, List.all_eq_true, List.all_eq_true]
  exact ⟨fun x hx => List.contains_iff_mem.mpr ((hmem x).mp hx),
    fun x hx => List.contains_iff_mem.mpr ((hmem x).mpr hx)⟩

omit [DecidableEq E] in
/-- The whole table: the last entry is never set. -/
theorem Tied.mem_fingers (h : Tied n) (x : E) : x ∈ n.outlinks ↔
    ∃ i, 1 ≤ i ∧ i ≤ mbits ∧ (n.chord.fingers i).epid = some x := by
  rw [h.mem_iff]
  constructor
  · rintro ⟨i, hi, hi', hx⟩
    exact ⟨i, hi, Nat.le_of_lt hi', hx⟩
  · rintro ⟨i, hi, hi', hx⟩
    refine ⟨i, hi, ?_, hx⟩
    by_contra hlt
    rw [h.outside i (.inr (Nat.le_of_not_lt hlt))] at hx
    cases hx

/-- After any sequence of handlers, the outlinks are the endpoints in the table, each once. -/
theorem links_run (e : E) (rand : Nat) (initial : Option E) (acts : List (Act E)) {p : Peer E}
    (h : acts.foldlM act (Peer.start e rand initial) = .ok p) :
    p.linked.outlinks.Nodup ∧
    (∀ x, x ∈ p.linked.outlinks ↔
      ∃ i, 1 ≤ i ∧ i ≤ mbits ∧ (p.linked.chord.fingers i).epid = some x) ∧
    p.linked.checkLinks = true := by
  have hok := (Peer.start_ok e rand initial).run h
  exact ⟨hok.tied.nodup, hok.tied.mem_fingers, hok.tied.checkLinks⟩

/-! ## The nodes of a ring -/

/-- The node `e` in a run of its own. -/
def PeerOf (e : E) (p : Peer E) : Prop :=
  ∃ (rand : Nat) (initial : Option E) (acts : List (Act E)),
    acts.foldlM act (Peer.start e rand initial) = .ok p

theorem PeerOf.step {p p' : Peer E} {a : Act E} (h : PeerOf e p) (ha : act p a = .ok p') :
    PeerOf e p' := by
  obtain ⟨rand, initial, acts, hr⟩ := h
  refine ⟨rand, initial, acts ++ [a], ?_⟩
  rw [List.foldlM_append, hr]
  show (act p a >>= pure) = _
  rw [ha]
  rfl

/-- A query about a finger comes from a node that has asked for it, and the answer goes there. -/
def AskedBy (peers : E → Option (Peer E)) : Packet E → Prop
  | (d, .gotSuccessor _ _ payload) => ∃ p, peers d = some p ∧ payload ∈ p.asked
  | (_, .findSuccessor _ sender _ payload) =>
    payload ≠ 1 → ∃ p, peers sender = some p ∧ payload ∈ p.asked
  | _ => True

omit [DecidableEq E] in
theorem askedBy_join {peers : E → Option (Peer E)} {crd : Chord E} :
    ∀ q ∈ (chordJoin crd).2, AskedBy peers q := by
  intro q hq
  rw [chordJoin] at hq
  split at hq
  · cases hq
  · obtain rfl := List.mem_singleton.mp hq
    exact fun h => absurd rfl h

omit [DecidableEq E] in
theorem askedBy_send {peers : E → Option (Peer E)} {crd crd' : Chord E} {dest : Option E}
    {m : Msg E} {sent : List (Packet E)} (h : endpointSend crd dest m = .ok (crd', sent))
    (hm : ∀ d, AskedBy peers (d, m)) : ∀ q ∈ sent, AskedBy peers q := by
  cases dest with
  | none => cases h
  | some d =>
    cases h
    intro q hq
    obtain rfl := List.mem_singleton.mp hq
    exact hm d

theorem askedBy_handle {peers : E → Option (Peer E)} {crd crd' : Chord E} {rand : Nat} {m : Msg E}
    {sent : List (Packet E)} (hm : AskedBy peers (e, m)) (h : handle crd rand m = .ok (crd', sent)) :
    ∀ q ∈ sent, AskedBy peers q := by
  cases m with
  | findSuccessor id sender hops payload =>
    rw [handle, chordFindSuccessor] at h
    split at h
    · cases h
    · split at h
      · split at h
        · cases h
          intro q hq
          obtain rfl := List.mem_singleton.mp hq
          trivial
        · next hne =>
          cases h
          intro q hq
          obtain rfl := List.mem_singleton.mp hq
          exact hm hne
      · exact askedBy_send h (fun _ => hm)
  | gotSuccessor successor hops payload =>
    rw [handle, chordGotSuccessor] at h
    split at h <;> cases h
    exact fun q hq => absurd hq List.not_mem_nil
  | insert predecessor successor =>
    rw [handle, chordInsert] at h
    split at h
    · obtain rfl : (duplicateDetected crd rand).2 = sent := congrArg Prod.snd (Except.ok.inj h)
      exact askedBy_join
    · exact askedBy_send h (fun _ => trivial)
  | setNext newSuccessor oldSuccessor =>
    rw [handle, chordSetNext] at h
    split at h
    · split at h
      · cases h
      · split at h <;> exact askedBy_send h (fun _ => trivial)
    · split at h <;> cases h
      exact fun q hq => absurd hq List.not_mem_nil
  | getSucclist sender =>
    cases h
    intro q hq
    obtain rfl := List.mem_singleton.mp hq
    trivial
  | replySucclist sender successors =>
    rw [handle, chordReplySucclist] at h
    split at h <;> cases h <;> exact fun q hq => absurd hq List.not_mem_nil

omit [DecidableEq E] in
theorem askedBy_stabilize {peers : E → Option (Peer E)} {crd crd' : Chord E} {rand : Nat}
    {sent : List (Packet E)} {p : Peer E} (h : chordStabilize crd rand = .ok (crd', sent))
    (hp : peers crd.epid = some p) (hsub : requests sent ⊆ p.asked) :
    ∀ q ∈ sent, AskedBy peers q := by
  rw [chordStabilize] at h
  split at h
  · cases h
    exact fun q hq => absurd hq List.not_mem_nil
  · cases h
    intro q hq
    simp only [List.mem_cons, List.not_mem_nil, or_false] at hq
    obtain rfl | rfl := hq
    · trivial
    · exact fun _ => ⟨p, hp, hsub (by simp [requests])⟩

/-- Each node of the ring is in a run of its own, and what is in flight has been asked for. -/
structure Simulated (s : State E) (peers : E → Option (Peer E)) : Prop where
  node : ∀ e, s.node e = (peers e).map (·.linked.chord)
  peer : ∀ e p, peers e = some p → PeerOf e p
  packet : ∀ q ∈ s.msgs, AskedBy peers q

omit [DecidableEq E] in
theorem AskedBy.mono {peers peers' : E → Option (Peer E)}
    (h : ∀ e p, peers e = some p → ∃ p', peers' e = some p' ∧ p.asked ⊆ p'.asked) {q : Packet E}
    (hq : AskedBy peers q) : AskedBy peers' q := by
  obtain ⟨d, m⟩ := q
  cases m with
  | findSuccessor id sender hops payload =>
    intro hne
    obtain ⟨p, hp, hk⟩ := hq hne
    obtain ⟨p', hp', hsub⟩ := h sender p hp
    exact ⟨p', hp', hsub hk⟩
  | gotSuccessor successor hops payload =>
    obtain ⟨p, hp, hk⟩ := hq
    obtain ⟨p', hp', hsub⟩ := h d p hp
    exact ⟨p', hp', hsub hk⟩
  | _ => trivial

/-- One node goes on. -/
theorem Simulated.update {s : State E} {peers : E → Option (Peer E)} (h : Simulated s peers)
    {p' : Peer E} (hp' : PeerOf e p') (hasked : ∀ p, peers e = some p → p.asked ⊆ p'.asked)
    {msgs : List (Packet E)} {accepted : List E}
    (hmsgs : ∀ q ∈ msgs, AskedBy (Function.update peers e (some p')) q) :
    Simulated ⟨Function.update s.node e (some p'.linked.chord), msgs, accepted⟩
      (Function.update peers e (some p')) where
  node d := by
    by_cases hd : d = e
    · subst hd
      simp
    · simp [Function.update_of_ne hd, h.node d]
  peer d p hp := by
    by_cases hd : d = e
    · subst hd
      rw [Function.update_self] at hp
      cases hp
      exact hp'
    · rw [Function.update_of_ne hd] at hp
      exact h.peer d p hp
  packet := hmsgs

theorem askedBy_update {peers : E → Option (Peer E)} {p' : Peer E}
    (hasked : ∀ p, peers e = some p → p.asked ⊆ p'.asked) {q : Packet E} (hq : AskedBy peers q) :
    AskedBy (Function.update peers e (some p')) q := by
  refine hq.mono (fun d p hp => ?_)
  by_cases hd : d = e
  · subst hd
    exact ⟨p', Function.update_self .., hasked p hp⟩
  · exact ⟨p, by rw [Function.update_of_ne hd, hp], fun _ hk => hk⟩

/-- The node `e` handles a message or a STABILIZE. -/
theorem Simulated.acts {s : State E} {peers : E → Option (Peer E)} (h : Simulated s peers)
    {p p' : Peer E} {a : Act E} (hp : peers e = some p) (ha : act p a = .ok p')
    (hsub : p.asked ⊆ p'.asked) {msgs sent : List (Packet E)} {accepted : List E}
    (hmsgs : ∀ q ∈ msgs, q ∈ s.msgs)
    (hsent : ∀ q ∈ sent, AskedBy (Function.update peers e (some p')) q) :
    Simulated ⟨Function.update s.node e (some p'.linked.chord), msgs ++ sent, accepted⟩
      (Function.update peers e (some p')) := by
  have hasked : ∀ r, peers e = some r → r.asked ⊆ p'.asked := by
    intro r hr
    rw [hp] at hr
    cases hr
    exact hsub
  refine h.update ((h.peer e p hp).step ha) hasked (fun q hq => ?_)
  obtain hq | hq := List.mem_append.mp hq
  · exact askedBy_update hasked (h.packet q (hmsgs q hq))
  · exact hsent q hq

theorem Simulated.tied {s : State E} {peers : E → Option (Peer E)} (h : Simulated s peers)
    {p : Peer E} (hp : peers e = some p) : Tied p.linked := by
  obtain ⟨rand, initial, acts, hr⟩ := h.peer e p hp
  exact ((Peer.start_ok e rand initial).run hr).tied

/-- The handler with the links does what the handler of the ring does. -/
theorem handleLinked_of_handle {crd' : Chord E} {rand : Nat} {m : Msg E} {sent : List (Packet E)}
    (h : Tied n) (hr : handle n.chord rand m = .ok (crd', sent)) :
    ∃ n', handleLinked n rand m = .ok (n', sent) ∧ n'.chord = crd' := by
  have hc := handleLinked_chord h rand m
  rw [hr] at hc
  cases hl : handleLinked n rand m with
  | error f =>
    rw [hl] at hc
    cases hc
  | ok r =>
    rw [hl] at hc
    obtain ⟨n', sent'⟩ := r
    cases hc
    exact ⟨n', rfl, rfl⟩

theorem Simulated.step {s s' : State E} {ev : Event E} {peers : E → Option (Peer E)}
    (hinv : Inv s) (h : Simulated s peers) (hs : step s ev = .ok s') :
    ∃ peers', Simulated s' peers' := by
  cases ev with
  | start e rand initial =>
    rw [Chord.step] at hs
    split at hs
    · next hnew =>
      have hpeer : peers e = none := by
        have hn := h.node e
        rw [hnew.1] at hn
        exact Option.map_eq_none_iff.mp hn.symm
      have hchord : ((Peer.start e rand (some initial)).linked.chord, _) =
          chordJoin (fresh e rand (some initial)) := joinLinked_chord (tied_fresh e rand _)
      have hsent : ∀ q ∈ (chordJoin (fresh e rand (some initial))).2, AskedBy peers q :=
        askedBy_join
      rw [← hchord] at hs hsent
      cases hs
      refine ⟨_, h.update ⟨rand, some initial, [], rfl⟩ (by simp [hpeer]) (fun q hq => ?_)⟩
      obtain hq | hq := List.mem_append.mp hq
      · exact askedBy_update (by simp [hpeer]) (h.packet q hq)
      · exact askedBy_update (by simp [hpeer]) (hsent q hq)
    · cases hs
      exact ⟨peers, h⟩
  | deliver i rand =>
    rw [Chord.step] at hs
    split at hs
    · cases hs
      exact ⟨peers, h⟩
    · next e m hi =>
      have hpacket := h.packet _ (List.mem_of_getElem? hi)
      split at hs
      · cases hs
        exact ⟨peers, h.node, h.peer, fun q hq => h.packet q (List.mem_of_mem_eraseIdx hq)⟩
      · next crd hcrd =>
        obtain ⟨p, hp, rfl⟩ := Option.map_eq_some_iff.mp ((h.node e).symm.trans hcrd)
        cases hr : handle p.linked.chord rand m with
        | error f =>
          rw [hr] at hs
          cases hs
        | ok r =>
          obtain ⟨crd', sent⟩ := r
          rw [hr] at hs
          cases hs
          obtain ⟨n', hl, rfl⟩ := handleLinked_of_handle (h.tied hp) hr
          have hanswers : Answers p.asked m := by
            cases m with
            | gotSuccessor successor hops payload =>
              obtain ⟨p₁, hp₁, hk⟩ := hpacket
              rw [hp] at hp₁
              cases hp₁
              exact hk
            | _ => trivial
          have ha : act p (.receive m rand) = .ok ⟨n', p.asked⟩ := by
            rw [act, if_pos hanswers, hl]
            rfl
          refine ⟨_, h.acts hp ha (fun _ hk => hk) (fun q hq => List.mem_of_mem_eraseIdx hq)
            (fun q hq => ?_)⟩
          refine askedBy_update ?_ (askedBy_handle hpacket hr q hq)
          intro p₁ hp₁
          rw [hp] at hp₁
          cases hp₁
          exact fun _ hk => hk
  | stabilize e rand =>
    rw [Chord.step] at hs
    split at hs
    · cases hs
      exact ⟨peers, h⟩
    · next crd hcrd =>
      obtain ⟨p, hp, rfl⟩ := Option.map_eq_some_iff.mp ((h.node e).symm.trans hcrd)
      have hepid := hinv.epid hcrd
      cases hr : chordStabilize p.linked.chord rand with
      | error f =>
        rw [hr] at hs
        cases hs
      | ok r =>
        obtain ⟨crd', sent⟩ := r
        rw [hr] at hs
        cases hs
        obtain rfl := chordStabilize_chord hr
        have ha : act p (.stabilize rand) =
            .ok ⟨⟨p.linked.chord, p.linked.outlinks⟩, requests sent ++ p.asked⟩ := by
          rw [act, hr]
          rfl
        refine ⟨_, h.acts hp ha (List.subset_append_right _ _) (fun q hq => hq) ?_⟩
        refine askedBy_stabilize (p := ⟨⟨p.linked.chord, p.linked.outlinks⟩, requests sent ++ p.asked⟩)
          hr ?_ (List.subset_append_left _ _)
        rw [hepid, Function.update_self]

theorem simulated_first (e : E) (rand : Nat) : ∃ peers, Simulated (first e rand) peers := by
  have hchord : ((Peer.start e rand none).linked.chord, _) = chordJoin (fresh e rand none) :=
    joinLinked_chord (tied_fresh e rand none)
  have hnone : Simulated (E := E) ⟨fun _ => none, [], []⟩ (fun _ => none) :=
    ⟨fun _ => rfl, by simp, fun _ hq => absurd hq List.not_mem_nil⟩
  rw [first, ← hchord]
  exact ⟨_, hnone.update ⟨rand, none, [], rfl⟩ (by simp) (fun _ hq => absurd hq List.not_mem_nil)⟩

theorem Reachable.simulated {s : State E} (h : Reachable s) : ∃ peers, Simulated s peers := by
  induction h with
  | first e rand => exact simulated_first e rand
  | step hr hs ih =>
    obtain ⟨peers, hp⟩ := ih
    exact hp.step hr.inv hs

/-- Every node of the ring, in every reachable state, is in a run of its own. -/
theorem Reachable.peer {s : State E} (h : Reachable s) {crd : Chord E} (he : s.node e = some crd) :
    ∃ p, PeerOf e p ∧ p.linked.chord = crd := by
  obtain ⟨peers, hp⟩ := h.simulated
  obtain ⟨p, hpe, hcrd⟩ := Option.map_eq_some_iff.mp ((hp.node e).symm.trans he)
  exact ⟨p, hp.peer e p hpe, hcrd⟩

/-- The links of every node of the ring are its fingers, in every reachable state. -/
theorem Reachable.links {s : State E} (h : Reachable s) {crd : Chord E} (he : s.node e = some crd) :
    ∃ outlinks : List E, Tied ⟨crd, outlinks⟩ ∧ ∃ asked, PeerOf e ⟨⟨crd, outlinks⟩, asked⟩ := by
  obtain ⟨⟨⟨crd', outlinks⟩, asked⟩, hp, rfl⟩ := h.peer he
  obtain ⟨rand, initial, acts, hr⟩ := hp
  exact ⟨outlinks, ((Peer.start_ok e rand initial).run hr).tied, asked, rand, initial, acts, hr⟩

end

/-- A run with the node 1 in two entries of the table, one of which is then overwritten. -/
def twoEntries : Except Assertion (Peer Nat) :=
  [.receive (.setNext ⟨9, some 1⟩ ⟨5, some 0⟩) 0, .stabilize 0,
    .receive (.gotSuccessor ⟨9, some 1⟩ 0 2) 0, .receive (.insert (some 1) ⟨7, some 2⟩) 0].foldlM act
      (Peer.start 0 5 none)

theorem links_run_two : ∃ p, twoEntries = .ok p ∧ p.linked.outlinks = [2, 1] ∧
    p.linked.outlinks.Nodup ∧
    (∀ x, x ∈ p.linked.outlinks ↔
      ∃ i, 1 ≤ i ∧ i ≤ mbits ∧ (p.linked.chord.fingers i).epid = some x) ∧
    p.linked.checkLinks = true := by
  have hrun : twoEntries.toOption.map (fun p => p.linked.outlinks) = some [2, 1] := by
    decide +kernel
  cases hr : twoEntries with
  | error f =>
    rw [hr] at hrun
    cases hrun
  | ok p =>
    rw [hr] at hrun
    exact ⟨p, rfl, Option.some.inj hrun, links_run 0 5 none _ hr⟩

end Chord
end Runtime
end NReduce
