import NReduce.Network.IothreadCorrect

/-!
# NReduce.Network.Walk

The loops over the connections of the node. The pointer to the next connection is read before the
turn, and the turn may remove the connection that it is about and append others.

* `rest`: what a loop has still to go through.
* `Onward`: the pointer is still good after the turn, and nothing is left out.
-/

namespace NReduce
namespace Network
namespace Io

open Logic

variable {n n' : Node} {c : Nat}

def rest (n : Node) : Option Nat → List Nat
  | none => []
  | some c => n.connections.dropWhile (· ≠ c)

/-- The loop goes on from the connection `c` to `next`. -/
structure Onward (c : Nat) (next : Option Nat) (n n' : Node) : Prop where
  mem : ∀ d, next = some d → d ∈ n'.connections
  before : ∀ d ∈ rest n' next, n.next ≤ d ∨ d ≠ c ∧ d ∈ rest n (some c)
  left : ∀ d ∈ n'.connections, d < n.next → d ∈ rest n (some c) → d = c ∨ d ∈ rest n' next

theorem mem_dropWhile_ne {l : List Nat} (h : c ∈ l) : c ∈ l.dropWhile (· ≠ c) := by
  induction l with
  | nil => cases h
  | cons d l ih =>
    by_cases hd : d = c
    · simp [hd]
    · rw [List.dropWhile_cons_of_pos (by simpa using hd)]
      exact ih ((List.mem_cons.mp h).resolve_left (Ne.symm hd))

theorem mem_rest (h : c ∈ n.connections) : c ∈ rest n (some c) := mem_dropWhile_ne h

theorem rest_head? (n : Node) : rest n n.connections.head? = n.connections := by
  unfold rest
  cases n.connections <;> simp

theorem dropWhile_ne {pre post : List Nat} (h : c ∉ pre) :
    (pre ++ c :: post).dropWhile (· ≠ c) = c :: post := by
  rw [List.dropWhile_append_of_pos]
  · simp
  · intro d hd
    have hne : d ≠ c := fun he => h (he ▸ hd)
    simpa using hne

theorem Turned.onward (h : Turned c n n') (hbooks : Books n) (hmem : c ∈ n.connections) :
    ∃ next, nextConn n c = .ok next ∧ Onward c next n n' := by
  obtain ⟨pre, post, hl⟩ := List.append_of_mem hmem
  have hnodup := hbooks.nodup
  rw [hl] at hnodup
  obtain ⟨hnotpost, hpre⟩ : c ∉ post ∧ c ∉ pre := by
    simp only [List.nodup_append, List.nodup_cons] at hnodup
    exact ⟨hnodup.2.1.1, fun hc => hnodup.2.2 c hc c List.mem_cons_self rfl⟩
  have hrest : rest n (some c) = c :: post := by rw [rest, hl, dropWhile_ne hpre]
  -- the list behind the turn, with or without `c`
  have hlist : ∃ pre' new, n'.connections = pre' ++ post ++ new ∧
      (∀ d ∈ pre', d = c ∨ d ∈ pre) ∧ ∀ d ∈ new, n.next ≤ d := by
    obtain ⟨new, hl', hnew⟩ | ⟨-, new, hl', hnew⟩ := h.list
    · exact ⟨pre ++ [c], new, by simp [hl', hl], by simp [or_comm], hnew⟩
    · refine ⟨pre, new, ?_, fun d => .inr, hnew⟩
      rw [hl', hl, List.erase_append_right _ hpre, List.erase_cons_head]
  obtain ⟨pre', new, hl', hpre', hnew⟩ := hlist
  refine ⟨post.head?, ?_, ?_⟩
  · rw [nextConn, if_pos hmem, hl, dropWhile_ne hpre, List.tail_cons]
  cases post with
  | nil => exact ⟨fun _ heq => (by cases heq), fun _ heq => (by cases heq), fun d _ _ hd => .inl (by simpa [hrest] using hd)⟩
  | cons p ps =>
    have hpnot : p ∉ pre' := by
      intro hp
      obtain rfl | hp := hpre' p hp
      · exact hnotpost List.mem_cons_self
      · simp only [List.nodup_append] at hnodup
        exact hnodup.2.2 p hp p (List.mem_cons_of_mem _ List.mem_cons_self) rfl
    have hrest' : rest n' (some p) = p :: (ps ++ new) := by
      rw [rest, hl', List.append_assoc, List.cons_append, dropWhile_ne hpnot]
    refine ⟨?_, ?_, ?_⟩
    · rintro d ⟨⟩
      simp [hl']
    · rw [List.head?_cons, hrest', hrest]
      intro d hd
      rw [← List.cons_append] at hd
      obtain hd | hd := List.mem_append.mp hd
      · exact .inr ⟨fun he => hnotpost (he ▸ hd), List.mem_cons_of_mem c hd⟩
      · exact .inl (hnew d hd)
    · rw [List.head?_cons, hrest', hrest]
      intro d _ _ hd
      obtain rfl | hd := List.mem_cons.mp hd
      · exact .inl rfl
      · exact .inr (by simpa [or_assoc] using (List.mem_cons.mp hd).imp_right Or.inl)

/-- A turn of a loop -/
theorem turn_spec {s : State} {R : Node → Prop} (h : Inv [] s.node) (hmem : c ∈ s.node.connections)
    (next : Option Nat → Pc) (body : Conn → Except Fault Node)
    (hbody : ∀ x, s.node.conn c = some x → Safe Fault.bad R (body x))
    (hturned : ∀ n', R n' → Turned c s.node n') :
    Safe Fault.bad (fun s' => ∃ n' d, s' = { s with node := n', pc := next d } ∧ R n' ∧
      Onward c d s.node n') (turn s c next body) := by
  obtain ⟨x, hc, -⟩ := (h.books.mem c).mp hmem
  unfold turn
  rw [Node.get_bind hc]
  have hnext : ∀ n', R n' → ∃ d, nextConn s.node c = .ok d ∧ Onward c d s.node n' :=
    fun n' hn' => (hturned n' hn').onward h.books hmem
  have hok : nextConn s.node c = .ok (s.node.connections.dropWhile (· ≠ c)).tail.head? := if_pos hmem
  rw [hok, ok_bind]
  refine Safe.bind (hbody x hc) fun n' hn' => ?_
  obtain ⟨d, hd, honward⟩ := hnext n' hn'
  rw [hok] at hd
  cases hd
  exact ⟨n', _, rfl, hn', honward⟩

end Io
end Network
end NReduce
