import NReduce.Compiler.Lexer
import Mathlib.Data.List.TakeWhile

/-!
# NReduce.Compiler.LexerEscape

Whatever bytes are written between double quotes through `escape`, `unescape` and the lexer give them
back. The lexer reads an escaped byte with one rule and the bytes that stand for themselves in runs,
each as long as possible.
-/

namespace NReduce
namespace Compiler
namespace Lexer

open Logic.Lexing RegularExpression

/-- The bytes that `escape` writes with a backslash -/
def special : List UInt8 := [8, 9, 10, 12, 13, 34, 39, 92]

variable {c : UInt8} {s s' t rest : List UInt8}

/-- Either the byte stands for itself, or it is written as a backslash and a byte that `unescape`
turns back. -/
theorem escapeByte_cases (c : UInt8) :
    (c ∉ special ∧ escapeByte c = [c]) ∨
      (c ∈ special ∧ ∃ x, escapeByte c = [92, x] ∧ unescapeByte x = [c]) := by
  unfold escapeByte
  repeat'
    split
    · subst_vars
      exact .inr ⟨by decide, _, rfl, rfl⟩
  left
  simp_all [special]

theorem escape_cons (c : UInt8) (s : List UInt8) : escape (c :: s) = escapeByte c ++ escape s :=
  List.flatMap_cons

theorem unescape_plain (hc : c ≠ 92) (t : List UInt8) : unescape (c :: t) = c :: unescape t := by
  cases t with
  | nil => simp only [unescape, if_neg hc]
  | cons c' t => rw [unescape, if_neg hc]

theorem unescape_slash (x : UInt8) (t : List UInt8) :
    unescape (92 :: x :: t) = unescapeByte x ++ unescape t := by
  rw [unescape, if_pos rfl]

theorem unescape_escape (s : List UInt8) : unescape (escape s) = s := by
  induction s with
  | nil => rfl
  | cons c s ih =>
    rw [escape_cons]
    obtain ⟨hc, he⟩ | ⟨-, x, he, hx⟩ := escapeByte_cases c
    · have hne : c ≠ 92 := by
        rintro rfl
        exact hc (by decide)
      rw [he, List.singleton_append, unescape_plain hne, ih]
    · rw [he, List.cons_append, List.singleton_append, unescape_slash, hx, ih]
      rfl

/-! ## What does not occur -/

theorem mem_escapeByte {x : UInt8} (h : x ∈ escapeByte c) : x ≠ 10 ∧ x ≠ 13 ∧ x ≠ 9 := by
  unfold escapeByte at h
  repeat'
    split at h
    · simp only [List.mem_cons, List.not_mem_nil, or_false] at h
      obtain rfl | rfl := h <;> decide
  obtain rfl := List.mem_singleton.mp h
  exact ⟨‹_›, ‹_›, ‹_›⟩

theorem mem_escape {x : UInt8} (h : x ∈ escape s) : x ≠ 10 ∧ x ≠ 13 ∧ x ≠ 9 := by
  obtain ⟨c, -, hx⟩ := List.mem_flatMap.mp h
  exact mem_escapeByte hx

/-- The number of backslashes at the end of a text -/
def slashes (a : List UInt8) : Nat := (a.reverse.takeWhile (· = 92)).length

/-- Backslashes in pairs in front of a text change nothing. -/
theorem slashes_append (x a : List UInt8) (hx : slashes x % 2 = 0) :
    slashes (x ++ a) % 2 = slashes a % 2 := by
  unfold slashes at hx ⊢
  rw [List.reverse_append, List.takeWhile_append]
  split
  · next h =>
    rw [List.length_append, h, Nat.add_mod, hx]
    omega
  · rfl

theorem slashes_escapeByte (c : UInt8) : slashes (escapeByte c) % 2 = 0 := by
  unfold escapeByte
  repeat'
    split
    · decide
  simp_all [slashes]

/-- Only the escaped quote has a quote in it. -/
theorem slashes_of_escapeByte {a b : List UInt8} (h : escapeByte c = a ++ 34 :: b) :
    slashes a % 2 = 1 := by
  obtain ⟨hc, he⟩ | ⟨-, x, he, -⟩ := escapeByte_cases c
  · rw [he] at h
    cases a with
    | nil =>
      obtain ⟨rfl, -⟩ := List.cons.inj h
      exact absurd (by decide) hc
    | cons y a => simp at h
  · rw [he] at h
    cases a with
    | nil => cases (List.cons.inj h).1
    | cons y a =>
      obtain ⟨rfl, h⟩ := List.cons.inj h
      cases a with
      | nil => rfl
      | cons z a => simp at h

/-- A quote stands behind an odd number of backslashes. -/
theorem slashes_escape {a b : List UInt8} (h : escape s = a ++ 34 :: b) : slashes a % 2 = 1 := by
  induction s generalizing a with
  | nil => simp [escape] at h
  | cons c s ih =>
    rw [escape_cons] at h
    have hpair := slashes_escapeByte c
    obtain ⟨a', rfl, h'⟩ | ⟨d, hd, h'⟩ := List.append_eq_append_iff.mp h
    · rw [slashes_append _ _ hpair]
      exact ih h'
    · cases d with
      | nil =>
        rw [List.append_nil] at hd
        rw [← hd, ← List.append_nil (escapeByte c), slashes_append _ _ hpair]
        exact ih (a := []) h'.symm
      | cons y d =>
        obtain ⟨rfl, -⟩ := List.cons.inj h'
        exact slashes_of_escapeByte hd

/-! ## The lexer -/

theorem mem_bytes (c : UInt8) : c ∈ bytes :=
  List.mem_map.mpr ⟨c.toNat, List.mem_range.mpr c.toNat_lt, UInt8.ofNat_toNat⟩

theorem mem_noneOf {l : List UInt8} : c ∈ noneOf l ↔ c ∉ l := by
  simp [noneOf, mem_bytes]

theorem filter_string : rules.filter (fun r => r.cond = Cond.string) = stringRules := rfl

theorem filter_initial : rules.filter (fun r => r.cond = Cond.initial) =
    commentRules.filter (fun r => r.cond = Cond.initial) ++
      ⟨.initial, word [34], openString⟩ :: tokenRules := rfl

theorem cstring_of_notMem (h : 0 ∉ s) : cstring s = s := by
  apply List.takeWhile_eq_self_iff.mpr
  intro c hc
  have hne : c ≠ 0 := by
    rintro rfl
    exact h hc
  simpa using hne

/-- The start of a string -/
theorem next_open (line : Nat) (text : List UInt8) :
    nextRule (.start line) (34 :: text) = some (⟨.initial, word [34], openString⟩, 1) := by
  have hpre : ((commentRules.filter (fun r => r.cond = Cond.initial)).all
      fun r => !starts r.pattern 34) = true := rfl
  have hpost : (tokenRules.dropLast.all fun r => !starts r.pattern 34) = true := rfl
  have hlast : tokenRules = tokenRules.dropLast ++ [⟨.initial, dot, ret .error⟩] := rfl
  show choose Rule.pattern (34 :: text) (rules.filter (fun r => r.cond = Cond.initial)) = _
  rw [filter_initial]
  have hopen : longest (Rule.pattern ⟨.initial, word [34], openString⟩) (34 :: text) = some 1 :=
    longest_word (w := [34]) (List.cons_ne_nil _ _)
  apply choose_eq hopen
  · intro r hr k hk
    have h := List.all_eq_true.mp hpre r hr
    rw [longest_of_not_starts (by simpa using h)] at hk
    cases hk
  · intro r hr k hk
    rw [hlast, List.mem_append, List.mem_singleton] at hr
    obtain hr | rfl := hr
    · have h := List.all_eq_true.mp hpost r hr
      rw [longest_of_not_starts (by simpa using h)] at hk
      cases hk
    · have hdot : longest dot (34 :: text) = some 1 := longest_oneOf (mem_noneOf.mpr (by decide))
      rw [show longest dot (34 :: text) = some k from hk] at hdot
      exact (Option.some.inj hdot).le

variable {lex : Option (List UInt8)} {line : Nat}

/-- The rules behind the first one begin with a backslash, or with a byte that stands for itself. -/
theorem starts_slash_or_plain {r : Rule} (hr : r ∈ stringRules.tail) (h92 : 92 ≠ c)
    (hplain : c ∉ noneOf [92, 34]) : starts r.pattern c = false := by
  simp only [stringRules, List.tail_cons, List.mem_cons, List.not_mem_nil, or_false] at hr
  obtain rfl | rfl | rfl | rfl | rfl | rfl | rfl := hr
  iterate 5
    · rw [starts_word_cons, decide_eq_false h92]
  · show (starts (word [92]) c || (false && _)) = false
    rw [starts_word_cons, decide_eq_false h92, Bool.false_and, Bool.or_false]
  · rw [starts_many, starts_oneOf, decide_eq_false hplain]

/-- The end of a string -/
theorem next_close (text : List UInt8) :
    nextRule ⟨.string, lex, line⟩ (34 :: text) = some (⟨.string, word [34], closeString⟩, 1) := by
  have hclose : longest (Rule.pattern ⟨.string, word [34], closeString⟩) (34 :: text) = some 1 :=
    longest_word (w := [34]) (List.cons_ne_nil _ _)
  have hsplit : stringRules = [] ++ ⟨.string, word [34], closeString⟩ :: stringRules.tail := rfl
  show choose Rule.pattern (34 :: text) (rules.filter (fun r => r.cond = Cond.string)) = _
  rw [filter_string, hsplit]
  apply choose_eq hclose
  · exact fun r hr => nomatch hr
  · intro r hr k hk
    rw [longest_of_not_starts] at hk
    · cases hk
    · exact starts_slash_or_plain hr (by decide) fun hn => mem_noneOf.mp hn (by decide)

variable (lex line) in
/-- A run of bytes that stand for themselves -/
theorem next_plain {p : List UInt8} (hp : p ≠ []) (hplain : ∀ a ∈ p, a ∉ [(92 : UInt8), 34])
    (hrest : ∀ a ∈ rest.head?, a ∈ [(92 : UInt8), 34]) :
    nextRule ⟨.string, lex, line⟩ (p ++ rest) =
      some (⟨.string, many (oneOf (noneOf [92, 34])), putText⟩, p.length) := by
  have hsplit : stringRules =
      stringRules.dropLast ++ ⟨.string, many (oneOf (noneOf [92, 34])), putText⟩ :: [] := rfl
  have hpre : ∀ c : UInt8, 34 ≠ c → 92 ≠ c →
      ∀ r ∈ stringRules.dropLast, starts r.pattern c = false := by
    intro c h34 h92 r hr
    simp only [stringRules, List.dropLast, List.mem_cons, List.not_mem_nil, or_false] at hr
    obtain rfl | rfl | rfl | rfl | rfl | rfl | rfl := hr
    · rw [starts_word_cons, decide_eq_false h34]
    iterate 5
      · rw [starts_word_cons, decide_eq_false h92]
    · show (starts (word [92]) c || (false && _)) = false
      rw [starts_word_cons, decide_eq_false h92, Bool.false_and, Bool.or_false]
  show choose Rule.pattern (p ++ rest) (rules.filter (fun r => r.cond = Cond.string)) = _
  have hrun : longest (Rule.pattern ⟨.string, many (oneOf (noneOf [92, 34])), putText⟩)
      (p ++ rest) = some p.length :=
    longest_many_oneOf hp (fun a ha => mem_noneOf.mpr (hplain a ha))
      fun a ha hn => mem_noneOf.mp hn (hrest a ha)
  rw [filter_string, hsplit]
  apply choose_eq hrun
  · intro r hr k hk
    cases p with
    | nil => exact absurd rfl hp
    | cons c p =>
      have hc := hplain c (List.mem_cons_self ..)
      simp only [List.mem_cons, List.not_mem_nil, or_false, not_or] at hc
      rw [List.cons_append,
        longest_of_not_starts (hpre c (Ne.symm hc.2) (Ne.symm hc.1) r hr)] at hk
      cases hk
  · exact fun r hr => absurd hr List.not_mem_nil

theorem longest_slash (x y : UInt8) (text : List UInt8) :
    longest (word [92, y]) (92 :: x :: text) = if y = x then some 2 else none := by
  split
  · next h =>
    subst h
    exact longest_word (w := [92, y]) (List.cons_ne_nil _ _)
  · next h =>
    apply longest_word_of_ne
    simpa using h

/-- A backslash and any byte -/
theorem longest_slash_any (x : UInt8) (text : List UInt8) :
    longest (word [92] * (dot + word [10])) (92 :: x :: text) = some 2 := by
  have hany : ∀ {z : List UInt8}, z ∈ (dot + word [10]).matches' ↔ ∃ a, z = [a] := by
    intro z
    rw [matches'_add, Language.mem_add, dot, mem_oneOf, mem_word]
    constructor
    · rintro (⟨a, -, h⟩ | h)
      · exact ⟨a, h⟩
      · exact ⟨10, h⟩
    · rintro ⟨a, rfl⟩
      by_cases ha : a = 10
      · exact .inr (by rw [ha])
      · exact .inl ⟨a, mem_noneOf.mpr (by simpa using ha), rfl⟩
  apply longest_eq (Nat.succ_pos 1)
  · exact Nat.le_add_left 2 _
  · rw [matches'_mul, Language.mem_mul]
    exact ⟨[92], mem_word.mpr rfl, [x], hany.mpr ⟨x, rfl⟩, rfl⟩
  · intro k hk hle hmem
    rw [matches'_mul, Language.mem_mul] at hmem
    obtain ⟨y, hy, z, hz, hyz⟩ := hmem
    obtain ⟨a, rfl⟩ := hany.mp hz
    rw [mem_word.mp hy] at hyz
    have hlen := congrArg List.length hyz
    rw [List.length_take_of_le hle] at hlen
    simp only [List.length_append, List.length_singleton] at hlen
    omega

variable (lex line) in
/-- An escaped byte: the rule that is written for it comes before the one for any byte. -/
theorem next_slash {x : UInt8} (hc : c ∈ special) (hx : escapeByte c = [92, x])
    (text : List UInt8) :
    ∃ r, nextRule ⟨.string, lex, line⟩ (92 :: x :: text) = some (r, 2) ∧
      r.action [92, x] ⟨.string, lex, line⟩ = (State.append ⟨.string, lex, line⟩ [c], none) := by
  have hquote : longest (word [34]) (92 :: x :: text) = none :=
    longest_of_not_starts (starts_word_cons _ _ _)
  have hplain : longest (many (oneOf (noneOf [92, 34]))) (92 :: x :: text) = none := by
    apply longest_of_not_starts
    rw [starts_many, starts_oneOf]
    exact decide_eq_false fun hn => mem_noneOf.mp hn (by decide)
  have hall := longest_slash_any x text
  have hnext : nextRule ⟨.string, lex, line⟩ (92 :: x :: text) =
      choose Rule.pattern (92 :: x :: text) stringRules := by
    rw [nextRule, filter_string]
  rw [hnext]
  refine ⟨if c = x then ⟨.string, word [92] * (dot + word [10]), putSecond⟩
    else ⟨.string, word [92, x], put c⟩, ?_⟩
  simp only [stringRules, choose, hquote, hplain, hall, longest_slash]
  simp only [special, List.mem_cons, List.not_mem_nil, or_false] at hc
  obtain rfl | rfl | rfl | rfl | rfl | rfl | rfl | rfl := hc
  all_goals
    obtain rfl : x = _ := (List.cons.inj (List.cons.inj hx).2).1.symm
    exact ⟨rfl, rfl⟩

/-- The bytes in front that stand for themselves, and what begins with another one -/
theorem escape_plain {p : List UInt8} (hp : ∀ a ∈ p, a ∉ special) (u : List UInt8) :
    escape (p ++ u) = p ++ escape u := by
  induction p with
  | nil => rfl
  | cons a p ih =>
    obtain ⟨-, he⟩ | ⟨ha, -⟩ := escapeByte_cases a
    · rw [List.cons_append, escape_cons, he, ih fun b hb => hp b (List.mem_cons_of_mem a hb)]
      rfl
    · exact absurd ha (hp a (List.mem_cons_self ..))

/-- The longest run of bytes that stand for themselves -/
theorem exists_run (hc : c ∉ special) (s : List UInt8) :
    ∃ p u, c :: s = p ++ u ∧ p ≠ [] ∧ (∀ a ∈ p, a ∉ special) ∧ ∀ a ∈ u.head?, a ∈ special := by
  refine ⟨(c :: s).takeWhile (· ∉ special), (c :: s).dropWhile (· ∉ special),
    (List.takeWhile_append_dropWhile).symm, ?_, fun a ha => ?_, fun a ha => ?_⟩
  · rw [List.takeWhile_cons_of_pos (by simpa using hc)]
    exact List.cons_ne_nil _ _
  · simpa using List.mem_takeWhile_imp ha
  · have h := List.head?_dropWhile_not (fun a => decide (a ∉ special)) (c :: s)
    rw [show ((c :: s).dropWhile (· ∉ special)).head? = some a from ha] at h
    simpa using h

/-- Behind a run there is a backslash or the closing quote. -/
theorem head_escape {u : List UInt8} (hu : ∀ a ∈ u.head?, a ∈ special) :
    ∀ a ∈ (escape u ++ 34 :: rest).head?, a ∈ [(92 : UInt8), 34] := by
  intro a ha
  cases u with
  | nil =>
    obtain rfl : 34 = a := Option.some.inj ha
    decide
  | cons c u =>
    obtain ⟨hc, -⟩ | ⟨-, x, hx, -⟩ := escapeByte_cases c
    · exact absurd (hu c rfl) hc
    · rw [escape_cons, hx] at ha
      obtain rfl : 92 = a := Option.some.inj ha
      decide

theorem yylexFrom_plain {p acc t : List UInt8} {k : Nat} (hp : p ≠ [])
    (hplain : ∀ a ∈ p, a ∉ special) (h0 : 0 ∉ p)
    (ht : ∀ a ∈ t.head?, a ∈ [(92 : UInt8), 34]) :
    yylexFrom (k + 1) ⟨.string, some acc, line⟩ (p ++ t) =
      yylexFrom k ⟨.string, some (acc ++ p), line⟩ t := by
  have hclass : ∀ a ∈ p, a ∉ [(92 : UInt8), 34] := by
    intro a ha hmem
    apply hplain a ha
    revert hmem
    simp only [special, List.mem_cons, List.not_mem_nil, or_false]
    tauto
  have hnext := next_plain (some acc) line hp hclass ht
  obtain ⟨b, q, rfl⟩ := List.exists_cons_of_ne_nil hp
  rw [List.cons_append, yylexFrom, ← List.cons_append, hnext]
  show yylexFrom k ⟨.string, some (acc ++ cstring ((b :: q ++ t).take (b :: q).length)), line⟩
    ((b :: q ++ t).drop (b :: q).length) = _
  rw [List.take_left, List.drop_left, cstring_of_notMem h0]

/-- The string is at its end. -/
theorem yylexFrom_close {acc : List UInt8} {k : Nat} (hacc : 0 ∉ acc)
    (hk : (escape [] ++ 34 :: rest).length < k) :
    yylexFrom k ⟨.string, some acc, line⟩ (escape [] ++ 34 :: rest) =
      some (.string (acc ++ []), .start line, rest) := by
  obtain ⟨k, rfl⟩ : ∃ j, k = j + 1 := ⟨k - 1, by omega⟩
  have hc : cstring (acc ++ [0]) = acc := by
    rw [cstring, List.takeWhile_append_of_pos]
    · simp
    · intro c hc
      have hne : c ≠ 0 := by
        rintro rfl
        exact hacc hc
      simpa using hne
  show yylexFrom (k + 1) _ (34 :: rest) = _
  rw [yylexFrom, next_close]
  show some (Token.string (cstring (acc ++ [0])), State.start line, rest) = _
  rw [hc, List.append_nil]

/-- The lexer reads the rest of a string: `s` is still to be read, after `acc`. -/
theorem yylexFrom_escape (n : Nat) :
    ∀ (s acc : List UInt8) (k : Nat), s.length ≤ n → 0 ∉ s → 0 ∉ acc →
      (escape s ++ 34 :: rest).length < k →
      yylexFrom k ⟨.string, some acc, line⟩ (escape s ++ 34 :: rest) =
        some (.string (acc ++ s), .start line, rest) := by
  induction n with
  | zero =>
    intro s acc k hs _ hacc hk
    obtain rfl := List.length_eq_zero_iff.mp (Nat.le_zero.mp hs)
    exact yylexFrom_close hacc hk
  | succ n ih =>
    intro s acc k hs h0 hacc hk
    cases s with
    | nil => exact yylexFrom_close hacc hk
    | cons c s =>
      obtain ⟨k, rfl⟩ : ∃ j, k = j + 1 := ⟨k - 1, by omega⟩
      obtain ⟨hc, -⟩ | ⟨hc, x, hx, -⟩ := escapeByte_cases c
      · -- a run of bytes that stand for themselves, and what is behind it
        obtain ⟨p, u, hsplit, hp, hplain, hu⟩ := exists_run hc s
        rw [hsplit, escape_plain hplain, List.append_assoc] at hk ⊢
        have hlen := congrArg List.length hsplit
        have hpos := List.length_pos_iff.mpr hp
        simp only [List.length_cons, List.length_append] at hlen hk hs
        have h0p : 0 ∉ p := fun h => h0 (by rw [hsplit]; exact List.mem_append_left _ h)
        have h0u : 0 ∉ u := fun h => h0 (by rw [hsplit]; exact List.mem_append_right _ h)
        rw [yylexFrom_plain hp hplain h0p (head_escape hu), ih u (acc ++ p) k (by omega) h0u
          (by simp [hacc, h0p]) (by simp only [List.length_append, List.length_cons]; omega),
          List.append_assoc]
      · rw [escape_cons, hx] at hk ⊢
        simp only [List.cons_append, List.nil_append, List.length_cons] at hk hs ⊢
        obtain ⟨r, hr, hact⟩ := next_slash (some acc) line hc hx
          (escape s ++ 34 :: rest)
        have h0c : 0 ≠ c := fun h => h0 (by rw [h]; exact List.mem_cons_self ..)
        have h0s : 0 ∉ s := fun h => h0 (List.mem_cons_of_mem c h)
        rw [yylexFrom, hr]
        simp only [List.take_succ_cons, List.take_zero, hact]
        show yylexFrom k ⟨.string, some (acc ++ [c]), line⟩ (escape s ++ 34 :: rest) = _
        rw [ih s (acc ++ [c]) k (by omega) h0s (by simp [hacc, h0c]) (by omega), List.append_assoc]
        rfl

/-- Escaped bytes between double quotes are read as one token. -/
theorem yylex_escape (h0 : 0 ∉ s) (line : Nat) (rest : List UInt8) :
    yylex (.start line) (34 :: (escape s ++ 34 :: rest)) =
      some (.string s, .start line, rest) := by
  rw [yylex, List.length_cons, yylexFrom, next_open]
  show yylexFrom _ ⟨.string, some [], line⟩ (escape s ++ 34 :: rest) = _
  rw [yylexFrom_escape s.length s [] _ (Nat.le_refl _) h0 (by simp) (Nat.lt_succ_self _)]
  rfl

/-- What is written through `escape` comes back from `unescape` and from the lexer, and the text in
between has no newline, carriage return or tab in it, and no double quote that would end a string. -/
theorem escape_correct (s : List UInt8) (h0 : 0 ∉ s) :
    unescape (escape s) = s ∧
      (∀ c ∈ escape s, c ≠ 10 ∧ c ≠ 13 ∧ c ≠ 9) ∧
      (∀ a b, escape s = a ++ 34 :: b → slashes a % 2 = 1) ∧
      ∀ line rest, yylex (.start line) (34 :: (escape s ++ 34 :: rest)) =
        some (.string s, .start line, rest) :=
  ⟨unescape_escape s, fun _ => mem_escape, fun _ _ => slashes_escape, yylex_escape h0⟩

/-- The string `a"\` and a newline -/
theorem escape_correct_four :
    escape [97, 34, 92, 10] = [97, 92, 34, 92, 92, 92, 110] ∧
      unescape (escape [97, 34, 92, 10]) = [97, 34, 92, 10] ∧
      yylex (.start 1) (34 :: (escape [97, 34, 92, 10] ++ [34, 41])) =
        some (.string [97, 34, 92, 10], .start 1, [41]) := by
  have h := escape_correct [97, 34, 92, 10] (by decide)
  exact ⟨by decide, h.1, h.2.2.2 1 [41]⟩

end Lexer
end Compiler
end NReduce
