import Argot.Text.Matcher
import Mathlib.Data.List.TakeWhile
/-!
# Matching — what matchers take

What each matcher takes is said of the text at whose front it stands.  Replacing goes over a text from left to right: an
occurrence at the front is replaced and the rest goes on (`replaceAll_append`), a character that begins none stays
(`replaceAll_cons`).
-/
namespace Argot
namespace Text

variable {p : Char → Bool}

/-- The characters of a class at the front of a text are what comes before the first character outside of it. -/
theorem takeWhile_append_stop {w y : List Char} (hw : ∀ c ∈ w, p c = true) (hy : ∀ c ∈ y.head?, p c = false) :
    (w ++ y).takeWhile p = w := by
  rw [List.takeWhile_append_of_pos hw]
  cases y with
  | nil => simp
  | cons c y =>
    have hc : p c = false := hy c (by simp)
    simp [hc]

theorem exists_run (p : Char → Bool) (cs : List Char) : ∃ y, cs = cs.takeWhile p ++ y ∧
    (∀ c ∈ cs.takeWhile p, p c = true) ∧ ∀ c ∈ y.head?, p c = false := by
  refine ⟨cs.dropWhile p, List.takeWhile_append_dropWhile.symm, fun c hc => List.mem_takeWhile_imp hc, fun c hc => ?_⟩
  have := List.head?_dropWhile_not p cs
  rw [Option.mem_def.1 hc] at this
  exact this

namespace Matcher

variable {s cs rest : List Char} {m m' : Matcher} {n : Nat}

theorem word_eq_some_iff : word s cs = some n ↔ s <+: cs ∧ n = s.length := by
  unfold word
  by_cases h : s.isPrefixOf cs = true
  · rw [if_pos h, Option.some.injEq]
    exact ⟨fun hn => ⟨List.isPrefixOf_iff_prefix.1 h, hn.symm⟩, fun hn => hn.2.symm⟩
  · rw [if_neg h]
    exact ⟨fun hn => (by cases hn), fun hn => (h (List.isPrefixOf_iff_prefix.2 hn.1)).elim⟩

@[simp] theorem word_append (s rest : List Char) : word s (s ++ rest) = some s.length :=
  word_eq_some_iff.2 ⟨List.prefix_append _ _, rfl⟩

theorem many1_eq_some_iff : many1 p cs = some n ↔ ∃ w y, cs = w ++ y ∧ w ≠ [] ∧ (∀ c ∈ w, p c = true) ∧
    (∀ c ∈ y.head?, p c = false) ∧ n = w.length := by
  unfold many1
  constructor
  · intro h
    obtain ⟨y, hcs, hw, hy⟩ := exists_run p cs
    split at h
    · cases h
    · rename_i hne
      refine ⟨cs.takeWhile p, y, hcs, fun hnil => hne (by rw [hnil]; rfl), hw, hy, (Option.some.inj h).symm⟩
  · rintro ⟨w, y, rfl, hne, hw, hy, rfl⟩
    rw [takeWhile_append_stop hw hy]
    cases w with
    | nil => exact (hne rfl).elim
    | cons c w => rfl

theorem many_eq_some_iff : many p cs = some n ↔ ∃ w y, cs = w ++ y ∧ (∀ c ∈ w, p c = true) ∧
    (∀ c ∈ y.head?, p c = false) ∧ n = w.length := by
  unfold many
  rw [Option.some.injEq]
  constructor
  · rintro rfl
    obtain ⟨y, hcs, hw, hy⟩ := exists_run p cs
    exact ⟨_, y, hcs, hw, hy, rfl⟩
  · rintro ⟨w, y, rfl, hw, hy, rfl⟩
    rw [takeWhile_append_stop hw hy]

theorem orElse_eq_some_iff : orElse m m' cs = some n ↔ m cs = some n ∨ m cs = none ∧ m' cs = some n :=
  Option.or_eq_some_iff

theorem andThen_eq_some_iff : andThen m m' cs = some n ↔ ∃ i j, m cs = some i ∧ m' (cs.drop i) = some j ∧ n = i + j := by
  unfold andThen
  rw [Option.bind_eq_some_iff]
  constructor
  · rintro ⟨i, hi, hj⟩
    obtain ⟨j, hj', rfl⟩ := Option.map_eq_some_iff.1 hj
    exact ⟨i, j, hi, hj', rfl⟩
  · rintro ⟨i, j, hi, hj, rfl⟩
    exact ⟨i, hi, Option.map_eq_some_iff.2 ⟨j, hj, rfl⟩⟩

theorem sequence_cons (m : Matcher) (ms : List Matcher) : sequence (m :: ms) = andThen m (sequence ms) := rfl

@[simp] theorem sequence_singleton (m : Matcher) : sequence [m] = m := by
  funext cs
  change ((m cs).bind fun i => some (i + 0)) = m cs
  cases m cs <;> rfl

theorem optional_word_eq_some_iff : Matcher.optional (word s) cs = some n ↔
    (s <+: cs ∧ n = s.length) ∨ (¬s <+: cs ∧ n = 0) := by
  unfold Matcher.optional
  cases h : word s cs with
  | none =>
    have hnot : ¬s <+: cs := fun hs => by
      rw [word_eq_some_iff.2 ⟨hs, rfl⟩] at h
      cases h
    rw [Option.getD_none, Option.some.injEq]
    exact ⟨fun hn => .inr ⟨hnot, hn.symm⟩, fun hn => hn.elim (fun hs => (hnot hs.1).elim) fun hs => hs.2.symm⟩
  | some k =>
    obtain ⟨hs, rfl⟩ := word_eq_some_iff.1 h
    rw [Option.getD_some, Option.some.injEq]
    exact ⟨fun hn => .inl ⟨hs, hn.symm⟩, fun hn => hn.elim (fun hs => hs.2.symm) fun hn => (hn.1 hs).elim⟩

section UpTo
variable {closing : Matcher} {k : Nat}

theorem upTo_of_closing (h : closing cs = some k) : upTo p closing cs = some k := by
  cases cs with
  | nil => exact h
  | cons c cs => rw [upTo, h]

/-- The closing pattern ends what is taken where it fits first. -/
theorem upTo_append (hk : closing rest = some k) : ∀ {x : List Char}, (∀ c ∈ x, p c = true) →
    (∀ a b, x = a ++ b → b ≠ [] → closing (b ++ rest) = none) → upTo p closing (x ++ rest) = some (x.length + k)
  | [], _, _ => by
    rw [List.nil_append, List.length_nil, Nat.zero_add]
    exact upTo_of_closing hk
  | c :: x, hx, hfirst => by
    have hnot : closing (c :: (x ++ rest)) = none := hfirst [] (c :: x) rfl (List.cons_ne_nil c x)
    have hlater : upTo p closing (x ++ rest) = some (x.length + k) :=
      upTo_append hk (fun d hd => hx d (List.mem_cons_of_mem c hd)) fun a b hab => hfirst (c :: a) b (congrArg (c :: ·) hab)
    rw [List.cons_append, upTo, hnot]
    dsimp only
    rw [if_pos (hx c List.mem_cons_self), hlater, Option.map_some, List.length_cons]
    congr 1
    omega

theorem exists_of_upTo : ∀ {cs : List Char} {n : Nat}, upTo p closing cs = some n →
    ∃ x rest k, cs = x ++ rest ∧ closing rest = some k ∧ n = x.length + k ∧ (∀ c ∈ x, p c = true) ∧
      ∀ a b, x = a ++ b → b ≠ [] → closing (b ++ rest) = none
  | [], n, h => ⟨[], [], n, rfl, h, (Nat.zero_add n).symm, nofun, fun a b hab hb =>
      (hb (List.append_eq_nil_iff.1 hab.symm).2).elim⟩
  | c :: cs, n, h => by
    rw [upTo] at h
    cases hclosing : closing (c :: cs) with
    | some k =>
      rw [hclosing] at h
      exact ⟨[], c :: cs, n, rfl, hclosing.trans h, (Nat.zero_add n).symm, nofun, fun a b hab hb =>
        (hb (List.append_eq_nil_iff.1 hab.symm).2).elim⟩
    | none =>
      rw [hclosing] at h
      dsimp only at h
      split at h
      · rename_i hc
        obtain ⟨n', hn', rfl⟩ := Option.map_eq_some_iff.1 h
        obtain ⟨x, rest, k, rfl, hk, rfl, hx, hfirst⟩ := exists_of_upTo hn'
        refine ⟨c :: x, rest, k, rfl, hk, by rw [List.length_cons]; omega, List.forall_mem_cons.2 ⟨hc, hx⟩,
          fun a b hab hb => ?_⟩
        cases a with
        | nil =>
          rw [List.nil_append] at hab
          rw [← hab]
          exact hclosing
        | cons d a => exact hfirst a b (List.cons.inj hab).2 hb
      · cases h

/-- **As few characters as possible are taken before the closing pattern.** -/
theorem upTo_eq_some_iff : upTo p closing cs = some n ↔
    ∃ x rest k, cs = x ++ rest ∧ closing rest = some k ∧ n = x.length + k ∧ (∀ c ∈ x, p c = true) ∧
      ∀ a b, x = a ++ b → b ≠ [] → closing (b ++ rest) = none := by
  refine ⟨exists_of_upTo, ?_⟩
  rintro ⟨x, rest, k, rfl, hk, rfl, hx, hfirst⟩
  exact upTo_append hk hx hfirst

end UpTo

/-! ## Replacing -/

variable {substitute : List Char}

theorem replaceFrom_append : ∀ (xs rest : List Char),
    replaceFrom m substitute xs.length (xs ++ rest) = replaceFrom m substitute 0 rest
  | [], _ => rfl
  | x :: xs, rest => by
    rw [List.cons_append, List.length_cons, replaceFrom]
    exact replaceFrom_append xs rest

/-- Taking occurrences away leaves characters of the text in order. -/
theorem replaceFrom_sublist : ∀ (skip : Nat) (cs : List Char), List.Sublist (replaceFrom m [] skip cs) cs
  | _, [] => List.nil_sublist _
  | skip + 1, c :: cs => (replaceFrom_sublist skip cs).cons c
  | 0, c :: cs => by
    rw [replaceFrom]
    split
    · exact (replaceFrom_sublist _ cs).cons c
    · exact (replaceFrom_sublist 0 cs).cons_cons c

theorem replaceAll_append {a : List Char} (ha : a ≠ []) (h : m (a ++ rest) = some a.length) :
    replaceAll m substitute (a ++ rest) = substitute ++ replaceAll m substitute rest := by
  cases a with
  | nil => exact (ha rfl).elim
  | cons c a =>
    rw [List.cons_append, List.length_cons] at h
    unfold replaceAll
    rw [List.cons_append, replaceFrom, h]
    dsimp only
    rw [replaceFrom_append]

theorem replaceAll_cons {c : Char} (h : m (c :: rest) = none) :
    replaceAll m substitute (c :: rest) = c :: replaceAll m substitute rest := by
  unfold replaceAll
  rw [replaceFrom, h]

theorem replaceAll_of_none : ∀ {cs : List Char}, (∀ xs, xs <:+ cs → m xs = none) → replaceAll m substitute cs = cs
  | [], _ => rfl
  | c :: cs, h => by
    rw [replaceAll_cons (h _ List.suffix_rfl), replaceAll_of_none fun xs hxs => h xs (hxs.trans (List.suffix_cons c cs))]

end Matcher
end Text
end Argot
