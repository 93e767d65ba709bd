import Argot.Proofs.Text.Matching
/-!
# Steps — going over a text from left to right

A text is gone over in steps, each of which takes some of its characters and gives something for them.  Where one step
ends at the beginning of a part of the text and another at its end, the part has become what the steps between them give
(`Turns`).  Taking occurrences away goes in such steps (`cuts`).
-/
namespace Argot
namespace Text

/-- The characters that a step takes, and what it gives for them. -/
structure Step (α : Type) where
  taken : List Char
  given : List α
  deriving DecidableEq, Repr

namespace Step

variable {α : Type}

def before (steps : List (Step α)) : List Char :=
  steps.flatMap taken

def after (steps : List (Step α)) : List α :=
  steps.flatMap given

@[simp] theorem before_nil : before ([] : List (Step α)) = [] := rfl

@[simp] theorem after_nil : after ([] : List (Step α)) = [] := rfl

@[simp] theorem before_cons (s : Step α) (steps : List (Step α)) : before (s :: steps) = s.taken ++ before steps := rfl

@[simp] theorem after_cons (s : Step α) (steps : List (Step α)) : after (s :: steps) = s.given ++ after steps := rfl

@[simp] theorem before_append (steps later : List (Step α)) : before (steps ++ later) = before steps ++ before later :=
  List.flatMap_append

@[simp] theorem after_append (steps later : List (Step α)) : after (steps ++ later) = after steps ++ after later :=
  List.flatMap_append

/-- The step that gives one thing for a character. -/
def one (f : Char → α) (c : Char) : Step α := ⟨[c], [f c]⟩

theorem before_ones (f : Char → α) : ∀ (cs : List Char), before (cs.map (one f)) = cs
  | [] => rfl
  | c :: cs => congrArg (c :: ·) (before_ones f cs)

theorem after_ones (f : Char → α) : ∀ (cs : List Char), after (cs.map (one f)) = cs.map f
  | [] => rfl
  | c :: cs => congrArg (f c :: ·) (after_ones f cs)

theorem taken_ne_nil_of_mem_ones {f : Char → α} {cs : List Char} {s : Step α} (h : s ∈ cs.map (one f)) : s.taken ≠ [] := by
  obtain ⟨c, -, rfl⟩ := List.mem_map.1 h
  exact List.cons_ne_nil c []

/-- Steps that all take something are known by what they take together. -/
theorem split_unique : ∀ {first first' rest rest' : List (Step α)}, first ++ rest = first' ++ rest' →
    (∀ s ∈ first, s.taken ≠ []) → (∀ s ∈ first', s.taken ≠ []) → before first = before first' →
    first = first' ∧ rest = rest'
  | [], [], _, _, hsteps, _, _, _ => ⟨rfl, hsteps⟩
  | [], s :: first', _, _, _, _, htakes, hbefore => by
    exact absurd (List.append_eq_nil_iff.1 hbefore.symm).1 (htakes s List.mem_cons_self)
  | s :: first, [], _, _, _, htakes, _, hbefore => by
    exact absurd (List.append_eq_nil_iff.1 hbefore).1 (htakes s List.mem_cons_self)
  | s :: first, s' :: first', rest, rest', hsteps, htakes, htakes', hbefore => by
    obtain ⟨rfl, hlater⟩ := List.cons.inj hsteps
    obtain ⟨rfl, hrest⟩ := split_unique hlater (fun x hx => htakes x (List.mem_cons_of_mem s hx))
      (fun x hx => htakes' x (List.mem_cons_of_mem s hx)) (List.append_cancel_left hbefore)
    exact ⟨rfl, hrest⟩

/-- **What becomes of a part of a text**: the steps before it, over it and after it, by what they take and give.  A step
that takes nothing belongs to what comes after it. -/
def Turns (steps : List (Step α)) (pre w post : List Char) (pre' w' post' : List α) : Prop :=
  ∃ first middle last, steps = first ++ middle ++ last ∧ (∀ s ∈ first ++ middle, s.taken ≠ []) ∧
    (before first = pre ∧ before middle = w ∧ before last = post) ∧
    after first = pre' ∧ after middle = w' ∧ after last = post'

variable {steps : List (Step α)} {pre w post : List Char} {pre' w' post' : List α}

theorem Turns.after_eq (h : Turns steps pre w post pre' w' post') : after steps = pre' ++ w' ++ post' := by
  obtain ⟨first, middle, last, rfl, -, -, rfl, rfl, rfl⟩ := h
  simp

/-- A part of a text becomes one thing only. -/
theorem Turns.unique {pre₁ w₁ post₁ : List α} (h : Turns steps pre w post pre' w' post')
    (h₁ : Turns steps pre w post pre₁ w₁ post₁) : pre' = pre₁ ∧ w' = w₁ ∧ post' = post₁ := by
  obtain ⟨first, middle, last, hsteps, htakes, ⟨hpre, hw, -⟩, rfl, rfl, rfl⟩ := h
  obtain ⟨first₁, middle₁, last₁, hsteps₁, htakes₁, ⟨hpre₁, hw₁, -⟩, rfl, rfl, rfl⟩ := h₁
  rw [List.forall_mem_append] at htakes htakes₁
  rw [hsteps, List.append_assoc, List.append_assoc] at hsteps₁
  obtain ⟨rfl, hlater⟩ := split_unique hsteps₁ htakes.1 htakes₁.1 (hpre.trans hpre₁.symm)
  obtain ⟨rfl, rfl⟩ := split_unique hlater htakes.2 htakes₁.2 (hw.trans hw₁.symm)
  exact ⟨rfl, rfl, rfl⟩

theorem turns_ones (f : Char → α) (pre w post : List Char) :
    Turns ((pre ++ w ++ post).map (one f)) pre w post (pre.map f) (w.map f) (post.map f) :=
  ⟨_, _, _, by rw [List.map_append, List.map_append],
    fun _ hs => taken_ne_nil_of_mem_ones (List.map_append.symm ▸ hs),
    ⟨before_ones f pre, before_ones f w, before_ones f post⟩, after_ones f pre, after_ones f w, after_ones f post⟩

end Step

namespace Matcher

/-- The steps in which the occurrences of a pattern are taken away, after the first `skip` characters. -/
def cutsFrom (m : Matcher) : (skip : Nat) → List Char → List (Step Char)
  | _, [] => []
  | skip + 1, _ :: rest => cutsFrom m skip rest
  | 0, c :: rest =>
    match m (c :: rest) with
    | some (n + 1) => ⟨c :: rest.take n, []⟩ :: cutsFrom m n rest
    | _ => ⟨[c], [c]⟩ :: cutsFrom m 0 rest

def cuts (m : Matcher) (cs : List Char) : List (Step Char) :=
  cutsFrom m 0 cs

variable {m : Matcher}

theorem before_cutsFrom : ∀ (skip : Nat) (cs : List Char), Step.before (cutsFrom m skip cs) = cs.drop skip
  | _, [] => by simp [cutsFrom]
  | skip + 1, c :: rest => by
    rw [cutsFrom, before_cutsFrom skip rest, List.drop_succ_cons]
  | 0, c :: rest => by
    rw [cutsFrom]
    split
    · rw [Step.before_cons, before_cutsFrom]
      simp
    · rw [Step.before_cons, before_cutsFrom]
      rfl

/-- The steps take the text. -/
theorem before_cuts (cs : List Char) : Step.before (cuts m cs) = cs :=
  before_cutsFrom 0 cs

theorem after_cutsFrom : ∀ (skip : Nat) (cs : List Char), Step.after (cutsFrom m skip cs) = replaceFrom m [] skip cs
  | _, [] => rfl
  | skip + 1, c :: rest => by
    rw [cutsFrom, replaceFrom, after_cutsFrom skip rest]
  | 0, c :: rest => by
    have hkeep : Step.after (⟨[c], [c]⟩ :: cutsFrom m 0 rest) = c :: replaceFrom m [] 0 rest := by
      rw [Step.after_cons, after_cutsFrom 0 rest]
      rfl
    rw [cutsFrom, replaceFrom]
    cases m (c :: rest) with
    | none => exact hkeep
    | some k =>
      cases k with
      | zero => exact hkeep
      | succ n => rw [Step.after_cons, after_cutsFrom n rest]

/-- **The steps give the text without the occurrences.** -/
theorem after_cuts (cs : List Char) : Step.after (cuts m cs) = replaceAll m [] cs :=
  after_cutsFrom 0 cs

/-- **A step keeps a character or takes an occurrence away.** -/
theorem cutsFrom_cases {s : Step Char} : ∀ {skip : Nat} {cs : List Char}, s ∈ cutsFrom m skip cs →
    (∃ c, s = ⟨[c], [c]⟩) ∨ ∃ rest n, rest <:+ cs ∧ m rest = some n ∧ s = ⟨rest.take n, []⟩
  | _, [], h => by
    simp [cutsFrom] at h
  | skip + 1, c :: rest, h => by
    rw [cutsFrom] at h
    rcases cutsFrom_cases h with hkeep | ⟨later, n, hsuffix, hm, hs⟩
    · exact .inl hkeep
    · exact .inr ⟨later, n, hsuffix.trans (List.suffix_cons c rest), hm, hs⟩
  | 0, c :: rest, h => by
    have hlater : ∀ {skip}, s ∈ cutsFrom m skip rest → (∃ c, s = ⟨[c], [c]⟩) ∨
        ∃ later n, later <:+ c :: rest ∧ m later = some n ∧ s = ⟨later.take n, []⟩ := by
      intro skip h
      rcases cutsFrom_cases h with hkeep | ⟨later, n, hsuffix, hm, hs⟩
      · exact .inl hkeep
      · exact .inr ⟨later, n, hsuffix.trans (List.suffix_cons c rest), hm, hs⟩
    rw [cutsFrom] at h
    split at h
    · rename_i n hm
      rcases List.mem_cons.1 h with rfl | h
      · exact .inr ⟨c :: rest, n + 1, List.suffix_rfl, hm, rfl⟩
      · exact hlater h
    · rcases List.mem_cons.1 h with rfl | h
      · exact .inl ⟨c, rfl⟩
      · exact hlater h

/-- A text that stays as it is when occurrences are taken away is gone over one by one. -/
theorem cuts_of_unchanged : ∀ {cs : List Char}, replaceAll m [] cs = cs → cuts m cs = cs.map (Step.one id)
  | [], _ => rfl
  | c :: cs, h => by
    have hkeep : c :: replaceAll m [] cs = c :: cs → ⟨[c], [c]⟩ :: cuts m cs = (c :: cs).map (Step.one id) := fun h => by
      rw [cuts_of_unchanged (List.cons.inj h).2]
      rfl
    unfold replaceAll at h
    unfold cuts
    rw [replaceFrom] at h
    rw [cutsFrom]
    cases hm : m (c :: cs) with
    | none =>
      rw [hm] at h
      exact hkeep h
    | some k =>
      cases k with
      | zero =>
        rw [hm] at h
        exact hkeep h
      | succ n =>
        rw [hm] at h
        have hlen := congrArg List.length h
        have := (replaceFrom_sublist (m := m) n cs).length_le
        simp only [List.nil_append, List.length_cons] at hlen
        omega

theorem turns_cuts_of_unchanged {pre w post : List Char} (h : replaceAll m [] (pre ++ w ++ post) = pre ++ w ++ post) :
    Step.Turns (cuts m (pre ++ w ++ post)) pre w post pre w post := by
  have hturns := Step.turns_ones id pre w post
  rw [List.map_id, List.map_id, List.map_id] at hturns
  rwa [cuts_of_unchanged h]

end Matcher
end Text
end Argot
