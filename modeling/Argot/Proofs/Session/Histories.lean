import Argot.Proofs.Session.Alike
import Argot.Proofs.Source.OneLine
/-!
# Histories — what earlier calls change of an answer

Calls on one session make tables, keep form lists, and, where neither the session nor the options say what to draw from,
draw from a generator that nothing determines.  Whatever calls were made before, and whatever they drew, a call answers
as it does on a session just made (`call_after_eq_fresh`): the session that the calls leave is like the one they began
with (`alike_after`), and like sessions answer alike (`Alike.call_eq`).
-/
namespace Argot
namespace Session

/-- One call on a session. -/
inductive Call where
  | forward (source : String) (options : Option Options)
  | reverse (source : String) (options : Option Options)
  | validate (source : String) (framework : Scalar)

/-- What a call gives back. -/
inductive Answer where
  | conversion (result : Except ConversionError Outcome)
  | report (result : Except UnknownName Validation.Report)

/-- A conversion that draws from `g` where neither the session nor the options tell what to draw from.  What is drawn
there is not determined; `forward` draws as from the seed zero (`forwardDrawing_zero`). -/
def forwardDrawing (parse : Parser Id) (g : Twister) (r : Session) (source : String) (options : Option Options) :
    Except ConversionError Outcome × Session :=
  match r.generator, (options.getD r.options).seed with
  | none, none =>
    let (result, r) := { r with generator := some g }.forward parse source options
    (result, { r with generator := none })
  | _, _ => r.forward parse source options

/-- The answer of a call, and the session after it; `g` is for what is not determined. -/
def call (parse : Parser Id) (g : Twister) (r : Session) : Call → Answer × Session
  | .forward source options =>
    let (result, r) := r.forwardDrawing parse g source options
    (.conversion result, r)
  | .reverse source options =>
    let (result, r) := r.reverse parse source options
    (.conversion result, r)
  | .validate source framework => match r.validate source framework with
    | .error e => (.report (.error e), r)
    | .ok (report, r) => (.report (.ok report), r)

/-- The session after calls, each with what is drawn from where that is not determined. -/
def after (parse : Parser Id) (r : Session) (calls : List (Twister × Call)) : Session :=
  calls.foldl (fun r c => (r.call parse c.1 c.2).2) r

/-- Whether a call that puts sayings in has a seed for them; `defaults` are the options of a call without any. -/
def Call.Seeded (defaults : Options) : Call → Prop
  | .forward _ options => (options.getD defaults).randomQuotes = true → (options.getD defaults).seed.isSome
  | .reverse .. | .validate .. => True

variable {r r' : Session} {parse : Parser Id} {g g' : Twister} {source : String} {options : Option Options}

/-! ## What a call leaves -/

theorem Alike.withGenerator (h : Alike r r') (g g' : Twister) :
    Alike { r with generator := some g } { r' with generator := some g' } :=
  ⟨h.options, h.custom, rfl, h.words⟩

theorem Alike.withoutGenerator (h : Alike { r with generator := some g } r') (hr : r.generator = none) :
    Alike r { r' with generator := none } :=
  ⟨h.options, h.custom, by simp [hr], h.words⟩

theorem forwardDrawing_of_told (h : ¬(r.generator = none ∧ (options.getD r.options).seed = none)) :
    r.forwardDrawing parse g source options = r.forward parse source options := by
  unfold forwardDrawing
  cases hr : r.generator with
  | some own => rfl
  | none =>
    cases hseed : (options.getD r.options).seed with
    | some seed => rfl
    | none => exact (h ⟨hr, hseed⟩).elim

theorem forwardDrawing_of_untold (hr : r.generator = none) (hseed : (options.getD r.options).seed = none) :
    r.forwardDrawing parse g source options =
      let (result, r) := { r with generator := some g }.forward parse source options
      (result, { r with generator := none }) := by
  unfold forwardDrawing
  rw [hr, hseed]

/-- The conversion of a session is the one that would draw from the seed zero. -/
theorem forwardDrawing_zero (r : Session) (parse : Parser Id) (source : String) (options : Option Options) :
    r.forwardDrawing parse (.ofSeed 0) source options = r.forward parse source options := by
  by_cases huntold : r.generator = none ∧ (options.getD r.options).seed = none
  · obtain ⟨hr, hseed⟩ := huntold
    rw [forwardDrawing_of_untold hr hseed]
    obtain ⟨defaults, custom, own, tables⟩ := r
    obtain rfl : own = none := hr
    simp only [forward, bind, pure]
    generalize options.getD defaults = o at hseed ⊢
    cases (parse (Sniff.dialect source o) source).fault? with
    | some f => cases custom <;> rfl
    | none =>
      rw [generatorFor_ensure, generatorFor_ensure]
      simp only [generatorFor, hseed]
      cases custom <;> rfl
  · exact forwardDrawing_of_told huntold

theorem alike_forwardDrawing (r : Session) (parse : Parser Id) (g : Twister) (source : String)
    (options : Option Options) : Alike r (r.forwardDrawing parse g source options).2 := by
  by_cases huntold : r.generator = none ∧ (options.getD r.options).seed = none
  · rw [forwardDrawing_of_untold huntold.1 huntold.2]
    exact (alike_forward { r with generator := some g } parse source options).withoutGenerator huntold.1
  · rw [forwardDrawing_of_told huntold]
    exact alike_forward r parse source options

theorem exists_of_map_some {α ε : Type} {result : Except ε α} {found : Option α} (h : result.map some = .ok found) :
    ∃ a, found = some a := by
  cases result with
  | error e => cases h
  | ok a => exact ⟨a, (Except.ok.inj h).symm⟩

/-- A key that is found for a framework is the key of some options. -/
theorem exists_keyOf {framework : Scalar} {key : Option Framework} (h : r.tableKey framework = .ok key) :
    ∃ o, r.keyOf o = key := by
  unfold tableKey at h
  cases hcustom : r.custom with
  | some t =>
    rw [hcustom] at h
    exact ⟨{}, by simpa [keyOf, hcustom] using h⟩
  | none =>
    have hsome : ∃ f, key = some f := by
      rw [hcustom] at h
      cases framework with
      | absent => exact ⟨_, (Except.ok.inj h).symm⟩
      | _ => exact exists_of_map_some h
    obtain ⟨f, rfl⟩ := hsome
    exact ⟨{ framework := f }, by simp [keyOf, hcustom]⟩

/-- A session after one call is like the session before it. -/
theorem alike_call (parse : Parser Id) (g : Twister) (r : Session) (c : Call) : Alike r (r.call parse g c).2 := by
  cases c with
  | forward source options => exact alike_forwardDrawing r parse g source options
  | reverse source options => exact alike_reverse r parse source options
  | validate source framework =>
    simp only [call, validate, tableFor]
    cases hkey : r.tableKey framework with
    | error e => exact .refl r
    | ok key =>
      obtain ⟨o, rfl⟩ := exists_keyOf hkey
      exact alike_ensure r o

/-- **A session after calls is like the session before them**: its tables have the words they had. -/
theorem alike_after (parse : Parser Id) (r : Session) (calls : List (Twister × Call)) :
    Alike r (r.after parse calls) := by
  induction calls generalizing r with
  | nil => exact .refl r
  | cons c calls ih => exact (alike_call parse c.1 r c.2).trans (ih _)

/-! ## What a call answers -/

theorem Alike.forwardDrawing_eq (h : Alike r r') (hr : r.generator = none)
    (hseeded : (Call.forward source options).Seeded r.options) :
    (r'.forwardDrawing parse g' source options).1 = (r.forwardDrawing parse g source options).1 := by
  have hr' : r'.generator = none := by simpa [hr] using h.generator
  cases hseed : (options.getD r.options).seed with
  | some seed =>
    rw [forwardDrawing_of_told (by simp [h.options, hseed]), forwardDrawing_of_told (by simp [hseed])]
    exact h.forward_eq_with fun _ => ⟨hr, by simp [hseed]⟩
  | none =>
    rw [forwardDrawing_of_untold hr hseed, forwardDrawing_of_untold hr' (h.options ▸ hseed)]
    refine (h.withGenerator g g').forward_eq_with fun hquotes => ?_
    have hsome := hseeded hquotes
    rw [hseed] at hsome
    cases hsome

theorem Alike.tableKey_eq (h : Alike r r') (framework : Scalar) : r'.tableKey framework = r.tableKey framework := by
  have hcustom := h.custom
  unfold tableKey
  rw [h.options]
  cases hc : r.custom <;> cases hc' : r'.custom <;> simp_all

theorem Alike.validate_eq (h : Alike r r') (source : String) (framework : Scalar) :
    (r'.validate source framework).map Prod.fst = (r.validate source framework).map Prod.fst := by
  unfold validate tableFor
  rw [h.tableKey_eq]
  cases hkey : r.tableKey framework with
  | error e => rfl
  | ok key =>
    obtain ⟨o, rfl⟩ := exists_keyOf hkey
    have hwords := h.words o
    rw [h.keyOf] at hwords
    exact congrArg Except.ok (hwords.check source)

/-- The answer of a check is its report. -/
theorem call_validate (parse : Parser Id) (g : Twister) (r : Session) (source : String) (framework : Scalar) :
    (r.call parse g (.validate source framework)).1 = .report ((r.validate source framework).map Prod.fst) := by
  simp only [call]
  cases r.validate source framework <;> rfl

/-- **Like sessions answer a call alike**, whatever they draw from, if the call has a seed where it uses one. -/
theorem Alike.call_eq (h : Alike r r') (hr : r.generator = none) (c : Call) (hseeded : c.Seeded r.options) :
    (r'.call parse g' c).1 = (r.call parse g c).1 := by
  cases c with
  | forward source options => exact congrArg Answer.conversion (h.forwardDrawing_eq hr hseeded)
  | reverse source options => exact congrArg Answer.conversion h.reverse_eq
  | validate source framework => rw [call_validate, call_validate, h.validate_eq]

/-! ## Sessions just made -/

/-- A session that was just made is like one made of its table as it is now. -/
theorem Alike.remade {options : Options} {custom : Option Table} (h : Alike { options, custom } r) :
    Alike { options, custom := r.custom } r := by
  refine ⟨h.options, rfl, h.generator, fun o => ?_⟩
  cases hcustom : r.custom with
  | some t =>
    left
    simp [Session.keyOf, table, hcustom]
  | none =>
    obtain rfl : custom = none := by simpa [hcustom] using h.custom.symm
    exact h.words o

/-- **Earlier calls change no answer.**  After any calls, a call answers as on a session just made of the same options
and table, be that table as it was given or as the calls left it. -/
theorem call_after_eq_fresh (parse : Parser Id) (options : Options) (custom : Option Table) (calls : List (Twister × Call))
    (c : Call) (hseeded : c.Seeded options) (g g' : Twister) :
    let fresh : Session := { options, custom }
    let used := fresh.after parse calls
    (used.call parse g c).1 = (fresh.call parse g' c).1 ∧
      (used.call parse g c).1 = (call parse g' { options, custom := used.custom } c).1 := by
  intro fresh used
  have hused : Alike fresh used := alike_after parse fresh calls
  exact ⟨hused.call_eq rfl c hseeded, hused.remade.call_eq rfl c hseeded⟩

/-- The parse tree of a source that begins with a declaration. -/
def declaration : Tree :=
  .inner "program" 0 0 none [.token "function_declaration" true 0 0]

/-- A saying from a seed, after calls for three frameworks, one of which drew a saying from elsewhere. -/
theorem call_after_eq_fresh_three_frameworks :
    let parse : Parser Id := fun _ _ => declaration
    let fresh : Session := { options := { framework := .react } }
    let calls : List (Twister × Call) := [(.ofSeed 1, .reverse "x" none), (.ofSeed 2, .validate "x" (.text "vue")),
      (.ofSeed 3, .forward "x" (some { randomQuotes := true }))]
    let c : Call := .forward "x" (some { randomQuotes := true, seed := some (.number 7) })
    c.Seeded fresh.options ∧
      ((fresh.after parse calls).call parse (.ofSeed 4) c).1 = (fresh.call parse (.ofSeed 5) c).1 := by
  intro parse fresh calls c
  have hseeded : c.Seeded fresh.options := fun _ => rfl
  exact ⟨hseeded, (call_after_eq_fresh parse fresh.options fresh.custom calls c hseeded _ _).1⟩

end Session
end Argot
