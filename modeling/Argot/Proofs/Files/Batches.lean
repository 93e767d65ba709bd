import Argot.Proofs.Files.Outputs
/-!
# Batches — what each file of a batch does to a workshop

Working on a file leaves it without an output, fails to write its output, or writes it (`works_file`).  Files that are
still to come keep their texts as long as no output is opened at their places (`Ready.step`), so what is to be written
for them stays the same (`Ready.product_eq`).
-/
namespace Argot

/-- An outcome whose output was opened for writing: a success, or a write that broke off for lack of room. -/
def FileOutcome.Opened (o : FileOutcome) : Prop :=
  o.success = true ∨ ∃ p, o.error = some (SystemError.message ⟨.noSpace, p⟩)

namespace Workshop

open FileTree Argot.Path

variable {w u : Workshop} {parse : Parser Id} {toForms : Bool} {input output : Path} {outcome : Outcome}
  {pending : List Path}

/-- What working on a file comes to. -/
inductive Works (w : Workshop) (parse : Parser Id) (toForms : Bool) (input : Path) :
    Except BatchError FileOutcome × Workshop → Prop
  /-- The file has no product. -/
  | without (product : w.product parse toForms input = none) :
    Works w parse toForms input
      (w.verdict parse toForms input, { w with session := w.sessionAfter parse toForms input })
  /-- The product cannot be opened, or not be written as a whole. -/
  | failed {output : Path} {outcome : Outcome} {e : SystemError} {tree : FileTree}
      (product : w.product parse toForms input = some (output, outcome))
      (written : w.tree.writeWithWay output (Text.bytesOf outcome.code) = (.error e, tree))
      (way : WritesWithWay w.tree output (Text.bytesOf outcome.code) (.error e, tree)) :
    Works w parse toForms input
      (orRefusal e { input, output := some output, success := false, diagnostics := outcome.diagnostics
                     error := some e.message },
        { w with session := w.sessionAfter parse toForms input, tree })
  /-- The product is written. -/
  | written {output : Path} {outcome : Outcome} {place : Place} {tree : FileTree}
      (product : w.product parse toForms input = some (output, outcome))
      (resolved : input.resolve w.tree.base = .ok place)
      (way : WritesWithWay w.tree output (Text.bytesOf outcome.code) (.ok (), tree)) :
    Works w parse toForms input
      (.ok { input, output := some output, success := true, diagnostics := outcome.diagnostics },
        { w with session := w.sessionAfter parse toForms input, tree, outputs := w.outputs.insert place output })

theorem works_file (hw : w.WellPlaced) (hp : input.Proper) :
    Works w parse toForms input (w.file parse toForms input) := by
  cases hproduct : w.product parse toForms input with
  | none =>
    rw [file_of_product_eq_none hproduct]
    exact .without hproduct
  | some product =>
    obtain ⟨output, outcome⟩ := product
    obtain ⟨hproper, hparts⟩ := proper_output hw hp (plan_of_product hproduct)
    have hway := writeWithWay_spec hw.rooted hproper hparts (Text.bytesOf outcome.code)
    obtain ⟨place, hplace, hfile⟩ := file_of_product hproduct hway.base
    rw [hfile]
    rcases hwritten : w.tree.writeWithWay output (Text.bytesOf outcome.code) with ⟨e | ⟨⟩, tree⟩
    · exact .failed hproduct hwritten (hwritten ▸ hway)
    · exact .written hproduct hplace (hwritten ▸ hway)

/-! ## Outcomes -/

/-- A product that is opened for writing. -/
structure Opens (w : Workshop) (parse : Parser Id) (toForms : Bool) (f output : Path) (outcome : Outcome) : Prop where
  product : w.product parse toForms f = some (output, outcome)
  writable : w.tree.Writable output

/-- As much of the text of an outcome as there is room for at an output. -/
def fitting (w : Workshop) (output : Path) (outcome : Outcome) : List UInt8 :=
  w.tree.fitting (w.tree.placeOf output) (Text.bytesOf outcome.code)

/-- A product that is written as a whole. -/
structure Writes (w : Workshop) (parse : Parser Id) (toForms : Bool) (f output : Path) (outcome : Outcome) : Prop
    extends Opens w parse toForms f output outcome where
  whole : w.fitting output outcome = Text.bytesOf outcome.code

theorem Opens.inj {f output' : Path} {outcome' : Outcome} (h : Opens w parse toForms f output outcome)
    (hproduct : w.product parse toForms f = some (output', outcome')) : output' = output ∧ outcome' = outcome :=
  product_inj h.product hproduct

/-- An input that nothing is planned for has an outcome without an output. -/
theorem outcomeOf_of_plan_error {result : Except BatchError FileOutcome}
    (h : w.plan parse toForms input = .error result) : ∃ message, outcomeOf input result = failed input message := by
  rcases result_of_plan_error h with ⟨e, -, rfl⟩ | ⟨e, rfl⟩
  · cases e with
    | system e =>
      unfold unreadable orRefusal
      dsimp only
      split <;> exact ⟨_, rfl⟩
    | undecodable e => exact ⟨_, rfl⟩
  · exact ⟨_, rfl⟩

variable {result : Except BatchError FileOutcome × Workshop} {p : Path}

/-- What an outcome says of the file that was worked on. -/
structure Tells (w : Workshop) (parse : Parser Id) (toForms : Bool) (f : Path) (o : FileOutcome) : Prop where
  input : o.input = f
  output : ∀ p, o.output = some p → w.outputOf parse toForms f = some p
  success : o.success = true ↔ ∃ output outcome, Writes w parse toForms f output outcome
  opened : ∀ output outcome, Opens w parse toForms f output outcome → o.Opened ∧ o.output = some output

/-- A file without a product has nothing opened. -/
theorem not_opens_of_product_eq_none (h : w.product parse toForms input = none) :
    ¬Opens w parse toForms input output outcome := fun hopens => by
  cases h.symm.trans hopens.product

theorem Tells.of_not_opens {o : FileOutcome} (hinput : o.input = input)
    (houtput : ∀ p, o.output = some p → w.outputOf parse toForms input = some p) (hfailed : o.success = false)
    (hnot : ∀ output outcome, ¬Opens w parse toForms input output outcome) : Tells w parse toForms input o where
  input := hinput
  output := houtput
  success := iff_of_false (by simp [hfailed]) fun ⟨output, outcome, hwrites⟩ => hnot output outcome hwrites.toOpens
  opened := fun output outcome hopens => (hnot output outcome hopens).elim

/-- What is said of a write that failed. -/
theorem tells_orRefusal {e : SystemError} {tree : FileTree}
    (product : w.product parse toForms input = some (output, outcome))
    (way : WritesWithWay w.tree output (Text.bytesOf outcome.code) (.error e, tree)) :
    Tells w parse toForms input (outcomeOf input (orRefusal e { input, output := some output, success := false
                                                                diagnostics := outcome.diagnostics
                                                                error := some e.message })) := by
  have hshort : Opens w parse toForms input output outcome → w.fitting output outcome ≠ Text.bytesOf outcome.code :=
    fun hopens hwhole => by cases way.ok_iff.2 ⟨hopens.writable, hwhole⟩
  have hnoSpace : Opens w parse toForms input output outcome → e = ⟨.noSpace, output⟩ := fun hopens =>
    Except.error.inj (way.brokenOff hopens.writable (hshort hopens))
  unfold orRefusal
  by_cases hnull : e.fault = .nullCharacter
  · rw [if_pos hnull]
    refine .of_not_opens rfl nofun rfl fun output' outcome' hopens => ?_
    obtain ⟨rfl, rfl⟩ := hopens.inj product
    rw [hnoSpace hopens] at hnull
    cases hnull
  · rw [if_neg hnull]
    refine ⟨rfl, fun p hp => ?_, iff_of_false nofun ?_, fun output' outcome' hopens => ?_⟩
    · cases hp
      exact outputOf_of_product product
    · rintro ⟨output', outcome', hwrites⟩
      obtain ⟨rfl, rfl⟩ := hwrites.inj product
      exact hshort hwrites.toOpens hwrites.whole
    · obtain ⟨rfl, rfl⟩ := hopens.inj product
      exact ⟨.inr ⟨_, congrArg (some ∘ SystemError.message) (hnoSpace hopens)⟩, rfl⟩

theorem Works.tells (h : Works w parse toForms input result) :
    Tells w parse toForms input (outcomeOf input result.1) := by
  cases h with
  | without product =>
    have hnot : ∀ output outcome, ¬Opens w parse toForms input output outcome := fun output outcome =>
      not_opens_of_product_eq_none product
    unfold verdict
    rcases hplan : w.plan parse toForms input with result | ⟨output, outcome⟩
    · obtain ⟨message, hfailed⟩ := outcomeOf_of_plan_error hplan
      dsimp only
      rw [hfailed]
      exact .of_not_opens rfl nofun rfl hnot
    · refine .of_not_opens rfl (fun p hp => ?_) rfl hnot
      cases hp
      exact outputOf_eq_some_iff.2 ⟨outcome, hplan⟩
  | failed product written way => exact tells_orRefusal product way
  | @written output outcome place tree product resolved way =>
    obtain ⟨hwritable, hwhole⟩ := way.ok_iff.1 rfl
    refine ⟨rfl, fun p hp => ?_, iff_of_true rfl ⟨output, outcome, ⟨product, hwritable⟩, hwhole⟩,
      fun output' outcome' hopens => ⟨.inl rfl, congrArg some (hopens.inj product).1⟩⟩
    cases hp
    exact outputOf_of_product product

theorem Tells.written {o : FileOutcome} {f : Path} (h : Tells w parse toForms f o) (hs : o.success = true) :
    ∃ output outcome, Writes w parse toForms f output outcome ∧ o.output = some output := by
  obtain ⟨output, outcome, hwrites⟩ := h.success.1 hs
  exact ⟨output, outcome, hwrites, (h.opened output outcome hwrites.toOpens).2⟩

/-! ## What stays -/

theorem alike_sessionAfter (w : Workshop) (parse : Parser Id) (toForms : Bool) (input : Path) :
    w.session.Alike (w.sessionAfter parse toForms input) := by
  unfold sessionAfter converted
  cases readText w.tree input with
  | error e => exact .refl _
  | ok code =>
    dsimp only
    split
    · exact .refl _
    · split
      · exact Session.alike_forward _ _ _
      · exact Session.alike_reverse _ _ _

/-- What working on a file leaves as it is, or as good as it is. -/
structure Continues (w u : Workshop) : Prop where
  settings : u.settings = w.settings
  session : w.session.Alike u.session
  tree : Later w.tree u.tree

theorem Continues.refl (w : Workshop) : Continues w w :=
  ⟨rfl, .refl _, .refl _⟩

theorem Continues.trans {v : Workshop} (h : Continues w u) (h' : Continues u v) : Continues w v :=
  ⟨h'.settings.trans h.settings, h.session.trans h'.session, h.tree.trans h'.tree⟩

theorem Continues.wellPlaced (h : Continues w u) (hw : w.WellPlaced) : u.WellPlaced where
  rooted := h.tree.rooted hw.rooted
  base := h.tree.base ▸ hw.base
  directory := h.settings ▸ hw.directory

theorem Works.continues (h : Works w parse toForms input result) :
    Continues w result.2 := by
  cases h with
  | without product => exact ⟨rfl, alike_sessionAfter .., .refl _⟩
  | failed product written way => exact ⟨rfl, alike_sessionAfter .., way.later⟩
  | written product resolved way => exact ⟨rfl, alike_sessionAfter .., way.later⟩

/-- A file stays as it is if no output is opened at its place. -/
theorem Works.entry?_eq {q : Place} (h : Works w parse toForms input result) (hfile : w.tree.IsFileAt q)
    (hother : ∀ output outcome, Opens w parse toForms input output outcome → w.tree.placeOf output ≠ q) :
    result.2.tree.entry? q = w.tree.entry? q := by
  cases h with
  | without product => rfl
  | failed product written way =>
    exact way.kept q (fun hmade => hmade.not_isFileAt hfile) fun hw => hother _ _ ⟨product, hw.1⟩ hw.2.symm
  | written product resolved way =>
    exact way.kept q (fun hmade => hmade.not_isFileAt hfile) fun hw => hother _ _ ⟨product, hw.1⟩ hw.2.symm

/-! ## Files to come -/

/-- A workshop that was worked with while the files to come stayed as they were. -/
structure Ready (w u : Workshop) (pending : List Path) : Prop extends Continues w u where
  inputs : ∀ f ∈ pending, u.tree.entry? (w.tree.placeOf f) = w.tree.entry? (w.tree.placeOf f)

theorem Ready.fileAt_eq (h : Ready w u pending) (hmem : input ∈ pending) (hp : input.Proper)
    (hfile : w.tree.isFile input = .ok true) : u.tree.fileAt input = w.tree.fileAt input := by
  obtain ⟨place, hlocate, -⟩ := locate_of_isFile hfile
  have hentry := h.inputs input hmem
  rw [← place_of_locate hp hlocate] at hentry
  unfold FileTree.fileAt
  rw [hlocate, h.tree.locate_ok hp hlocate]
  dsimp only [bind, Except.bind]
  rw [hentry]

theorem Ready.readText_eq (h : Ready w u pending) (hmem : input ∈ pending) (hp : input.Proper)
    (hfile : w.tree.isFile input = .ok true) : readText u.tree input = readText w.tree input := by
  unfold readText FileTree.read
  rw [h.fileAt_eq hmem hp hfile]

theorem outputPath_eq (hsettings : u.settings = w.settings) (hbase : u.tree.base = w.tree.base) (extension : String) :
    u.outputPath input extension = w.outputPath input extension := by
  unfold outputPath
  rw [hsettings, hbase]

theorem converted_eq (h : w.session.Alike u.session) (hrepeats : w.session.Repeats) (code : String) :
    (u.converted parse toForms code).1 = (w.converted parse toForms code).1 := by
  unfold converted
  cases toForms with
  | true => exact h.forward_eq hrepeats
  | false => exact h.reverse_eq

/-- What is planned for a file to come is what was planned at the start. -/
theorem Ready.plan_eq (h : Ready w u pending) (hrepeats : w.session.Repeats) (hmem : input ∈ pending)
    (hp : input.Proper) (hfile : w.tree.isFile input = .ok true) :
    u.plan parse toForms input = w.plan parse toForms input := by
  unfold plan
  simp only [h.readText_eq hmem hp hfile, outputPath_eq h.settings h.tree.base, converted_eq h.session hrepeats]

theorem Ready.product_eq (h : Ready w u pending) (hrepeats : w.session.Repeats) (hmem : input ∈ pending)
    (hp : input.Proper) (hfile : w.tree.isFile input = .ok true) :
    u.product parse toForms input = w.product parse toForms input := by
  unfold product
  rw [h.plan_eq hrepeats hmem hp hfile]

theorem Ready.verdict_eq (h : Ready w u pending) (hrepeats : w.session.Repeats) (hmem : input ∈ pending)
    (hp : input.Proper) (hfile : w.tree.isFile input = .ok true) :
    u.verdict parse toForms input = w.verdict parse toForms input := by
  unfold verdict
  rw [h.plan_eq hrepeats hmem hp hfile]

/-- **Working on one file leaves the files to come ready**, if its output is none of them. -/
theorem Ready.step (h : Ready w u (input :: pending)) (hworks : Works u parse toForms input result)
    (hfiles : ∀ f ∈ pending, w.tree.IsFileAt (w.tree.placeOf f))
    (hothers : ∀ output, u.outputOf parse toForms input = some output →
      ∀ f ∈ pending, w.tree.placeOf output ≠ w.tree.placeOf f) : Ready w result.2 pending where
  toContinues := h.toContinues.trans hworks.continues
  inputs := fun f hf => by
    have hentry := h.inputs f (List.mem_cons_of_mem _ hf)
    refine (hworks.entry?_eq ?_ fun output outcome hopens => ?_).trans hentry
    · obtain ⟨bytes, status, hfile⟩ := hfiles f hf
      exact ⟨bytes, status, hentry.trans hfile⟩
    · rw [h.tree.placeOf]
      exact hothers output (outputOf_of_product hopens.product) f hf

end Workshop
end Argot
