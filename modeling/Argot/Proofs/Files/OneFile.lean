import Argot.Files.Batch
import Argot.Proofs.Files.Writing
import Argot.Proofs.Session.Alike
/-!
# OneFile — what working on one file does to a workshop

What is to be written for a file, and where, follows from its text, the settings and the session (`plan`).  A file
without a product leaves the tree and the record as they are (`file_of_product_eq_none`); a product is written with its
way, and its place is remembered if nothing fails (`file_of_product`).
-/
namespace Argot
namespace Workshop

open FileTree Argot.Path

variable (w : Workshop) (parse : Parser Id) (toForms : Bool) (input : Path)

/-- A text converted in a direction. -/
def converted (code : String) : Except ConversionError Outcome × Session :=
  if toForms then w.session.forward parse code else w.session.reverse parse code

/-- The extension of the output of an outcome. -/
def extensionFor (outcome : Outcome) : String :=
  if toForms then formExtension else Sniff.extension outcome.code

/-- Where the outcome of an input belongs, or what is said of an input without one. -/
def plan : Except (Except BatchError FileOutcome) (Path × Outcome) :=
  if toForms then
    match w.outputPath input formExtension with
    | .error e => .error (.error (.path e))
    | .ok output => match readText w.tree input with
      | .error e => .error (unreadable input e)
      | .ok code => match (w.converted parse toForms code).1 with
        | .error e => .error (.error (.conversion e))
        | .ok outcome => .ok (output, outcome)
  else
    match readText w.tree input with
    | .error e => .error (unreadable input e)
    | .ok code => match (w.converted parse toForms code).1 with
      | .error e => .error (.error (.conversion e))
      | .ok outcome => match w.outputPath input (extensionFor toForms outcome) with
        | .error e => .error (.error (.path e))
        | .ok output => .ok (output, outcome)

/-- The session after an input was worked on. -/
def sessionAfter : Session :=
  match readText w.tree input with
  | .error _ => w.session
  | .ok code =>
    if toForms && (w.outputPath input formExtension).toOption.isNone then w.session
    else (w.converted parse toForms code).2

theorem file_eq : w.file parse toForms input = match w.plan parse toForms input with
    | .error result => (result, { w with session := w.sessionAfter parse toForms input })
    | .ok (output, outcome) =>
      { w with session := w.sessionAfter parse toForms input }.finish input output outcome := by
  unfold file plan sessionAfter converted
  cases toForms with
  | true =>
    simp only [if_true, Bool.true_and]
    unfold fileToForms
    cases w.outputPath input formExtension with
    | error e => cases readText w.tree input <;> rfl
    | ok output =>
      cases readText w.tree input with
      | error e => rfl
      | ok code =>
        dsimp only [bind, pure, Except.toOption, Option.isNone_some]
        rcases w.session.forward parse code with ⟨e | outcome, session⟩ <;> rfl
  | false =>
    simp only [Bool.false_eq_true, if_false, Bool.false_and]
    unfold fileToSource extensionFor
    cases readText w.tree input with
    | error e => rfl
    | ok code =>
      dsimp only [bind, pure]
      rcases w.session.reverse parse code with ⟨e | outcome, session⟩
      · rfl
      · simp only [Bool.false_eq_true, if_false]
        change (match w.outputPath input (Sniff.extension outcome.code) with
          | .error e => _
          | .ok output => _) = _
        cases w.outputPath input (Sniff.extension outcome.code) <;> rfl

/-- The output of an input and what is to be written there: an outcome without errors. -/
def product : Option (Path × Outcome) :=
  match w.plan parse toForms input with
  | .ok (output, outcome) => if outcome.hasErrors then none else some (output, outcome)
  | .error _ => none

/-- The output of an input that can be read and converted. -/
def outputOf : Option Path :=
  (w.plan parse toForms input).toOption.map Prod.fst

/-- What is said of an input without a product. -/
def verdict : Except BatchError FileOutcome :=
  match w.plan parse toForms input with
  | .error result => result
  | .ok (output, outcome) =>
    .ok { input, output := some output, success := false, diagnostics := outcome.diagnostics
          error := some ("; ".intercalate (outcome.errors.map Diagnostic.message)) }

variable {w parse toForms input} {output : Path} {outcome : Outcome}

/-- A file without a product changes nothing but the session. -/
theorem file_of_product_eq_none (h : w.product parse toForms input = none) : w.file parse toForms input =
    (w.verdict parse toForms input, { w with session := w.sessionAfter parse toForms input }) := by
  rw [file_eq]
  unfold product at h
  unfold verdict
  rcases hplan : w.plan parse toForms input with result | ⟨output, outcome⟩
  · rfl
  · rw [hplan] at h
    dsimp only at h
    by_cases herrors : outcome.hasErrors = true
    · unfold finish
      dsimp only
      rw [if_pos herrors]
    · rw [if_neg herrors] at h
      cases h

theorem product_eq_some_iff : w.product parse toForms input = some (output, outcome) ↔
    w.plan parse toForms input = .ok (output, outcome) ∧ outcome.hasErrors = false := by
  unfold product
  rcases w.plan parse toForms input with result | ⟨output', outcome'⟩
  · exact iff_of_false nofun fun h => by cases h.1
  · dsimp only
    by_cases herrors : outcome'.hasErrors = true
    · rw [if_pos herrors]
      refine iff_of_false nofun fun h => ?_
      cases h.1
      rw [h.2] at herrors
      cases herrors
    · rw [if_neg herrors]
      constructor
      · rintro ⟨⟩
        exact ⟨rfl, by simpa using herrors⟩
      · rintro ⟨⟨⟩, -⟩
        rfl

theorem plan_of_product (h : w.product parse toForms input = some (output, outcome)) :
    w.plan parse toForms input = .ok (output, outcome) :=
  (product_eq_some_iff.1 h).1

theorem product_inj {output' : Path} {outcome' : Outcome} (h : w.product parse toForms input = some (output, outcome))
    (h' : w.product parse toForms input = some (output', outcome')) : output' = output ∧ outcome' = outcome :=
  Prod.mk.inj (Option.some.inj (h'.symm.trans h))

theorem outputOf_eq_some_iff : w.outputOf parse toForms input = some output ↔
    ∃ outcome, w.plan parse toForms input = .ok (output, outcome) := by
  unfold outputOf
  rcases w.plan parse toForms input with result | ⟨output', outcome⟩
  · exact iff_of_false nofun fun ⟨_, h⟩ => by cases h
  · constructor
    · rintro ⟨⟩
      exact ⟨outcome, rfl⟩
    · rintro ⟨_, ⟨⟩⟩
      rfl

theorem outputOf_of_product (h : w.product parse toForms input = some (output, outcome)) :
    w.outputOf parse toForms input = some output :=
  outputOf_eq_some_iff.2 ⟨outcome, plan_of_product h⟩

/-- What is planned for an input is made from its text. -/
theorem readText_of_plan (hplan : w.plan parse toForms input = .ok (output, outcome)) :
    ∃ code, readText w.tree input = .ok code ∧ (w.converted parse toForms code).1 = .ok outcome ∧
      w.outputPath input (extensionFor toForms outcome) = .ok output := by
  unfold plan at hplan
  unfold extensionFor
  cases toForms with
  | true =>
    rw [if_pos rfl] at hplan
    cases hpath : w.outputPath input formExtension with
    | error e => simp [hpath] at hplan
    | ok path =>
      cases hread : readText w.tree input with
      | error e => simp [hpath, hread] at hplan
      | ok code =>
        rw [hpath, hread] at hplan
        dsimp only at hplan
        cases hconvert : (w.converted parse true code).1 with
        | error e => simp [hconvert] at hplan
        | ok converted =>
          rw [hconvert] at hplan
          cases hplan
          exact ⟨code, rfl, hconvert, hpath⟩
  | false =>
    rw [if_neg Bool.false_ne_true] at hplan
    cases hread : readText w.tree input with
    | error e => simp [hread] at hplan
    | ok code =>
      rw [hread] at hplan
      dsimp only at hplan
      cases hconvert : (w.converted parse false code).1 with
      | error e => simp [hconvert] at hplan
      | ok converted =>
        rw [hconvert] at hplan
        dsimp only at hplan
        cases hpath : w.outputPath input (extensionFor false converted) with
        | error e => simp [hpath] at hplan
        | ok path =>
          rw [hpath] at hplan
          cases hplan
          exact ⟨code, rfl, hconvert, hpath⟩

/-- Nothing is planned for an input that cannot be read, or that meets an exception. -/
theorem result_of_plan_error {result : Except BatchError FileOutcome} (hplan : w.plan parse toForms input = .error result) :
    (∃ e, readText w.tree input = .error e ∧ result = unreadable input e) ∨ ∃ e, result = .error e := by
  unfold plan at hplan
  cases toForms with
  | true =>
    rw [if_pos rfl] at hplan
    cases hpath : w.outputPath input formExtension with
    | error e => simp only [hpath, Except.error.injEq] at hplan; exact .inr ⟨_, hplan.symm⟩
    | ok path =>
      cases hread : readText w.tree input with
      | error e => simp only [hpath, hread, Except.error.injEq] at hplan; exact .inl ⟨e, rfl, hplan.symm⟩
      | ok code =>
        cases hconvert : (w.converted parse true code).1 with
        | error e => simp only [hpath, hread, hconvert, Except.error.injEq] at hplan; exact .inr ⟨_, hplan.symm⟩
        | ok outcome => simp [hpath, hread, hconvert] at hplan
  | false =>
    rw [if_neg Bool.false_ne_true] at hplan
    cases hread : readText w.tree input with
    | error e => simp only [hread, Except.error.injEq] at hplan; exact .inl ⟨e, rfl, hplan.symm⟩
    | ok code =>
      cases hconvert : (w.converted parse false code).1 with
      | error e => simp only [hread, hconvert, Except.error.injEq] at hplan; exact .inr ⟨_, hplan.symm⟩
      | ok outcome =>
        cases hpath : w.outputPath input (extensionFor false outcome) with
        | error e => simp only [hread, hconvert, hpath, Except.error.injEq] at hplan; exact .inr ⟨_, hplan.symm⟩
        | ok path => simp [hread, hconvert, hpath] at hplan

/-! ## Inputs that were read -/

/-- A text that was read is that of a file which may be read. -/
theorem read_of_readText {t : FileTree} {code : String} (h : readText t input = .ok code) :
    ∃ bytes, t.read input = .ok bytes := by
  unfold readText at h
  cases hread : t.read input with
  | error e => simp [hread, Except.mapError, bind, Except.bind] at h
  | ok bytes => exact ⟨bytes, rfl⟩

theorem locate_of_readText {t : FileTree} {code : String} (h : readText t input = .ok code) :
    ∃ place bytes status, t.locate input = .ok place ∧ t.entry? place = some (.file bytes status) := by
  obtain ⟨bytes, hread⟩ := read_of_readText h
  obtain ⟨status, hfile, -⟩ := read_eq_ok_iff.1 hread
  obtain ⟨place, hlocate, hentry⟩ := fileAt_eq_ok_iff.1 hfile
  exact ⟨place, bytes, status, hlocate, hentry⟩

theorem resolve_of_locate {t : FileTree} {place : Place} (h : t.locate input = .ok place) (base : Place) :
    ∃ place, input.resolve base = .ok place := by
  have hnull : hasNull input.toString = false := by
    unfold FileTree.locate at h
    by_cases hnull : hasNull input.toString = true
    · rw [if_pos hnull] at h
      cases h
    · simpa using hnull
  have hparts : input.parts.any hasNull = false := by
    rw [List.any_eq_false]
    intro part hpart
    rw [hasNull_of_mem_parts hnull hpart]
    nofun
  unfold Path.resolve
  rw [if_neg (by simp [hparts])]
  exact ⟨_, rfl⟩

/-- What a product comes to is what writing it with its way comes to, and its place is remembered if all is written. -/
theorem file_of_product (h : w.product parse toForms input = some (output, outcome))
    (hbase : (w.tree.writeWithWay output (Text.bytesOf outcome.code)).2.base = w.tree.base) :
    ∃ place, input.resolve w.tree.base = .ok place ∧ w.file parse toForms input =
      let written := w.tree.writeWithWay output (Text.bytesOf outcome.code)
      let after := { w with session := w.sessionAfter parse toForms input, tree := written.2 }
      match written.1 with
      | .error e => (orRefusal e { input, output := some output, success := false, diagnostics := outcome.diagnostics
                                   error := some e.message }, after)
      | .ok () => (.ok { input, output := some output, success := true, diagnostics := outcome.diagnostics },
          { after with outputs := w.outputs.insert place output }) := by
  obtain ⟨hplan, herrors⟩ := product_eq_some_iff.1 h
  obtain ⟨code, hread, -⟩ := readText_of_plan hplan
  obtain ⟨_, _, _, hlocate, _⟩ := locate_of_readText hread
  obtain ⟨place, hplace⟩ := resolve_of_locate hlocate w.tree.base
  refine ⟨place, hplace, ?_⟩
  rw [file_eq, hplan]
  unfold finish
  dsimp only
  rw [if_neg (by simp [herrors])]
  have hwrite : Workshop.writeOutput { w with session := w.sessionAfter parse toForms input } output outcome.code =
      ((w.tree.writeWithWay output (Text.bytesOf outcome.code)).1, { w with
        session := w.sessionAfter parse toForms input
        tree := (w.tree.writeWithWay output (Text.bytesOf outcome.code)).2 }) := by
    unfold writeOutput writeWithWay
    dsimp only
    rcases w.tree.makeDirectories output.parent with ⟨e | ⟨⟩, tree⟩
    · rfl
    · rfl
  rw [hwrite]
  generalize w.tree.writeWithWay output (Text.bytesOf outcome.code) = written at hbase ⊢
  obtain ⟨e | ⟨⟩, tree⟩ := written
  · rfl
  · dsimp only at hbase ⊢
    rw [hbase, hplace]

/-! ## Removing an output -/

/-- The output that is removed for an input at a place: the recorded one, or for a source the one it would have. -/
def removable (w : Workshop) (input : Path) (place : Place) : Except BatchError (Option Path) :=
  match w.outputs.get? place with
  | some output => .ok (some output)
  | none =>
    if input.suffix == formExtension then .ok none
    else ((w.outputPath input formExtension).map some).mapError .path

/-- The record of an input is dropped, and the file at its output is removed. -/
theorem removeOutput_eq {place : Place} (hplace : input.resolve w.tree.base = .ok place) : w.removeOutput input =
    let after := { w with outputs := w.outputs.erase place }
    match w.removable input place with
    | .error e => (.error e, after)
    | .ok none => (.ok none, after)
    | .ok (some output) => match w.tree.remove output with
      | .ok tree => (.ok (some output), { after with tree })
      | .error e => (if e.fault = .missing then .ok (some output) else .error (.system e), after) := by
  unfold removeOutput removable
  rw [hplace]
  dsimp only
  cases w.outputs.get? place with
  | some output => rfl
  | none =>
    dsimp only
    by_cases hsuffix : (input.suffix == formExtension) = true
    · rw [if_pos hsuffix, if_pos hsuffix]
    · rw [if_neg hsuffix, if_neg hsuffix]
      have hafter : { w with outputs := w.outputs.erase place }.outputPath input formExtension =
          w.outputPath input formExtension := rfl
      rw [hafter]
      cases w.outputPath input formExtension <;> rfl

end Workshop
end Argot
