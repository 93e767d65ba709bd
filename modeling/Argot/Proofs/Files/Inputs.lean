import Argot.Proofs.Files.Clashes
/-!
# Inputs — what a batch leaves of the files it reads

The files of a directory are searched by the ends of their names, and no output has a name that ends so.  So all of them
stay as they are, in whatever order they are worked on (`AllBelow.held_runFiles`).  A file that is the target itself is
worked on whatever its name is.  If it has the extension of its output, and the output belongs in its directory, then it
is what is written over (`placeOf_output_eq_iff`), and its text is lost but for what it was converted to
(`held_file_eq_iff`).
-/
namespace Argot
namespace Workshop

open FileTree Argot.Path

variable {w u : Workshop} {parse : Parser Id} {toForms : Bool} {target f output : Path} {outcome : Outcome}
  {files : List Path}

/-- Whether the product of a file is written over the file, and what there is room for of it differs from the file. -/
def WrittenOver (w : Workshop) (parse : Parser Id) (toForms : Bool) (f : Path) : Prop :=
  ∃ output outcome, Opens w parse toForms f output outcome ∧ w.tree.placeOf output = w.tree.placeOf f ∧
    w.tree.held f ≠ .ok (w.fitting output outcome)

/-! ## One file -/

theorem Works.entry?_output {result : Except BatchError FileOutcome × Workshop} (h : Works w parse toForms f result)
    (hopens : Opens w parse toForms f output outcome) :
    ∃ status, result.2.tree.entry? (w.tree.placeOf output) = some (.file (w.fitting output outcome) status) := by
  obtain ⟨hproduct, hwritable⟩ := hopens
  cases h with
  | without product => simp [hproduct] at product
  | failed product written way =>
    obtain ⟨rfl, rfl⟩ := product_inj product hproduct
    exact way.written hwritable
  | written product resolved way =>
    obtain ⟨rfl, rfl⟩ := product_inj product hproduct
    exact way.written hwritable

/-- **A file that is worked on stays as it was, unless it is written over.** -/
theorem held_file_eq_iff (hw : w.WellPlaced) (hp : f.Proper) (hfile : w.tree.isFile f = .ok true) :
    (w.file parse toForms f).2.tree.held f = w.tree.held f ↔ ¬WrittenOver w parse toForms f := by
  obtain ⟨place, hlocate, bytes, status, hthere⟩ := locate_of_isFile hfile
  obtain rfl := place_of_locate hp hlocate
  have hworks : Works w parse toForms f (w.file parse toForms f) := works_file hw hp
  generalize w.file parse toForms f = result at hworks ⊢
  have hheld : ∀ bytes status, result.2.tree.entry? (w.tree.placeOf f) = some (.file bytes status) →
      result.2.tree.held f = .ok bytes := fun _ _ => held_of_locate (hworks.continues.tree.locate_ok hp hlocate)
  by_cases hover : ∃ output outcome, Opens w parse toForms f output outcome ∧ w.tree.placeOf output = w.tree.placeOf f
  · obtain ⟨output, outcome, hopens, hplace⟩ := hover
    obtain ⟨status', hentry⟩ := hworks.entry?_output hopens
    rw [hheld _ status' (hplace ▸ hentry)]
    constructor
    · rintro hsame ⟨output', outcome', hopens', -, hdiffers⟩
      obtain ⟨rfl, rfl⟩ := hopens.inj hopens'.product
      exact hdiffers hsame.symm
    · intro hnot
      by_contra hdiffers
      exact hnot ⟨output, outcome, hopens, hplace, Ne.symm hdiffers⟩
  · have hnot : ∀ output outcome, Opens w parse toForms f output outcome → w.tree.placeOf output ≠ w.tree.placeOf f :=
      fun output outcome hopens hplace => hover ⟨output, outcome, hopens, hplace⟩
    have hentry := hworks.entry?_eq ⟨bytes, status, hthere⟩ hnot
    refine iff_of_true ((hheld _ _ (hentry.trans hthere)).trans (held_of_locate hlocate hthere).symm) ?_
    rintro ⟨output, outcome, hopens, hplace, -⟩
    exact hnot output outcome hopens hplace

/-- **An output belongs where its input is** if the input has its extension and nothing leads it elsewhere. -/
theorem placeOf_output_eq_iff (hw : w.WellPlaced) (hp : f.Proper) (hname : f.name ≠ "..")
    (hplan : w.plan parse toForms f = .ok (output, outcome)) : w.tree.placeOf output = w.tree.placeOf f ↔
      f.suffix = extensionFor toForms outcome ∧ w.tree.placeOf (w.homeOf f) = w.tree.placeOf f.parent := by
  obtain ⟨rfl, hplain⟩ := output_of_plan hw hp hplan
  have hsplit := parent_append_name (parts_ne_nil_of_plan hw hp hplan)
  have hown : f = f.parent.below [f.name] := by
    unfold Path.below
    rw [← hsplit]
    rfl
  have hplainName : IsPlain f.name := ⟨hp _ (by rw [hsplit]; simp), hname⟩
  have hplace : w.tree.placeOf f = w.tree.placeOf f.parent ++ [f.name] := by
    rw [hown, placeOf_below _ f.parent fun c hc => List.mem_singleton.1 hc ▸ hplainName, ← hown]
  have hparts : f.stem ++ f.suffix = f.name := stem_append_suffix f.name
  rw [placeOf_below _ (w.homeOf f) fun c hc => List.mem_singleton.1 hc ▸ hplain, hplace, List.append_singleton_inj,
    ← hparts, String.append_right_inj, and_comm, eq_comm (a := f.suffix)]

/-! ## All files below a directory -/

/-- Working on files below a target leaves all of them as they were. -/
theorem AllBelow.ready_runFiles (hbelow : AllBelow w toForms target files) (hw : w.WellPlaced)
    (htarget : target.Proper) : ∀ (order : List Path) (u : Workshop), (∀ f ∈ order, f ∈ files) → Ready w u files →
    Ready w (runFiles parse toForms order u).2 files
  | [], _, _, h => h
  | f :: rest, u, horder, h => by
    have hf : f ∈ files := horder f List.mem_cons_self
    have hmore : Ready w u (f :: files) := ⟨h.toContinues, fun g hg => (List.mem_cons.1 hg).elim
      (fun hgf => hgf ▸ h.inputs f hf) (h.inputs g)⟩
    have hall : AllBelow w toForms target (f :: files) := fun g hg => (List.mem_cons.1 hg).elim
      (fun hgf => hgf ▸ hbelow f hf) (hbelow g)
    rw [runFiles_cons]
    exact hbelow.ready_runFiles hw htarget rest _ (fun g hg => horder g (List.mem_cons_of_mem _ hg))
      (hall.ready_step hw htarget hmore)

/-- **Files below a target stay as they were**, in whatever order they are worked on. -/
theorem AllBelow.held_runFiles (hbelow : AllBelow w toForms target files) (hw : w.WellPlaced) (htarget : target.Proper)
    {order : List Path} (horder : order.Perm files) (hf : f ∈ files) :
    (runFiles parse toForms order w).2.tree.held f = w.tree.held f := by
  obtain ⟨hfile, way, name, hfound⟩ := hbelow f hf
  have hready : Ready w (runFiles parse toForms order w).2 files :=
    hbelow.ready_runFiles hw htarget order w (fun g hg => horder.mem_iff.1 hg) ⟨.refl w, fun _ _ => rfl⟩
  unfold held
  rw [hready.fileAt_eq hf (hfound.proper htarget) hfile]

theorem AllBelow.not_writtenOver (hbelow : AllBelow w toForms target files) (hw : w.WellPlaced)
    (htarget : target.Proper) (hf : f ∈ files) : ¬WrittenOver w parse toForms f := by
  obtain ⟨-, way, name, hfound⟩ := hbelow f hf
  rintro ⟨output, outcome, hopens, hplace, -⟩
  exact hfound.output_ne_input hfound hw htarget (plan_of_product hopens.product) w.tree hplace

/-! ## Batches -/

/-- Without a number of workers nothing is worked on. -/
theorem run_snd (hfind : w.find target (w.patternsFor toForms) = .ok files) : (w.run parse toForms target).2 =
    if w.settings.workers.isSome then (runFiles parse toForms files w).2 else w := by
  cases hworkers : w.settings.workers with
  | some n =>
    obtain ⟨report, u, hrun, -, -, rfl⟩ := exists_run parse hfind (hworkers ▸ rfl)
    rw [hrun]
    rfl
  | none =>
    unfold run
    rw [hfind]
    dsimp only [bind, pure]
    rw [hworkers]
    cases files <;> rfl

/-- **A batch leaves every input as it was, but for one that is written over.**  No file below a directory is, in whatever
order the files are worked on.  A file that is the target itself is written over if what it is converted to can be
opened, differs from it as far as there is room for it, and belongs at its place: the file has the extension of its
output, and the home of the output is its directory. -/
theorem input_kept_iff {w : Workshop} (parse : Parser Id) {toForms : Bool} {target f : Path} {files : List Path}
    (ht : w.tree.Sound) (hdirectory : ∀ directory, w.settings.outputDirectory = some directory → directory.Proper)
    (htarget : target.Proper) (hpatterns : w.settings.patterns = ({} : BatchSettings).patterns)
    (hfind : w.find target (w.patternsFor toForms) = .ok files) (hf : f ∈ files) :
    ((w.run parse toForms target).2.tree.held f = w.tree.held f ↔
      (w.settings.workers.isSome = true → ¬WrittenOver w parse toForms f)) ∧
    (w.tree.isDirectory target = .ok true → ¬WrittenOver w parse toForms f ∧
      ∀ order : List Path, order.Perm files → (runFiles parse toForms order w).2.tree.held f = w.tree.held f) ∧
    (WrittenOver w parse toForms f → f = target) ∧
    ∀ output outcome, Opens w parse toForms f output outcome → f.name ≠ ".." →
      (w.tree.placeOf output = w.tree.placeOf f ↔
        f.suffix = extensionFor toForms outcome ∧ w.tree.placeOf (w.homeOf f) = w.tree.placeOf f.parent) := by
  have hw := wellPlaced_of_sound ht hdirectory
  have hplace : f.Proper → ∀ output outcome, Opens w parse toForms f output outcome → f.name ≠ ".." →
      (w.tree.placeOf output = w.tree.placeOf f ↔
        f.suffix = extensionFor toForms outcome ∧ w.tree.placeOf (w.homeOf f) = w.tree.placeOf f.parent) :=
    fun hp output outcome hopens hname => placeOf_output_eq_iff hw hp hname (plan_of_product hopens.product)
  rw [run_snd hfind]
  rcases findFiles_cases hfind with ⟨hfile, rfl⟩ | ⟨hfile, -⟩
  · by_cases hexcluded : isExcluded w.settings.exclude target = true
    · simp [hexcluded] at hf
    · rw [if_neg hexcluded, List.mem_singleton] at hf
      subst hf
      refine ⟨?_, fun hdir => (not_isFile_of_isDirectory hdir hfile).elim, fun _ => rfl, hplace htarget⟩
      rw [if_neg hexcluded]
      by_cases hworkers : w.settings.workers.isSome = true
      · rw [if_pos hworkers]
        exact (held_file_eq_iff hw htarget hfile).trans ⟨fun h _ => h, fun h => h hworkers⟩
      · rw [if_neg hworkers]
        exact iff_of_true rfl fun h => (hworkers h).elim
  · obtain ⟨-, hbelow⟩ := allBelow_of_not_isFile ht hpatterns (by simp [hfile]) hfind
    have hnot : ¬WrittenOver w parse toForms f := hbelow.not_writtenOver hw htarget hf
    obtain ⟨-, way, name, hfound⟩ := hbelow f hf
    refine ⟨iff_of_true ?_ fun _ => hnot, fun _ => ⟨hnot, fun order horder => hbelow.held_runFiles hw htarget horder hf⟩,
      fun hover => (hnot hover).elim, hplace (hfound.proper htarget)⟩
    split
    · exact hbelow.held_runFiles hw htarget (.refl files) hf
    · rfl

def oneWord : Session where
  custom := some (Table.ofLists [(.keyword, [("let", "tightVar")])])

/-- The parse tree of `let x`. -/
def oneDeclaration : Parser Id := fun _ _ =>
  Tree.inner "program" 0 5 none
    [.inner "lexical_declaration" 0 5 none
      [.token "let" false 0 3 "kind", .inner "variable_declarator" 4 5 none [.token "identifier" true 4 5 "name"]]]

/-- A source stays, and the file of its forms that was there before is written anew. -/
theorem input_kept_older_output :
    let w : Workshop := { tree := workDirectory [("a.js", Text.bytesOf "let x"), ("a.gachi", [])], session := oneWord }
    let a : Path := ⟨"", ["a.js"]⟩
    w.tree.Sound ∧ w.find ⟨"", []⟩ (w.patternsFor true) = .ok [a] ∧
      (w.run oneDeclaration true ⟨"", []⟩).2.tree.read ⟨"", ["a.gachi"]⟩ = .ok (Text.bytesOf "tightVar x") ∧
      (w.run oneDeclaration true ⟨"", []⟩).2.tree.held a = .ok (Text.bytesOf "let x") := by
  intro w a
  have hsound : w.tree.Sound := ⟨⟨by decide, by decide⟩, by decide⟩
  have hfind : w.find ⟨"", []⟩ (w.patternsFor true) = .ok [a] :=
    findFiles_of_ordered ["work"] rfl rfl (by decide) (by decide +kernel) (by decide)
  obtain ⟨hkept, hbelow, -⟩ := input_kept_iff oneDeclaration hsound nofun (by decide) rfl hfind List.mem_cons_self
  have hheld : w.tree.held a = .ok (Text.bytesOf "let x") := eq_ok_of_toOption (by decide +kernel)
  have hwritten : (runFiles oneDeclaration true [a] w).2.tree.read ⟨"", ["a.gachi"]⟩ =
      .ok (Text.bytesOf "tightVar x") := eq_ok_of_toOption (by decide +kernel)
  refine ⟨hsound, hfind, ?_, (hkept.2 fun _ => (hbelow rfl).1).trans hheld⟩
  have hworkers : w.settings.workers.isSome = true := rfl
  rw [run_snd hfind, if_pos hworkers]
  exact hwritten

/-- **A file of forms that is converted to forms is lost**: its output is the file itself, and the batch reports a
success. -/
theorem input_written_over :
    let w : Workshop := { tree := workDirectory [("a.gachi", Text.bytesOf "let x")], session := oneWord }
    let a : Path := ⟨"", ["a.gachi"]⟩
    w.find a (w.patternsFor true) = .ok [a] ∧ w.tree.read a = .ok (Text.bytesOf "let x") ∧
    ∃ report u, w.run oneDeclaration true a = (.ok report, u) ∧
      report.outcomes = [{ input := a, output := some a, success := true }] ∧
      u.tree.read a = .ok (Text.bytesOf "tightVar x") := by
  intro w a
  have hfind : w.find a (w.patternsFor true) = .ok [a] := eq_ok_of_toOption (by decide +kernel)
  obtain ⟨report, u, hrun, -, houtcomes, rfl⟩ := exists_run oneDeclaration hfind rfl
  have hall : (runFiles oneDeclaration true [a] w).1 = [{ input := a, output := some a, success := true }] := by
    decide +kernel
  refine ⟨hfind, eq_ok_of_toOption (by decide +kernel), report, _, hrun, ?_, eq_ok_of_toOption (by decide +kernel)⟩
  rw [houtcomes, hall]
  exact List.mergeSort_singleton _

end Workshop
end Argot
