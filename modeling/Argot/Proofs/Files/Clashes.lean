import Argot.Proofs.Files.Isolation
/-!
# Clashes — files of a batch with one output

Two files of one directory that differ in their extensions only are converted to one output, each with success, and the
last one is found there.  Outputs clash in no other way, and one that nothing else was written at holds what its own
input was converted to (`outputs_of_run`).
-/
namespace Argot
namespace Workshop

open FileTree Argot.Path

variable {w u : Workshop} {parse : Parser Id} {toForms : Bool} {target f p : Path} {files : List Path}

/-- A file with what a session like the one at the start makes of the text that an input had then. -/
def Holds (w : Workshop) (parse : Parser Id) (toForms : Bool) (input p : Path) (u : Workshop) : Prop :=
  ∃ code session outcome, readText w.tree input = .ok code ∧ w.session.Alike session ∧
    (if toForms then session.forward parse code else session.reverse parse code).1 = .ok outcome ∧
    u.tree.held p = .ok (Text.bytesOf outcome.code)

theorem homeOf_eq (h : Continues w u) (f : Path) : u.homeOf f = w.homeOf f := by
  unfold homeOf wayOf
  rw [h.settings, h.tree.base]

/-- The files that a batch finds below its target. -/
def AllBelow (w : Workshop) (toForms : Bool) (target : Path) (files : List Path) : Prop :=
  ∀ f ∈ files, w.tree.isFile f = .ok true ∧ ∃ way name, FoundBelow toForms target f way name

/-- What the output of an outcome of a batch has to do with its input, in the end. -/
structure Results (w : Workshop) (parse : Parser Id) (toForms : Bool) (outcomes : List FileOutcome) (o : FileOutcome)
    (p : Path) (u : Workshop) : Prop where
  output : ∃ outcome, p = (w.homeOf o.input).below [o.input.stem ++ extensionFor toForms outcome]
  holds : o.success = true → (∀ o' ∈ outcomes, o'.Opened → ∀ p', o'.output = some p' →
    w.tree.placeOf p' = w.tree.placeOf p → o'.input = o.input) → Holds w parse toForms o.input p u

theorem continues_runFiles (hw : w.WellPlaced) : ∀ (order : List Path) (u : Workshop), Continues w u →
    (∀ f ∈ order, f.Proper) → Continues u (runFiles parse toForms order u).2
  | [], u, _, _ => .refl u
  | f :: rest, u, hcontinues, hproper => by
    have hworks : Works u parse toForms f (u.file parse toForms f) :=
      works_file (hcontinues.wellPlaced hw) (hproper f List.mem_cons_self)
    exact hworks.continues.trans (continues_runFiles hw rest _ (hcontinues.trans hworks.continues)
      fun g hg => hproper g (List.mem_cons_of_mem _ hg))

/-- A file that is there stays as it is while files are worked on whose outputs are elsewhere. -/
theorem entry?_runFiles (hw : w.WellPlaced) {q : Place} : ∀ (order : List Path) (u : Workshop), Continues w u →
    (∀ f ∈ order, f.Proper) → u.tree.IsFileAt q →
    (∀ o ∈ (runFiles parse toForms order u).1, o.Opened → ∀ p, o.output = some p → w.tree.placeOf p ≠ q) →
    (runFiles parse toForms order u).2.tree.entry? q = u.tree.entry? q
  | [], u, _, _, _, _ => rfl
  | f :: rest, u, hcontinues, hproper, hfile, hothers => by
    rw [runFiles_cons] at hothers ⊢
    have hworks : Works u parse toForms f (u.file parse toForms f) :=
      works_file (hcontinues.wellPlaced hw) (hproper f List.mem_cons_self)
    have hstep := hworks.entry?_eq hfile fun output outcome hopens => by
      obtain ⟨hopened, houtput⟩ := hworks.tells.opened output outcome hopens
      rw [hcontinues.tree.placeOf]
      exact hothers _ List.mem_cons_self hopened output houtput
    refine (entry?_runFiles hw rest _ (hcontinues.trans hworks.continues)
      (fun g hg => hproper g (List.mem_cons_of_mem _ hg)) ?_ fun o ho => hothers o (List.mem_cons_of_mem _ ho)).trans hstep
    exact hworks.continues.tree.file q hfile

theorem AllBelow.ready_step {rest : List Path} (hbelow : AllBelow w toForms target (f :: rest)) (hw : w.WellPlaced)
    (htarget : target.Proper) (h : Ready w u (f :: rest)) : Ready w (u.file parse toForms f).2 rest := by
  obtain ⟨-, way, name, hf⟩ := hbelow f List.mem_cons_self
  refine h.step (works_file (h.toContinues.wellPlaced hw) (hf.proper htarget)) (fun g hg => ?_)
    fun output houtput g hg => ?_
  · obtain ⟨hisFile, way', name', hg'⟩ := hbelow g (List.mem_cons_of_mem _ hg)
    obtain ⟨place, hlocate, hfile⟩ := locate_of_isFile hisFile
    rwa [place_of_locate (hg'.proper htarget) hlocate] at hfile
  · obtain ⟨-, way', name', hg'⟩ := hbelow g (List.mem_cons_of_mem _ hg)
    obtain ⟨outcome, hplan⟩ := outputOf_eq_some_iff.1 houtput
    exact hf.output_ne_input hg' (h.toContinues.wellPlaced hw) htarget hplan w.tree

/-- Where the output of an input goes that has just been worked on. -/
theorem Works.output {rest : List Path} {result : Except BatchError FileOutcome × Workshop}
    (hworks : Works u parse toForms f result) (h : Ready w u (f :: rest)) (hw : w.WellPlaced) (hp : f.Proper)
    (houtput : (outcomeOf f result.1).output = some p) :
    ∃ outcome, p = (w.homeOf f).below [f.stem ++ extensionFor toForms outcome] := by
  obtain ⟨outcome, hplan⟩ := outputOf_eq_some_iff.1 (hworks.tells.output p houtput)
  obtain ⟨hpath, -⟩ := output_of_plan (h.toContinues.wellPlaced hw) hp hplan
  rw [homeOf_eq h.toContinues] at hpath
  exact ⟨outcome, hpath⟩

/-- What a success has written, when it has just been worked on. -/
theorem Works.writes {rest : List Path} {result : Except BatchError FileOutcome × Workshop}
    (hworks : Works u parse toForms f result) (h : Ready w u (f :: rest)) (hw : w.WellPlaced) (hp : f.Proper)
    (hisFile : w.tree.isFile f = .ok true) (hs : (outcomeOf f result.1).success = true)
    (houtput : (outcomeOf f result.1).output = some p) : ∃ outcome code status, p.Proper ∧
      readText w.tree f = .ok code ∧ (u.converted parse toForms code).1 = .ok outcome ∧
      result.2.tree.locate p = .ok (w.tree.placeOf p) ∧
      result.2.tree.entry? (w.tree.placeOf p) = some (.file (Text.bytesOf outcome.code) status) := by
  have hu := h.toContinues.wellPlaced hw
  obtain ⟨output, outcome, hwrites, houtput'⟩ := hworks.tells.written hs
  obtain rfl : output = p := Option.some.inj (houtput'.symm.trans houtput)
  have hplan := plan_of_product hwrites.product
  obtain ⟨code, hread, hconverted, -⟩ := readText_of_plan hplan
  obtain ⟨hproper, hparts⟩ := proper_output hu hp hplan
  rw [h.readText_eq List.mem_cons_self hp hisFile] at hread
  have hplace := h.tree.placeOf output
  have hwhole : u.tree.fitting (u.tree.placeOf output) (Text.bytesOf outcome.code) = Text.bytesOf outcome.code :=
    hwrites.whole
  cases hworks with
  | without product => exact (not_opens_of_product_eq_none product hwrites.toOpens).elim
  | failed product written way =>
    obtain ⟨rfl, rfl⟩ := product_inj hwrites.product product
    cases way.ok_iff.2 ⟨hwrites.writable, hwhole⟩
  | written product resolved way =>
    obtain ⟨rfl, rfl⟩ := product_inj hwrites.product product
    have hlocate := way.locate hwrites.writable hproper hparts
    obtain ⟨status, hentry⟩ := way.written hwrites.writable
    rw [hwhole, hplace] at hentry
    rw [hplace] at hlocate
    exact ⟨_, code, status, hproper, hread, hconverted, hlocate, hentry⟩

/-- **Every output of a batch belongs to the home of its input**, and what a success has written there stays unless
something is written over it later. -/
theorem results_runFiles (parse : Parser Id) (hw : w.WellPlaced) (htarget : target.Proper) :
    ∀ (order : List Path) (u : Workshop), order.Nodup → AllBelow w toForms target order → Ready w u order →
    (runFiles parse toForms order u).1.map FileOutcome.input = order ∧
      ∀ o ∈ (runFiles parse toForms order u).1, (o.success = true → ∃ p, o.output = some p) ∧
        ∀ p, o.output = some p →
          Results w parse toForms (runFiles parse toForms order u).1 o p (runFiles parse toForms order u).2
  | [], u, _, _, _ => ⟨rfl, nofun⟩
  | f :: rest, u, hnodup, hbelow, h => by
    rw [runFiles_cons]
    rw [List.nodup_cons] at hnodup
    have hu := h.toContinues.wellPlaced hw
    obtain ⟨hisFile, way, name, hf⟩ := hbelow f List.mem_cons_self
    have hproper := hf.proper htarget
    have hworks : Works u parse toForms f (u.file parse toForms f) := works_file hu hproper
    have hready : Ready w (u.file parse toForms f).2 rest := hbelow.ready_step hw htarget h
    obtain ⟨hinputs, hrest⟩ := results_runFiles parse hw htarget rest (u.file parse toForms f).2 hnodup.2
      (fun g hg => hbelow g (List.mem_cons_of_mem _ hg)) hready
    have hinput : (outcomeOf f (u.file parse toForms f).1).input = f := hworks.tells.input
    refine ⟨congrArg₂ List.cons hinput hinputs, fun o ho => ?_⟩
    rcases List.mem_cons.1 ho with rfl | ho
    · refine ⟨fun hs => ?_, fun p hp => ⟨?_, fun hs hothers => ?_⟩⟩
      · obtain ⟨output, -, -, houtput⟩ := hworks.tells.written hs
        exact ⟨output, houtput⟩
      · rw [hinput]
        exact hworks.output h hw hproper hp
      · obtain ⟨outcome, code, status, hpProper, hread, hconverted, hlocate, hentry⟩ :=
          hworks.writes h hw hproper hisFile hs hp
        rw [← hinput] at hread
        have hrestProper : ∀ g ∈ rest, g.Proper := fun g hg => by
          obtain ⟨-, way', name', hg'⟩ := hbelow g (List.mem_cons_of_mem _ hg)
          exact hg'.proper htarget
        have hlater : Later (u.file parse toForms f).2.tree
            (runFiles parse toForms rest (u.file parse toForms f).2).2.tree :=
          (continues_runFiles hw rest _ hready.toContinues hrestProper).tree
        refine ⟨code, u.session, outcome, hread, h.session, hconverted,
          held_of_locate (hlater.locate_ok hpProper hlocate) ((entry?_runFiles hw rest _ hready.toContinues hrestProper
            ⟨_, _, hentry⟩ fun o ho hopened p' hp' hsame => ?_).trans hentry)⟩
        -- a later file written over it would have been worked on twice
        have hsameInput := hothers o (List.mem_cons_of_mem _ ho) hopened p' hp' hsame
        have hmem : o.input ∈ rest := hinputs ▸ List.mem_map_of_mem ho
        exact hnodup.1 ((hsameInput.trans hinput) ▸ hmem)
    · obtain ⟨houtput, hresults⟩ := hrest o ho
      exact ⟨houtput, fun p hp => ⟨(hresults p hp).output, fun hs hothers => (hresults p hp).holds hs
        fun o' ho' => hothers o' (List.mem_cons_of_mem _ ho')⟩⟩

/-! ## Homes -/

/-- Outputs go beside their inputs, or to where these lie below the target. -/
def KeepsLayout (w : Workshop) (target : Path) : Prop :=
  w.settings.outputDirectory = none ∨ ∃ root place, w.settings.inputRoot = some root ∧
    root.resolve w.tree.base = .ok place ∧ target.resolve w.tree.base = .ok place

/-- The home of an output lies where its input does. -/
theorem homeOf_of_keepsLayout {way : List String} {name : String} (h : KeepsLayout w target) (htarget : target.Proper)
    (hisFile : w.tree.isFile f = .ok true) (hf : FoundBelow toForms target f way name) :
    w.homeOf f = (w.settings.outputDirectory.getD target).below way := by
  unfold homeOf
  rcases h with hnone | ⟨root, place, hroot, hrootPlace, htargetPlace⟩
  · rw [hnone]
    exact hf.parent
  · cases w.settings.outputDirectory with
    | none => exact hf.parent
    | some directory =>
      obtain ⟨located, hlocate, -⟩ := locate_of_isFile hisFile
      obtain ⟨place', hplace'⟩ := resolve_of_locate hlocate w.tree.base
      have hbelow : place'.dropLast = place ++ way := by
        rw [resolve_eq_ok (hf.proper htarget) hplace', hf.placeOf, List.dropLast_concat,
          resolve_eq_ok htarget htargetPlace]
      have hway : w.wayOf f = way := by
        unfold wayOf
        rw [hroot, Option.bind_some, hrootPlace, hplace']
        dsimp only [Except.toOption, Option.bind_some, wayBelow?]
        rw [hbelow, if_pos (List.isPrefixOf_iff_prefix.2 (List.prefix_append place way)), List.drop_left]
        rfl
      rw [hway]
      rfl

theorem stem_ne_empty_of_found {way : List String} {name : String} (hf : FoundBelow toForms target f way name) :
    f.stem ≠ "" := by
  rw [hf.stem_eq]
  exact stem_ne_empty (hf.plain name (by simp)).1.1

/-- **Outputs are the same if their inputs are, but for the extension.** -/
theorem output_eq_iff {g p p' : Path} {outcome outcome' : Outcome} (h : KeepsLayout w target) (htarget : target.Proper)
    (hf : w.tree.isFile f = .ok true ∧ ∃ way name, FoundBelow toForms target f way name)
    (hg : w.tree.isFile g = .ok true ∧ ∃ way name, FoundBelow toForms target g way name)
    (hp : p = (w.homeOf f).below [f.stem ++ extensionFor toForms outcome])
    (hp' : p' = (w.homeOf g).below [g.stem ++ extensionFor toForms outcome']) :
    (p = p' ↔ f.parent = g.parent ∧ f.stem = g.stem ∧ p.suffix = p'.suffix) ∧
      (w.tree.placeOf p = w.tree.placeOf p' → p = p') := by
  obtain ⟨hisFile, way, name, hbelow⟩ := hf
  obtain ⟨hisFile', way', name', hbelow'⟩ := hg
  have hext := isExtension_extensionFor toForms outcome
  have hext' := isExtension_extensionFor toForms outcome'
  have hsplit := splitSuffix_append (stem_ne_empty_of_found hbelow) hext
  have hsplit' := splitSuffix_append (stem_ne_empty_of_found hbelow') hext'
  rw [homeOf_of_keepsLayout h htarget hisFile hbelow, below_below] at hp
  rw [homeOf_of_keepsLayout h htarget hisFile' hbelow', below_below] at hp'
  generalize w.settings.outputDirectory.getD target = home at hp hp'
  have hname : p.name = f.stem ++ extensionFor toForms outcome := by
    rw [hp, ← below_below]
    exact List.getLastD_concat
  have hname' : p'.name = g.stem ++ extensionFor toForms outcome' := by
    rw [hp', ← below_below]
    exact List.getLastD_concat
  have hsame : way ++ [f.stem ++ extensionFor toForms outcome] = way' ++ [g.stem ++ extensionFor toForms outcome'] ↔
      f.parent = g.parent ∧ f.stem = g.stem ∧ p.suffix = p'.suffix := by
    have hsuffix : p.suffix = extensionFor toForms outcome := by rw [Path.suffix, hname, hsplit]
    have hsuffix' : p'.suffix = extensionFor toForms outcome' := by rw [Path.suffix, hname', hsplit']
    rw [hbelow.parent, hbelow'.parent, hsuffix, hsuffix']
    constructor
    · intro heq
      obtain ⟨hway, hlast⟩ := List.append_inj' heq rfl
      rw [List.singleton_inj.1 hlast, hsplit'] at hsplit
      exact ⟨congrArg target.below hway, (congrArg Prod.fst hsplit).symm, (congrArg Prod.snd hsplit).symm⟩
    · rintro ⟨hparent, hstem, hextension⟩
      rw [hstem, hextension, List.append_cancel_left (congrArg Path.parts hparent)]
  refine ⟨by rw [← hsame, hp, hp', below_inj], fun hplace => ?_⟩
  have hplain : ∀ c ∈ way ++ [f.stem ++ extensionFor toForms outcome], IsPlain c := by
    rw [hbelow.stem_eq]
    exact hbelow.plain_output hext
  have hplain' : ∀ c ∈ way' ++ [g.stem ++ extensionFor toForms outcome'], IsPlain c := by
    rw [hbelow'.stem_eq]
    exact hbelow'.plain_output hext'
  rw [hp, hp', placeOf_below _ home hplain, placeOf_below _ home hplain'] at hplace
  rw [hp, hp', List.append_cancel_left hplace]

/-! ## Reports -/

theorem run_eq_ok {report : BatchReport} (h : w.run parse toForms target = (.ok report, u)) :
    ∃ files, w.find target (w.patternsFor toForms) = .ok files ∧ u = (runFiles parse toForms files w).2 ∧
      report.outcomes = (runFiles parse toForms files w).1.mergeSort outcomeBefore := by
  unfold run at h
  cases hfind : w.find target (w.patternsFor toForms) with
  | error e =>
    rw [hfind] at h
    cases h
  | ok files =>
    rw [hfind] at h
    dsimp only [bind, pure] at h
    by_cases hworkers : (!files.isEmpty && w.settings.workers.isNone) = true
    · rw [if_pos hworkers] at h
      cases h
    · rw [if_neg hworkers] at h
      cases h
      exact ⟨files, rfl, rfl, rfl⟩

theorem not_isFile_of_isDirectory (h : w.tree.isDirectory target = .ok true) : w.tree.isFile target ≠ .ok true := by
  intro hfile
  unfold FileTree.isFile FileTree.isDirectory at *
  cases hlook : w.tree.look target with
  | error e => simp [hlook, Except.map] at hfile
  | ok found => rcases found with _ | (_ | ⟨bytes, status⟩) <;> simp [hlook, Except.map] at hfile h

/-- Only a file is found itself. -/
theorem allBelow_of_not_isFile (ht : w.tree.Sound) (hpatterns : w.settings.patterns = ({} : BatchSettings).patterns)
    (hnot : w.tree.isFile target ≠ .ok true) (hfind : w.find target (w.patternsFor toForms) = .ok files) :
    files.Nodup ∧ AllBelow w toForms target files := by
  obtain ⟨hnodup, hisFile, htarget | hbelow⟩ := found_below ht hpatterns hfind
  · exact ⟨hnodup, fun f hf => (hnot (htarget f hf ▸ hisFile f hf)).elim⟩
  · exact ⟨hnodup, fun f hf => ⟨hisFile f hf, hbelow f hf⟩⟩

theorem allBelow_of_find (ht : w.tree.Sound) (hpatterns : w.settings.patterns = ({} : BatchSettings).patterns)
    (htargetDir : w.tree.isDirectory target = .ok true) (hfind : w.find target (w.patternsFor toForms) = .ok files) :
    files.Nodup ∧ AllBelow w toForms target files :=
  allBelow_of_not_isFile ht hpatterns (not_isFile_of_isDirectory htargetDir) hfind

/-- **Two successes of a batch share an output if and only if their inputs differ in their extensions only**, in one
directory, and get the same extension; and the output of a success holds what its own input was converted to, unless
another success has it, or a write that broke off. -/
theorem outputs_of_run {report : BatchReport} (ht : w.tree.Sound)
    (hdirectory : ∀ directory, w.settings.outputDirectory = some directory → directory.Proper) (htarget : target.Proper)
    (hpatterns : w.settings.patterns = ({} : BatchSettings).patterns) (hlayout : KeepsLayout w target)
    (htargetDir : w.tree.isDirectory target = .ok true) (hrun : w.run parse toForms target = (.ok report, u)) :
    (report.outcomes.map FileOutcome.input).Nodup ∧
    (∀ o ∈ report.outcomes, ∀ o' ∈ report.outcomes, o.success = true → o'.success = true → ∀ p p',
      o.output = some p → o'.output = some p' →
      (p = p' ↔ o.input.parent = o'.input.parent ∧ o.input.stem = o'.input.stem ∧ p.suffix = p'.suffix)) ∧
    ∀ o ∈ report.outcomes, o.success = true → ∃ p, o.output = some p ∧
      ((∀ o' ∈ report.outcomes, o'.Opened → o'.output = some p → o'.input = o.input) →
        Holds w parse toForms o.input p u) := by
  have hw := wellPlaced_of_sound ht hdirectory
  obtain ⟨files, hfind, rfl, houtcomes⟩ := run_eq_ok hrun
  obtain ⟨hnodup, hbelow⟩ := allBelow_of_find ht hpatterns htargetDir hfind
  obtain ⟨hinputs, hresults⟩ := results_runFiles parse hw htarget files w hnodup hbelow ⟨.refl w, fun _ _ => rfl⟩
  rw [houtcomes]
  simp only [List.mem_mergeSort]
  have hmem : ∀ o ∈ (runFiles parse toForms files w).1, o.input ∈ files := fun o ho =>
    hinputs ▸ List.mem_map_of_mem ho
  have hsame : ∀ o ∈ (runFiles parse toForms files w).1, ∀ o' ∈ (runFiles parse toForms files w).1, ∀ p p',
      o.output = some p → o'.output = some p' →
      (p = p' ↔ o.input.parent = o'.input.parent ∧ o.input.stem = o'.input.stem ∧ p.suffix = p'.suffix) ∧
        (w.tree.placeOf p = w.tree.placeOf p' → p = p') := by
    intro o ho o' ho' p p' hp hp'
    obtain ⟨outcome, hpath⟩ := ((hresults o ho).2 p hp).output
    obtain ⟨outcome', hpath'⟩ := ((hresults o' ho').2 p' hp').output
    exact output_eq_iff hlayout htarget (hbelow _ (hmem o ho)) (hbelow _ (hmem o' ho')) hpath hpath'
  refine ⟨?_, fun o ho o' ho' hs hs' p p' hp hp' => (hsame o ho o' ho' p p' hp hp').1, fun o ho hs => ?_⟩
  · rw [((List.mergeSort_perm _ _).map FileOutcome.input).nodup_iff, hinputs]
    exact hnodup
  · obtain ⟨houtput, hall⟩ := hresults o ho
    obtain ⟨p, hp⟩ := houtput hs
    refine ⟨p, hp, fun hothers => (hall p hp).holds hs fun o' ho' hopened p' hp' hplace =>
      hothers o' ho' hopened ?_⟩
    rw [hp', (hsame o' ho' o ho p' p hp' hp).2 hplace]

/-- Files that are apart each have their own output. -/
theorem outputs_of_run_two_files :
    let w : Workshop := { tree := workDirectory [("a.js", []), ("b.js", [])] }
    let parse : Parser Id := fun _ _ => emptyProgram
    w.tree.Sound ∧ KeepsLayout w ⟨"", []⟩ ∧ ∃ report u, w.run parse true ⟨"", []⟩ = (.ok report, u) ∧
      Holds w parse true ⟨"", ["a.js"]⟩ ⟨"", ["a.gachi"]⟩ u ∧ Holds w parse true ⟨"", ["b.js"]⟩ ⟨"", ["b.gachi"]⟩ u := by
  intro w parse
  have hsound : w.tree.Sound := ⟨⟨by decide, by decide⟩, by decide⟩
  let files : List Path := [⟨"", ["a.js"]⟩, ⟨"", ["b.js"]⟩]
  have hfind : w.find ⟨"", []⟩ (w.patternsFor true) = .ok files :=
    findFiles_of_ordered ["work"] rfl rfl (by decide) (by decide +kernel) (by decide)
  obtain ⟨report, u, hrun, -, houtcomes, -⟩ := exists_run parse hfind rfl
  have hall : (runFiles parse true files w).1 = [
      { input := ⟨"", ["a.js"]⟩, output := some ⟨"", ["a.gachi"]⟩, success := true },
      { input := ⟨"", ["b.js"]⟩, output := some ⟨"", ["b.gachi"]⟩, success := true }] := by decide +kernel
  have hmem : ∀ o, o ∈ report.outcomes ↔ o ∈ (runFiles parse true files w).1 := fun o => by
    rw [houtcomes, List.mem_mergeSort]
  rw [hall] at hmem
  obtain ⟨-, -, hholds⟩ := outputs_of_run hsound nofun (by decide) rfl (.inl rfl) rfl hrun
  have hown : ∀ input output : Path, { input, output := some output, success := true : FileOutcome } ∈ report.outcomes →
      (∀ o ∈ report.outcomes, o.output = some output → o.input = input) → Holds w parse true input output u := by
    intro input output ho hothers
    obtain ⟨p, hp, hholds⟩ := hholds _ ho rfl
    obtain rfl : output = p := Option.some.inj hp
    exact hholds fun o' ho' _ => hothers o' ho'
  have hdistinct : ∀ input output : Path, { input, output := some output, success := true : FileOutcome } ∈
      report.outcomes → ∀ o ∈ report.outcomes, o.output = some output → o.input = input := by
    intro input output ho o ho' hp
    rw [hmem] at ho ho'
    simp only [List.mem_cons, List.not_mem_nil, or_false, FileOutcome.mk.injEq, Option.some.injEq] at ho
    simp only [List.mem_cons, List.not_mem_nil, or_false] at ho'
    rcases ho with ⟨rfl, rfl, -⟩ | ⟨rfl, rfl, -⟩ <;> rcases ho' with rfl | rfl <;> revert hp <;> decide
  have ha : { input := ⟨"", ["a.js"]⟩, output := some ⟨"", ["a.gachi"]⟩, success := true : FileOutcome } ∈ report.outcomes := by
    rw [hmem]
    exact List.mem_cons_self
  have hb : { input := ⟨"", ["b.js"]⟩, output := some ⟨"", ["b.gachi"]⟩, success := true : FileOutcome } ∈ report.outcomes := by
    rw [hmem]
    exact List.mem_cons_of_mem _ List.mem_cons_self
  exact ⟨hsound, .inl rfl, report, u, hrun, hown _ _ ha (hdistinct _ _ ha), hown _ _ hb (hdistinct _ _ hb)⟩

/-- **Two files with one stem have one output**: both are reported as successes, and what the first was converted to is
lost. -/
theorem js_and_jsx_share_output :
    let w : Workshop := { tree := workDirectory [("a.js", []), ("a.jsx", Text.bytesOf "//")] }
    let parse : Parser Id := fun _ source =>
      if source = "" then emptyProgram
      else Tree.inner "program" 0 2 none [.token "comment" true 0 2]
    let shared : Path := ⟨"", ["a.gachi"]⟩
    ∃ report u, w.run parse true ⟨"", []⟩ = (.ok report, u) ∧
      { input := ⟨"", ["a.js"]⟩, output := some shared, success := true } ∈ report.outcomes ∧
      { input := ⟨"", ["a.jsx"]⟩, output := some shared, success := true } ∈ report.outcomes ∧
      u.tree.read shared = .ok (Text.bytesOf "//") ∧ ¬Holds w parse true ⟨"", ["a.js"]⟩ shared u := by
  intro w parse shared
  let files : List Path := [⟨"", ["a.js"]⟩, ⟨"", ["a.jsx"]⟩]
  have hfind : w.find ⟨"", []⟩ (w.patternsFor true) = .ok files :=
    findFiles_of_ordered ["work"] rfl rfl (by decide) (by decide +kernel) (by decide)
  obtain ⟨report, u, hrun, -, houtcomes, hu⟩ := exists_run parse hfind rfl
  have hall : (runFiles parse true files w).1 = [
      { input := ⟨"", ["a.js"]⟩, output := some shared, success := true },
      { input := ⟨"", ["a.jsx"]⟩, output := some shared, success := true }] := by decide +kernel
  have hread : u.tree.read shared = .ok (Text.bytesOf "//") := eq_ok_of_toOption (by rw [hu]; decide +kernel)
  refine ⟨report, u, hrun, ?_, ?_, hread, ?_⟩
  · rw [houtcomes, List.mem_mergeSort, hall]
    exact List.mem_cons_self
  · rw [houtcomes, List.mem_mergeSort, hall]
    simp
  · rintro ⟨code, session, outcome, hcode, halike, hconverted, hheld⟩
    have hempty : readText w.tree ⟨"", ["a.js"]⟩ = .ok "" := eq_ok_of_toOption (by decide +kernel)
    obtain rfl : code = "" := Except.ok.inj (hcode.symm.trans hempty)
    have hforward : ((w.session.forward parse "").1.toOption.map Outcome.code) = some "" := by decide +kernel
    rw [if_pos rfl, halike.forward_eq nofun] at hconverted
    have hcodeEq : outcome.code = "" := by simpa [hconverted, Except.toOption] using hforward
    rw [held_of_read hread, hcodeEq] at hheld
    exact absurd (Except.ok.inj hheld) (by decide)

end Workshop
end Argot
