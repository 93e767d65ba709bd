import Argot.Proofs.Files.Found
import Argot.Proofs.Files.OneFile
/-!
# Outputs — where the outputs of a batch go

An output has the stem of its input and another extension, in a home that follows from the way of the input
(`outputPath_eq_ok`).  The homes of the files of a batch all lie below one path (`homeOf_of_foundBelow`), and no output
is a file that the same direction converts (`output_ne_input`).
-/
namespace Argot

open Argot.Path FileTree

theorem isExtension_formExtension : IsExtension formExtension :=
  ⟨"gachi".toList, by decide, by decide, by decide, by decide⟩

theorem extension_cases (text : String) : Sniff.extension text = ".tsx" ∨ Sniff.extension text = ".jsx" ∨
    Sniff.extension text = ".ts" ∨ Sniff.extension text = ".js" := by
  unfold Sniff.extension
  cases Sniff.containsMarkup text <;> cases Sniff.hasTypeSyntax text <;> simp

theorem isExtension_sniffed (text : String) : IsExtension (Sniff.extension text) := by
  rcases extension_cases text with h | h | h | h <;> rw [h]
  · exact ⟨"tsx".toList, by decide, by decide, by decide, by decide⟩
  · exact ⟨"jsx".toList, by decide, by decide, by decide, by decide⟩
  · exact ⟨"ts".toList, by decide, by decide, by decide, by decide⟩
  · exact ⟨"js".toList, by decide, by decide, by decide, by decide⟩

namespace Workshop

variable (w : Workshop)

/-- The way from the input root to the directory of an input, if it lies below. -/
def wayOf (input : Path) : List String :=
  ((w.settings.inputRoot.bind fun root => (root.resolve w.tree.base).toOption).bind fun root =>
    (input.resolve w.tree.base).toOption.bind fun place => wayBelow? root place.dropLast).getD []

/-- The directory that the output of an input goes to. -/
def homeOf (input : Path) : Path :=
  match w.settings.outputDirectory with
  | none => input.parent
  | some directory => directory.below (w.wayOf input)

variable {w} {input output : Path} {extension : String}

/-- An output has the stem of its input. -/
theorem outputPath_eq_ok (hp : input.Proper) (hparts : input.parts ≠ []) (hext : IsExtension extension)
    (h : w.outputPath input extension = .ok output) : output = (w.homeOf input).below [input.stem ++ extension] := by
  have hname : IsComponent input.name := hp _ (by rw [parent_append_name hparts]; simp)
  have hplain : IsPlain (input.stem ++ extension) := isPlain_stem_append hname hext
  unfold outputPath at h
  unfold homeOf
  cases hdirectory : w.settings.outputDirectory with
  | none =>
    rw [hdirectory] at h
    dsimp only at h
    rw [withName_of_isComponent hparts hplain.1] at h
    exact (Except.ok.inj h).symm
  | some directory =>
    rw [hdirectory] at h
    dsimp only at h
    unfold wayOf
    cases hroot : w.settings.inputRoot with
    | none =>
      rw [hroot] at h
      dsimp only [Option.mapM_none, bind, Except.bind, pure, Except.pure, Option.bind] at h
      rw [child_of_isComponent _ hplain.1] at h
      exact (Except.ok.inj h).symm
    | some root =>
      rw [hroot] at h
      cases hresolve : root.resolve w.tree.base with
      | error e => simp [hresolve, Option.mapM_some, bind, Except.bind] at h
      | ok place =>
        simp only [hresolve, Option.mapM_some, Functor.map, Except.map, bind, Except.bind, pure, Except.pure,
          Option.bind_some, Except.toOption] at h ⊢
        rw [child_of_isComponent _ hplain.1] at h
        exact (Except.ok.inj h).symm

theorem plain_wayOf (hbase : ∀ c ∈ w.tree.base, IsPlain c) (hp : input.Proper) : ∀ c ∈ w.wayOf input, IsPlain c := by
  intro c hc
  unfold wayOf at hc
  cases hroot : w.settings.inputRoot.bind fun root => (root.resolve w.tree.base).toOption with
  | none => simp [hroot] at hc
  | some root =>
    cases hplace : input.resolve w.tree.base with
    | error e => simp [hplace, Except.toOption] at hc
    | ok place =>
      rw [hroot, hplace] at hc
      dsimp only [Except.toOption, Option.bind_some, wayBelow?] at hc
      by_cases hbelow : root.isPrefixOf place.dropLast = true
      · rw [if_pos hbelow] at hc
        have hmem : c ∈ place := List.dropLast_subset _ (List.drop_subset _ _ hc)
        rw [resolve_eq_ok hp hplace] at hmem
        exact plain_placeOf hbase hp c hmem
      · rw [if_neg hbelow] at hc
        exact (List.not_mem_nil hc).elim

theorem isExtension_extensionFor (toForms : Bool) (outcome : Outcome) : IsExtension (extensionFor toForms outcome) := by
  unfold extensionFor
  cases toForms with
  | true => exact isExtension_formExtension
  | false => exact isExtension_sniffed outcome.code

/-- A workshop whose tree is rooted and whose paths come from texts. -/
structure WellPlaced (w : Workshop) : Prop where
  rooted : w.tree.Rooted
  base : ∀ c ∈ w.tree.base, IsPlain c
  directory : ∀ directory, w.settings.outputDirectory = some directory → directory.Proper

theorem proper_homeOf (hw : w.WellPlaced) (hp : input.Proper) : (w.homeOf input).Proper := by
  unfold homeOf
  cases hdirectory : w.settings.outputDirectory with
  | none => exact hp.parent
  | some directory =>
    intro c hc
    rcases List.mem_append.1 hc with hc | hc
    · exact hw.directory directory hdirectory c hc
    · exact (plain_wayOf hw.base hp c hc).1

variable {parse : Parser Id} {toForms : Bool} {outcome : Outcome}

/-- A file that was read is no top of the tree. -/
theorem parts_ne_nil_of_plan (hw : w.WellPlaced) (hp : input.Proper)
    (h : w.plan parse toForms input = .ok (output, outcome)) : input.parts ≠ [] := by
  intro hparts
  obtain ⟨code, hread, -⟩ := readText_of_plan h
  obtain ⟨place, bytes, status, hlocate, hentry⟩ := locate_of_readText hread
  obtain rfl : place = w.tree.startOf input := by
    rw [place_of_locate hp hlocate, FileTree.placeOf, hparts]
    rfl
  rw [hw.rooted.start input] at hentry
  cases hentry

theorem output_of_plan (hw : w.WellPlaced) (hp : input.Proper)
    (h : w.plan parse toForms input = .ok (output, outcome)) :
    output = (w.homeOf input).below [input.stem ++ extensionFor toForms outcome] ∧
      IsPlain (input.stem ++ extensionFor toForms outcome) := by
  have hparts := parts_ne_nil_of_plan hw hp h
  obtain ⟨-, -, -, houtput⟩ := readText_of_plan h
  have hext := isExtension_extensionFor toForms outcome
  exact ⟨outputPath_eq_ok hp hparts hext houtput,
    isPlain_stem_append (hp _ (by rw [parent_append_name hparts]; simp)) hext⟩

theorem proper_output (hw : w.WellPlaced) (hp : input.Proper)
    (h : w.plan parse toForms input = .ok (output, outcome)) : output.Proper ∧ output.parts ≠ [] := by
  obtain ⟨rfl, hplain⟩ := output_of_plan hw hp h
  refine ⟨fun c hc => ?_, by simp [Path.below]⟩
  rcases List.mem_append.1 hc with hc | hc
  · exact proper_homeOf hw hp c hc
  · exact List.mem_singleton.1 hc ▸ hplain.1

/-- The names of outputs end like those that the other direction converts. -/
theorem ends_extensionFor (toForms : Bool) (outcome : Outcome) :
    ∃ c ∈ convertedEnds (!toForms), (extensionFor toForms outcome).toList.getLast? = some c := by
  unfold extensionFor
  cases toForms with
  | true =>
    rw [if_pos rfl]
    exact ⟨'i', by decide, by decide⟩
  | false =>
    rw [if_neg Bool.false_ne_true]
    rcases extension_cases outcome.code with h | h | h | h <;> rw [h]
    · exact ⟨'x', by decide, by decide⟩
    · exact ⟨'x', by decide, by decide⟩
    · exact ⟨'s', by decide, by decide⟩
    · exact ⟨'s', by decide, by decide⟩

theorem convertedEnds_disjoint : ∀ (toForms : Bool), ∀ c ∈ convertedEnds toForms, c ∉ convertedEnds (!toForms) := by
  intro toForms
  cases toForms <;> simp [convertedEnds]

end Workshop

namespace FoundBelow

open Workshop

variable {w : Workshop} {parse : Parser Id} {toForms : Bool} {target p q output : Path} {way : List String}
  {name : String} {outcome : Outcome}

theorem proper (h : FoundBelow toForms target p way name) (htarget : target.Proper) : p.Proper := by
  rw [h.path]
  intro c hc
  rcases List.mem_append.1 hc with hc | hc
  · exact htarget c hc
  · exact (h.plain c hc).1

theorem parts (h : FoundBelow toForms target p way name) : p.parts = (target.parts ++ way) ++ [name] := by
  rw [h.path, List.append_assoc]
  rfl

theorem parent (h : FoundBelow toForms target p way name) : p.parent = target.below way := by
  unfold Path.parent Path.below
  rw [h.parts, List.dropLast_concat, h.path]
  rfl

theorem name_eq (h : FoundBelow toForms target p way name) : p.name = name := by
  unfold Path.name
  rw [h.parts, List.getLastD_concat]

theorem placeOf (h : FoundBelow toForms target p way name) (t : FileTree) :
    t.placeOf p = t.placeOf target ++ way ++ [name] := by
  rw [h.path, placeOf_below t target h.plain, List.append_assoc]

/-- The homes of outputs lie below the output directory, or below the target. -/
theorem homeOf (h : FoundBelow toForms target p way name) (hw : w.WellPlaced)
    (htarget : target.Proper) : ∃ way', (∀ c ∈ way', IsPlain c) ∧
      w.homeOf p = (w.settings.outputDirectory.getD target).below way' := by
  unfold Workshop.homeOf
  cases w.settings.outputDirectory with
  | none => exact ⟨way, fun c hc => h.plain c (List.mem_append_left _ hc), h.parent⟩
  | some directory => exact ⟨_, plain_wayOf hw.base (h.proper htarget), rfl⟩

theorem plain_output {extension : String} (h : FoundBelow toForms target p way name) (hext : IsExtension extension) :
    ∀ c ∈ way ++ [(splitSuffix name).1 ++ extension], IsPlain c := by
  intro c hc
  rcases List.mem_append.1 hc with hc | hc
  · exact h.plain c (List.mem_append_left _ hc)
  · exact List.mem_singleton.1 hc ▸ isPlain_stem_append (h.plain name (by simp)).1 hext

theorem stem_eq (h : FoundBelow toForms target p way name) : p.stem = (splitSuffix name).1 := by
  unfold Path.stem
  rw [h.name_eq]

theorem placeOf_output (h : FoundBelow toForms target p way name) (hw : w.WellPlaced) (htarget : target.Proper)
    (hplan : w.plan parse toForms p = .ok (output, outcome)) (t : FileTree) :
    t.placeOf output = t.placeOf (w.homeOf p) ++ [(splitSuffix name).1 ++ extensionFor toForms outcome] := by
  obtain ⟨houtput, hplain⟩ := output_of_plan hw (h.proper htarget) hplan
  rw [h.stem_eq] at houtput hplain
  rw [houtput]
  exact placeOf_below t _ fun c hc => List.mem_singleton.1 hc ▸ hplain

/-- **No output of a batch is one of its inputs.** -/
theorem output_ne_input {q : Path} {way' : List String} {name' : String} (h : FoundBelow toForms target p way name)
    (h' : FoundBelow toForms target q way' name') (hw : w.WellPlaced) (htarget : target.Proper)
    (hplan : w.plan parse toForms p = .ok (output, outcome)) (t : FileTree) : t.placeOf output ≠ t.placeOf q := by
  rw [h.placeOf_output hw htarget hplan, h'.placeOf]
  intro hsame
  have hname : (splitSuffix name).1 ++ extensionFor toForms outcome = name' := by
    simpa using (List.append_inj' hsame rfl).2
  obtain ⟨c, hc, hlast⟩ := ends_extensionFor toForms outcome
  obtain ⟨c', hc', hlast'⟩ := h'.ends
  rw [← hname, String.toList_append, List.getLast?_append, hlast, Option.some_or, Option.some.injEq] at hlast'
  exact convertedEnds_disjoint toForms c' hc' (hlast' ▸ hc)

end FoundBelow
end Argot
