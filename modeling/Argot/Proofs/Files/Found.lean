import Argot.Files.Batch
import Argot.Proofs.Files.Fitting
import Argot.Proofs.Files.Trees
/-!
# Found — what a search for files finds

A search of a directory with patterns for the end of a name finds files below the directory whose names end so, each
once (`found_below`).  The names that the patterns of one direction select end otherwise than the names of its outputs.
-/
namespace Argot

namespace Glob

/-- A text that fits a pattern whose last piece is a character ends with that character. -/
theorem getLast?_of_fits {c : Char} : ∀ {pieces : List Piece} {cs : List Char}, Fits (pieces ++ [.exactly c]) cs →
    cs.getLast? = some c
  | [], _, ⟨_, _, rfl, ⟨d, rfl, hd⟩, rfl⟩ => by
    rw [beq_iff_eq.1 hd]
    rfl
  | _ :: _, _, ⟨part, rest, rfl, _, h⟩ => by
    have hrest := getLast?_of_fits h
    rw [List.getLast?_append, hrest]
    rfl

/-- A pattern for the end of a name: it is one component, and its last piece is a character. -/
structure IsEnding (pattern : String) (c : Char) : Prop where
  components : FileTree.patternComponents pattern = .ok [pattern]
  wild : isPattern pattern = true
  notBelow : pattern ≠ "**"
  last : ∃ pieces, parseFrom 0 pattern.toList = pieces ++ [.exactly c]

theorem IsEnding.getLast? {pattern name : String} {c : Char} (h : IsEnding pattern c)
    (hmatch : matchesText pattern name = true) : name.toList.getLast? = some c := by
  obtain ⟨pieces, hpieces⟩ := h.last
  unfold matchesText at hmatch
  rw [hpieces, fits_iff] at hmatch
  exact getLast?_of_fits hmatch

theorem IsEnding.ne {pattern : String} {c : Char} (h : IsEnding pattern c) : pattern ≠ "" ∧ pattern ≠ ".." := by
  constructor
  all_goals
    rintro rfl
    exact absurd h.wild (by decide)

end Glob

/-- How the names end that are converted in a direction. -/
def convertedEnds (toForms : Bool) : List Char :=
  if toForms then ['s', 'x'] else ['i']

theorem isEnding_of_mem {w : Workshop} (hw : w.settings.patterns = ({} : BatchSettings).patterns) {toForms : Bool}
    {pattern : String} (hpattern : pattern ∈ w.patternsFor toForms) :
    ∃ c ∈ convertedEnds toForms, Glob.IsEnding pattern c := by
  unfold Workshop.patternsFor at hpattern
  cases toForms with
  | true =>
    rw [if_pos rfl, hw] at hpattern
    simp only [List.mem_cons, List.not_mem_nil, or_false] at hpattern
    rcases hpattern with rfl | rfl | rfl | rfl
    · exact ⟨'s', by decide, rfl, by decide, by decide, [.star, .exactly '.', .exactly 't'], by decide⟩
    · exact ⟨'s', by decide, rfl, by decide, by decide, [.star, .exactly '.', .exactly 'j'], by decide⟩
    · exact ⟨'x', by decide, rfl, by decide, by decide, [.star, .exactly '.', .exactly 't', .exactly 's'], by decide⟩
    · exact ⟨'x', by decide, rfl, by decide, by decide, [.star, .exactly '.', .exactly 'j', .exactly 's'], by decide⟩
  | false =>
    rw [if_neg Bool.false_ne_true, List.mem_singleton] at hpattern
    subst hpattern
    exact ⟨'i', by decide, rfl, by decide, by decide,
      [.star, .exactly '.', .exactly 'g', .exactly 'a', .exactly 'c', .exactly 'h'], by decide⟩

namespace FileTree

variable {t : FileTree} {target : Path} {place : Place} {pattern : String} {c : Char}

theorem mem_keys_of_mem_children {name : String} {e : Entry} (h : (name, e) ∈ t.children place) :
    place ++ [name] ∈ t.entries.keys := by
  obtain ⟨⟨q, e'⟩, hmem, hq⟩ := List.mem_filterMap.1 h
  dsimp only at hq
  by_cases hbelow : (q.length = place.length + 1 && place.isPrefixOf q) = true
  · rw [if_pos hbelow] at hq
    rw [Bool.and_eq_true, decide_eq_true_eq, List.isPrefixOf_iff_prefix] at hbelow
    obtain ⟨hlength, rest, rfl⟩ := hbelow
    obtain ⟨last, rfl⟩ : ∃ last, rest = [last] := List.length_eq_one_iff.1 (by simpa using hlength)
    have hlast : last = name := by simpa using congrArg (Option.map Prod.fst) hq
    rw [← hlast]
    exact List.mem_map.2 ⟨_, hmem, rfl⟩
  · rw [if_neg hbelow] at hq
    cases hq

/-- What the end of a name selects in a directory. -/
theorem select_ending (h : Glob.IsEnding pattern c) (target : Path) (place : Place) (way : List String) :
    t.select target place way [pattern] =
      .ok (((t.children place).filter fun x => Glob.matchesText pattern x.1).map fun x => way ++ [x.1]) := by
  unfold select
  rw [if_neg h.ne.1, if_neg h.notBelow, if_neg h.ne.2, if_pos h.wild]
  have hone : ∀ x : String × Entry, t.select target (place ++ [x.1]) (way ++ [x.1]) [] = pure [way ++ [x.1]] :=
    fun _ => rfl
  simp only [List.isEmpty_nil, Bool.true_or, Bool.and_true, hone]
  rw [List.mapM_pure]
  dsimp only [bind, Except.bind, pure, Except.pure]
  rw [← List.flatMap_def, ← List.map_eq_flatMap]

/-- What the end of a name selects, in a directory or everywhere below. -/
theorem waysTo_ending (h : Glob.IsEnding pattern c) (recursive : Bool) {ways : List (List String)}
    (hways : t.waysTo target place recursive pattern = .ok ways) {way : List String} (hway : way ∈ ways) :
    ∃ above name, way = above ++ [name] ∧ place ++ way ∈ t.entries.keys ∧ name.toList.getLast? = some c := by
  have hlast : ∀ above, way ∈ ((t.children (place ++ above)).filter fun x => Glob.matchesText pattern x.1).map
      (fun x => above ++ [x.1]) → ∃ above name, way = above ++ [name] ∧ place ++ way ∈ t.entries.keys ∧
        name.toList.getLast? = some c := by
    intro above hmem
    obtain ⟨⟨name, e⟩, hx, rfl⟩ := List.mem_map.1 hmem
    obtain ⟨hchild, hmatch⟩ := List.mem_filter.1 hx
    refine ⟨above, name, rfl, ?_, h.getLast? hmatch⟩
    rw [← List.append_assoc]
    exact mem_keys_of_mem_children hchild
  have hnonempty : (pattern.isEmpty && !recursive) = false := by simp [h.ne.1]
  have hcomponents : searchComponents recursive pattern = .ok (if recursive then ["**", pattern] else [pattern]) := by
    unfold searchComponents
    rw [hnonempty, h.components]
    cases recursive with
    | true => rfl
    | false =>
      have hne := h.ne.1
      dsimp only [bind, Except.bind]
      split <;> simp_all
  unfold waysTo at hways
  rw [hcomponents] at hways
  cases recursive with
  | true =>
    have hselect : t.select target place [] ["**", pattern] = .ok ((t.directoriesBelow place).flatMap fun above =>
        ((t.children (place ++ above)).filter fun x => Glob.matchesText pattern x.1).map fun x => above ++ [x.1]) := by
      unfold select
      rw [if_neg (by decide), if_pos rfl]
      simp only [select_ending h, List.nil_append]
      change (do return (← (t.directoriesBelow place).mapM fun above => pure _).flatten) = _
      rw [List.mapM_pure, List.flatMap_def]
      rfl
    change (t.select target place [] ["**", pattern]).mapError _ = _ at hways
    rw [hselect] at hways
    cases hways
    obtain ⟨above, -, hmem⟩ := List.mem_flatMap.1 hway
    exact hlast above hmem
  | false =>
    change (t.select target place [] [pattern]).mapError _ = _ at hways
    rw [select_ending h] at hways
    cases hways
    exact hlast [] (by simpa using hway)

end FileTree

/-! ## Searches -/

theorem mem_of_mapM_ok {α β ε : Type} {f : α → Except ε β} {y : β} : ∀ {l : List α} {ys : List β},
    l.mapM f = .ok ys → y ∈ ys → ∃ x ∈ l, f x = .ok y
  | [], ys, h, hy => by
    cases h
    exact (List.not_mem_nil hy).elim
  | x :: l, ys, h, hy => by
    rw [List.mapM_cons] at h
    cases hx : f x with
    | error e => simp [hx, bind, Except.bind] at h
    | ok y' =>
      cases hl : l.mapM f with
      | error e => simp [hx, hl, bind, Except.bind] at h
      | ok ys' =>
        rw [hx, hl] at h
        cases h
        rcases List.mem_cons.1 hy with rfl | hy
        · exact ⟨x, List.mem_cons_self, hx⟩
        · obtain ⟨x', hx', hfx'⟩ := mem_of_mapM_ok hl hy
          exact ⟨x', List.mem_cons_of_mem _ hx', hfx'⟩

theorem mem_of_filterM_ok {α ε : Type} {f : α → Except ε Bool} {l kept : List α} {x : α} (h : l.filterM f = .ok kept)
    (hx : x ∈ kept) : x ∈ l ∧ f x = .ok true := by
  have hmore : ∀ (l acc kept : List α), List.filterAuxM f l acc = .ok kept → x ∈ kept →
      x ∈ acc ∨ x ∈ l ∧ f x = .ok true := by
    intro l
    induction l with
    | nil =>
      intro acc kept h hx
      cases h
      exact .inl hx
    | cons y l ih =>
      intro acc kept h hx
      rw [List.filterAuxM] at h
      cases hy : f y with
      | error e => simp [hy, bind, Except.bind] at h
      | ok b =>
        rw [hy] at h
        rcases ih _ _ h hx with hacc | ⟨hl, hfx⟩
        · cases b with
          | false => exact .inl hacc
          | true =>
            rcases List.mem_cons.1 hacc with rfl | hacc
            · exact .inr ⟨List.mem_cons_self, hy⟩
            · exact .inl hacc
        · exact .inr ⟨List.mem_cons_of_mem _ hl, hfx⟩
  unfold List.filterM at h
  cases haux : List.filterAuxM f l [] with
  | error e => simp [haux, bind, Except.bind] at h
  | ok kept' =>
    rw [haux] at h
    cases h
    exact (hmore l [] kept' haux (List.mem_reverse.1 hx)).resolve_left List.not_mem_nil

theorem mem_distinctPaths {p : Path} : ∀ {l : List Path}, p ∈ distinctPaths l ↔ p ∈ l
  | [] => Iff.rfl
  | q :: rest => by
    rw [distinctPaths, List.mem_cons, List.mem_filter, mem_distinctPaths, List.mem_cons]
    by_cases hpq : p = q
    · simp [hpq]
    · simp [hpq]

theorem nodup_distinctPaths : ∀ l : List Path, (distinctPaths l).Nodup
  | [] => List.nodup_nil
  | q :: rest => by
    rw [distinctPaths, List.nodup_cons]
    exact ⟨fun h => by simpa using (List.mem_filter.1 h).2, (nodup_distinctPaths rest).filter _⟩

theorem eq_ok_of_toOption {ε α : Type} {x : Except ε α} {a : α} (h : x.toOption = some a) : x = .ok a := by
  cases x with
  | error e => simp [Except.toOption] at h
  | ok b => simpa [Except.toOption] using h

/-- The files that patterns select below a directory, each once. -/
def filesBelow (t : FileTree) (recursive : Bool) (exclude : List String) (target : Path) (place : Place)
    (patterns : List String) : Except FindError (List Path) := do
  let ways ← patterns.mapM (t.waysTo target place recursive)
  let found ← ways.flatten.filterM fun way => (t.isFile (target.below way)).mapError .system
  return distinctPaths ((found.filter fun way => !isExcluded exclude ⟨"", way⟩).map target.below)

/-- A search of a directory puts the files below it in order. -/
theorem findFiles_of_directory {t : FileTree} {recursive : Bool} {exclude patterns : List String} {target : Path}
    {place : Place} (hfile : t.isFile target = .ok false) (hlocate : t.locate target = .ok place)
    (hdir : t.entry? place = some .directory) : findFiles t recursive exclude target patterns =
      (filesBelow t recursive exclude target place patterns).map (·.mergeSort Path.before) := by
  have hthere : (!t.isDirectoryAt place) = false := by simp [FileTree.isDirectoryAt, hdir]
  unfold findFiles filesBelow
  rw [hfile, hlocate]
  dsimp only [Except.mapError, bind, Except.bind]
  rw [if_neg Bool.false_ne_true, hthere, if_neg Bool.false_ne_true]
  cases patterns.mapM (t.waysTo target place recursive) with
  | error e => rfl
  | ok ways =>
    dsimp only
    unfold Path.below
    generalize @List.filterM (Except FindError) _ _ _ ways.flatten = found
    cases found <;> rfl

theorem findFiles_of_ordered {t : FileTree} {recursive : Bool} {exclude patterns : List String} {target : Path}
    {files : List Path} (place : Place) (hfile : t.isFile target = .ok false) (hlocate : t.locate target = .ok place)
    (hdir : t.entry? place = some .directory)
    (hbelow : (filesBelow t recursive exclude target place patterns).toOption = some files)
    (hordered : files.Pairwise fun p q => Path.before p q = true) :
    findFiles t recursive exclude target patterns = .ok files := by
  rw [findFiles_of_directory hfile hlocate hdir, eq_ok_of_toOption hbelow]
  exact congrArg Except.ok (List.mergeSort_of_pairwise hordered)

/-- A path to which a pattern selects a way below a target. -/
def SelectedBelow (t : FileTree) (recursive : Bool) (patterns : List String) (target p : Path) : Prop :=
  ∃ place way, p = target.below way ∧ ∃ pattern ∈ patterns, ∃ ways,
    t.waysTo target place recursive pattern = .ok ways ∧ way ∈ ways

theorem findFiles_of_file {t : FileTree} {recursive : Bool} {exclude patterns : List String} {target : Path}
    (hfile : t.isFile target = .ok true) : findFiles t recursive exclude target patterns =
      .ok (if isExcluded exclude target then [] else [target]) := by
  unfold findFiles
  rw [hfile]
  rfl

/-- What a search gives: the target if that is a file, nothing, or what `filesBelow` selects, in order. -/
theorem findFiles_cases {t : FileTree} {recursive : Bool} {exclude patterns : List String} {target : Path}
    {files : List Path} (h : findFiles t recursive exclude target patterns = .ok files) :
    (t.isFile target = .ok true ∧ files = if isExcluded exclude target then [] else [target]) ∨
      t.isFile target = .ok false ∧ (files = [] ∨ ∃ place found,
        filesBelow t recursive exclude target place patterns = .ok found ∧ files = found.mergeSort Path.before) := by
  cases hfile : t.isFile target with
  | error e => simp [findFiles, hfile, Except.mapError, bind, Except.bind] at h
  | ok there =>
    cases there with
    | true =>
      rw [findFiles_of_file hfile] at h
      exact .inl ⟨rfl, (Except.ok.inj h).symm⟩
    | false =>
      refine .inr ⟨rfl, ?_⟩
      cases hlocate : t.locate target with
      | error e =>
        simp only [findFiles, hfile, hlocate, Except.mapError, bind, Except.bind, Bool.false_eq_true, if_false] at h
        exact .inl (Except.ok.inj h).symm
      | ok place =>
        by_cases hdir : t.entry? place = some .directory
        · rw [findFiles_of_directory hfile hlocate hdir] at h
          cases hbelow : filesBelow t recursive exclude target place patterns with
          | error e =>
            rw [hbelow] at h
            cases h
          | ok found =>
            rw [hbelow] at h
            exact .inr ⟨place, found, hbelow, (Except.ok.inj h).symm⟩
        · have hthere : (!t.isDirectoryAt place) = true := by simp [FileTree.isDirectoryAt, hdir]
          simp only [findFiles, hfile, hlocate, Except.mapError, bind, Except.bind, Bool.false_eq_true, if_false, hthere,
            if_true] at h
          exact .inl (Except.ok.inj h).symm

/-- What is found below a directory: files in ways that a pattern selects and that no pattern excludes, each once. -/
theorem filesBelow_eq_ok {t : FileTree} {recursive : Bool} {exclude patterns : List String} {target : Path} {place : Place}
    {found : List Path} (h : filesBelow t recursive exclude target place patterns = .ok found) :
    found.Nodup ∧ ∀ p ∈ found, t.isFile p = .ok true ∧ SelectedBelow t recursive patterns target p ∧
      ∃ way, p = target.below way ∧ isExcluded exclude ⟨"", way⟩ = false := by
  unfold filesBelow at h
  cases hways : patterns.mapM (t.waysTo target place recursive) with
  | error e => simp [hways, bind, Except.bind] at h
  | ok ways =>
    cases hfound : ways.flatten.filterM fun way => (t.isFile (target.below way)).mapError FindError.system with
    | error e => simp [hways, hfound, bind, Except.bind] at h
    | ok kept =>
      rw [hways] at h
      dsimp only [bind, Except.bind] at h
      rw [hfound] at h
      obtain rfl := Except.ok.inj h
      refine ⟨nodup_distinctPaths _, fun p hp => ?_⟩
      rw [mem_distinctPaths] at hp
      obtain ⟨way, hway, rfl⟩ := List.mem_map.1 hp
      obtain ⟨hkept, hincluded⟩ := List.mem_filter.1 hway
      obtain ⟨hwayIn, hwayFile⟩ := mem_of_filterM_ok hfound hkept
      obtain ⟨list, hlist, hmem⟩ := List.mem_flatten.1 hwayIn
      obtain ⟨pattern, hpattern, heq⟩ := mem_of_mapM_ok hways hlist
      refine ⟨?_, ⟨place, way, rfl, pattern, hpattern, list, heq, hmem⟩, way, rfl, by simpa using hincluded⟩
      cases hisFile : t.isFile (target.below way) with
      | error e => simp [hisFile, Except.mapError] at hwayFile
      | ok b => simpa [hisFile, Except.mapError] using hwayFile

/-- A search finds files, each once: the target, or files in ways that a pattern selects below it. -/
theorem findFiles_eq_ok {t : FileTree} {recursive : Bool} {exclude patterns : List String} {target : Path}
    {files : List Path} (h : findFiles t recursive exclude target patterns = .ok files) :
    files.Nodup ∧ (∀ p ∈ files, t.isFile p = .ok true) ∧
      ((∀ p ∈ files, p = target) ∨ ∀ p ∈ files, SelectedBelow t recursive patterns target p) := by
  obtain ⟨hfile, rfl⟩ | ⟨-, rfl | ⟨place, found, hbelow, rfl⟩⟩ := findFiles_cases h
  · split
    · simp
    · simpa using hfile
  · simp
  · obtain ⟨hnodup, hall⟩ := filesBelow_eq_ok hbelow
    simp only [List.mem_mergeSort]
    exact ⟨(List.mergeSort_perm _ _).nodup_iff.2 hnodup, fun p hp => (hall p hp).1, .inr fun p hp => (hall p hp).2.1⟩

/-- What a file is that a direction converts: its way leads down from the target, and its name ends as it should. -/
structure FoundBelow (toForms : Bool) (target p : Path) (way : List String) (name : String) : Prop where
  path : p = target.below (way ++ [name])
  plain : ∀ c ∈ way ++ [name], Path.IsPlain c
  ends : ∃ c ∈ convertedEnds toForms, name.toList.getLast? = some c

/-- **The files of a batch are the target alone, or lie below it**, each found once. -/
theorem found_below {w : Workshop} {toForms : Bool} {target : Path} {files : List Path} (ht : w.tree.Sound)
    (hpatterns : w.settings.patterns = ({} : BatchSettings).patterns)
    (hfind : w.find target (w.patternsFor toForms) = .ok files) :
    files.Nodup ∧ (∀ p ∈ files, w.tree.isFile p = .ok true) ∧
      ((∀ p ∈ files, p = target) ∨ ∀ p ∈ files, ∃ way name, FoundBelow toForms target p way name) := by
  obtain ⟨hnodup, hfile, htarget | hbelow⟩ := findFiles_eq_ok hfind
  · exact ⟨hnodup, hfile, .inl htarget⟩
  · refine ⟨hnodup, hfile, .inr fun p hp => ?_⟩
    obtain ⟨place, way, rfl, pattern, hpattern, ways, hways, hway⟩ := hbelow p hp
    obtain ⟨c, hc, hending⟩ := isEnding_of_mem hpatterns hpattern
    obtain ⟨above, name, rfl, hkey, hlast⟩ := FileTree.waysTo_ending hending _ hways hway
    exact ⟨above, name, rfl, fun c' hc' => ht.plain _ hkey c' (List.mem_append_right _ hc'), c, hc, hlast⟩

theorem locate_of_isFile {t : FileTree} {p : Path} (h : t.isFile p = .ok true) :
    ∃ place, t.locate p = .ok place ∧ t.IsFileAt place := by
  unfold FileTree.isFile FileTree.look at h
  cases hlocate : t.locate p with
  | error e =>
    rw [hlocate] at h
    by_cases hlong : e.fault = .nameTooLong
    · simp [hlong, Except.map] at h
    · simp [hlong, Except.map] at h
  | ok place =>
    rw [hlocate] at h
    rcases hentry : t.entry? place with _ | (_ | ⟨bytes, status⟩)
    · simp [hentry, Except.map] at h
    · simp [hentry, Except.map] at h
    · exact ⟨place, rfl, bytes, status, hentry⟩

end Argot
