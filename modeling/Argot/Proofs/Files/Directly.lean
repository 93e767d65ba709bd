import Argot.Proofs.Files.Found
/-!
# Directly — a file that is found through its directory, and by its own path

Whether a file in a directory is left out is decided by its way from the directory; whether a file that is named itself is
left out, by its whole path.  So a file that was found below a target is found by its own path as well exactly if no
pattern is a component of the target and none fits the path as a whole or an end of it (`found_directly_iff`).  Patterns
for names, as those are that files are left out by unless something else is asked for, leave only the components.
-/
namespace Argot

open Glob

/-! ## Names at the end of paths -/

namespace Path

theorem exists_front_intercalate (last : List Char) : ∀ pieces : List (List Char),
    ∃ front, ['/'].intercalate (pieces ++ [last]) = front ++ last ∧ IsFront front
  | [] => ⟨[], List.intercalate_singleton, .inl rfl⟩
  | [piece] => by
    refine ⟨piece ++ ['/'], ?_, .inr ⟨piece, rfl⟩⟩
    rw [List.singleton_append, List.intercalate_cons_cons, List.intercalate_singleton, List.append_assoc]
  | piece :: next :: pieces => by
    obtain ⟨front, hfront, hshape⟩ := exists_front_intercalate last (next :: pieces)
    refine ⟨piece ++ ['/'] ++ front, ?_, .inr ?_⟩
    · rw [List.cons_append, List.cons_append, List.intercalate_cons_cons, ← List.cons_append, hfront]
      simp
    · rcases hshape with rfl | ⟨above, rfl⟩
      · exact ⟨piece, List.append_nil _⟩
      · exact ⟨piece ++ ['/'] ++ above, by simp⟩

/-- The text of a path ends with its name, behind a slash if anything is in front. -/
theorem exists_front {p : Path} (hparts : p.parts ≠ []) (hroot : IsFront p.root.toList) :
    ∃ front, p.toString.toList = front ++ p.name.toList ∧ IsFront front := by
  have hshown : p.toString = p.root ++ "/".intercalate p.parts := by
    unfold Path.toString
    rw [if_neg]
    simp [hparts]
  obtain ⟨front, hfront, hshape⟩ := exists_front_intercalate p.name.toList (p.parent.parts.map String.toList)
  refine ⟨p.root.toList ++ front, ?_, ?_⟩
  · have hsplit := congrArg (List.map String.toList) (parent_append_name hparts)
    rw [List.map_append, List.map_singleton] at hsplit
    rw [hshown, String.toList_append, String.toList_intercalate, hsplit, List.append_assoc]
    exact congrArg _ hfront
  · rcases hshape with rfl | ⟨above, rfl⟩
    · rwa [List.append_nil]
    · exact .inr ⟨p.root.toList ++ above, (List.append_assoc _ _ _).symm⟩

theorem isFront_rootOf (cs : List Char) : IsFront (rootOf cs).toList := by
  unfold rootOf
  split
  · exact .inl rfl
  · exact .inr ⟨['/'], rfl⟩
  · exact .inr ⟨[], rfl⟩

theorem name_below {p : Path} {way : List String} (h : way ≠ []) : (p.below way).name = way.getLastD "" := by
  unfold name below
  dsimp only
  rw [List.getLastD_eq_getLast?, List.getLastD_eq_getLast?, List.getLast?_append_of_ne_nil _ h]

theorem components_below (p : Path) (way : List String) : (p.below way).components = p.components ++ way := by
  unfold components below
  dsimp only
  split <;> rfl

end Path

/-! ## Ways have no slashes in them -/

namespace FileTree

variable {t : FileTree}

theorem exists_of_mem_flatten {α ε : Type} {f : α → Except ε (List (List String))} {l : List α}
    {ways : List (List String)} (h : (do return (← l.mapM f).flatten) = Except.ok ways) {way : List String}
    (hway : way ∈ ways) : ∃ x ∈ l, ∃ found, f x = .ok found ∧ way ∈ found := by
  cases hlists : l.mapM f with
  | error e =>
    rw [hlists] at h
    cases h
  | ok lists =>
    rw [hlists] at h
    obtain rfl := Except.ok.inj h
    obtain ⟨found, hfound, hmem⟩ := List.mem_flatten.1 hway
    obtain ⟨x, hx, heq⟩ := mem_of_mapM_ok hlists hfound
    exact ⟨x, hx, found, heq, hmem⟩

theorem slash_notMem_of_mem_select (ht : t.Sound) {target : Path} : ∀ {components : List String} {place : Place}
    {way : List String} {ways : List (List String)}, (∀ c ∈ components, '/' ∉ c.toList) → (∀ c ∈ way, '/' ∉ c.toList) →
    t.select target place way components = .ok ways → ∀ found ∈ ways, ∀ c ∈ found, '/' ∉ c.toList
  | [], _, way, ways, _, hway, h => by
    rw [select] at h
    obtain rfl := Except.ok.inj h
    simpa using hway
  | component :: rest, place, way, ways, hcomponents, hway, h => by
    have hrest : ∀ c ∈ rest, '/' ∉ c.toList := fun c hc => hcomponents c (List.mem_cons_of_mem _ hc)
    have hlonger : ∀ {more : List String}, (∀ c ∈ more, '/' ∉ c.toList) → ∀ c ∈ way ++ more, '/' ∉ c.toList :=
      fun hmore c hc => (List.mem_append.1 hc).elim (hway c) (hmore c)
    have hplain : ∀ place ∈ t.entries.keys, ∀ c ∈ place, '/' ∉ c.toList := fun p hp c hc => (ht.plain p hp c hc).1.2.2
    intro found hfound
    rw [select] at h
    split at h
    · obtain rfl := Except.ok.inj h
      rw [List.mem_singleton.1 hfound]
      exact hway
    split at h
    · obtain ⟨below, hbelow, later, hlater, hmem⟩ := exists_of_mem_flatten h hfound
      refine slash_notMem_of_mem_select ht hrest (hlonger ?_) hlater found hmem
      obtain ⟨⟨p, e⟩, hp, heq⟩ := List.mem_filterMap.1 hbelow
      dsimp only at heq
      split at heq
      · obtain rfl := Option.some.inj heq
        exact fun c hc => hplain p (List.mem_map.2 ⟨_, hp, rfl⟩) c (List.mem_of_mem_drop hc)
      · cases heq
    split at h
    · rename_i hup
      refine slash_notMem_of_mem_select ht hrest (hlonger ?_) h found hfound
      rw [hup]
      simp
    split at h
    · obtain ⟨x, hx, later, hlater, hmem⟩ := exists_of_mem_flatten h hfound
      refine slash_notMem_of_mem_select ht hrest (hlonger ?_) hlater found hmem
      have hkey := mem_keys_of_mem_children (List.mem_filter.1 hx).1
      simpa using hplain _ hkey x.1 (List.mem_append_right _ List.mem_cons_self)
    · cases hlook : t.look { target with parts := target.parts ++ way ++ [component] } with
      | error e =>
        rw [hlook] at h
        cases h
      | ok entry =>
        rw [hlook] at h
        dsimp only [bind, Except.bind] at h
        split at h
        · split at h
          · refine slash_notMem_of_mem_select ht hrest (hlonger ?_) h found hfound
            simpa using hcomponents component List.mem_cons_self
          · obtain rfl := Except.ok.inj h
            exact (List.not_mem_nil hfound).elim
        · obtain rfl := Except.ok.inj h
          exact (List.not_mem_nil hfound).elim

theorem slash_notMem_of_patternComponents {pattern : String} {components : List String}
    (h : patternComponents pattern = .ok components) : ∀ c ∈ components, '/' ∉ c.toList := by
  unfold patternComponents at h
  dsimp only at h
  split at h
  · cases h
  split at h
  · cases h
  obtain rfl := Except.ok.inj h
  intro c hc
  rcases List.mem_append.1 hc with hc | hc
  · exact (Path.proper_ofString pattern c hc).2.2
  · split at hc
    · rw [List.mem_singleton.1 hc]
      exact List.not_mem_nil
    · cases hc

theorem slash_notMem_of_searchComponents {recursive : Bool} {pattern : String} {components : List String}
    (h : searchComponents recursive pattern = .ok components) : ∀ c ∈ components, '/' ∉ c.toList := by
  unfold searchComponents at h
  split at h
  · cases h
  cases hparts : patternComponents pattern with
  | error e =>
    rw [hparts] at h
    cases h
  | ok parts =>
    rw [hparts] at h
    have hslash := slash_notMem_of_patternComponents hparts
    dsimp only [bind, Except.bind] at h
    split at h
    · obtain rfl := Except.ok.inj h
      exact List.forall_mem_cons.2 ⟨by decide, hslash⟩
    · cases h
    · cases h
    · obtain rfl := Except.ok.inj h
      exact hslash

theorem slash_notMem_of_mem_waysTo (ht : t.Sound) {target : Path} {place : Place} {recursive : Bool} {pattern : String}
    {ways : List (List String)} (h : t.waysTo target place recursive pattern = .ok ways) :
    ∀ way ∈ ways, ∀ c ∈ way, '/' ∉ c.toList := by
  unfold waysTo at h
  cases hcomponents : searchComponents recursive pattern with
  | error e =>
    rw [hcomponents] at h
    cases h
  | ok components =>
    rw [hcomponents] at h
    change (t.select target place [] components).mapError _ = _ at h
    cases hselect : t.select target place [] components with
    | error e =>
      rw [hselect] at h
      cases h
    | ok found =>
      rw [hselect] at h
      obtain rfl := Except.ok.inj h
      exact slash_notMem_of_mem_select ht (slash_notMem_of_searchComponents hcomponents) (by simp) hselect

end FileTree

/-! ## The same file under two names -/

theorem isExcluded_eq_false_iff {patterns : List String} {p : Path} : isExcluded patterns p = false ↔
    ∀ pattern ∈ patterns, isExcludedBy p pattern = false := by
  unfold isExcluded
  rw [List.any_eq_false]
  simp only [Bool.not_eq_true]

theorem isExcludedBy_eq_false_iff {pattern : String} {p : Path} : isExcludedBy p pattern = false ↔
    matchesText pattern p.name = false ∧ pattern ∉ p.components ∧ matchesText pattern p.toString = false ∧
      matchesText ("*/" ++ pattern) p.toString = false := by
  unfold isExcludedBy
  simp [Bool.or_eq_false_iff, and_assoc]

/-- What of its location a pattern leaves out a file for: a component above, or its whole path or an end of that. -/
def LeftOutAt (target f : Path) (pattern : String) : Prop :=
  pattern ∈ target.components ∨ matchesText pattern f.toString = true ∨
    matchesText ("*/" ++ pattern) f.toString = true

/-- A file that was found, seen from where it was searched for: it is what was named, or it lies below in a way of
components that no pattern excludes. -/
structure IsFound (t : FileTree) (exclude : List String) (target f : Path) : Prop where
  there : t.isFile f = .ok true
  included : (f = target ∧ isExcluded exclude f = false) ∨
    ∃ way, way ≠ [] ∧ f = target.below way ∧ isExcluded exclude ⟨"", way⟩ = false ∧
      (t.Sound → '/' ∉ f.name.toList)

theorem isFound_of_mem {t : FileTree} {recursive : Bool} {exclude patterns : List String} {target : Path}
    {files : List Path} (h : findFiles t recursive exclude target patterns = .ok files) {f : Path} (hf : f ∈ files) :
    IsFound t exclude target f := by
  obtain ⟨hfile, rfl⟩ | ⟨hdirectory, rfl | ⟨place, found, hbelow, rfl⟩⟩ := findFiles_cases h
  · split at hf
    · cases hf
    · rename_i hincluded
      obtain rfl := List.mem_singleton.1 hf
      exact ⟨hfile, .inl ⟨rfl, by simpa using hincluded⟩⟩
  · cases hf
  · obtain ⟨hthere, ⟨from', way, hway, pattern, -, ways, hways, hmem⟩, way', hway', hincluded⟩ :=
      (filesBelow_eq_ok hbelow).2 f (List.mem_mergeSort.1 hf)
    obtain rfl := Path.below_inj.1 (hway.symm.trans hway')
    have hne : way ≠ [] := by
      rintro rfl
      rw [hway, Path.below, List.append_nil, hdirectory] at hthere
      cases hthere
    refine ⟨hthere, .inr ⟨way, hne, hway, hincluded, fun ht => ?_⟩⟩
    rw [hway, Path.name_below hne, List.getLastD_eq_getLast?, List.getLast?_eq_some_getLast hne]
    exact FileTree.slash_notMem_of_mem_waysTo ht hways way hmem _ (List.getLast_mem hne)

section
variable {t : FileTree} {exclude : List String} {target f : Path}

/-- **A file that was found is left out under its own path for its location alone.** -/
theorem IsFound.isExcluded_eq_false_iff (h : IsFound t exclude target f) :
    isExcluded exclude f = false ↔ ∀ pattern ∈ exclude, ¬LeftOutAt target f pattern := by
  unfold LeftOutAt
  rw [Argot.isExcluded_eq_false_iff]
  refine forall₂_congr fun pattern hpattern => ?_
  rw [isExcludedBy_eq_false_iff, not_or, not_or, Bool.not_eq_true, Bool.not_eq_true]
  obtain ⟨rfl, hincluded⟩ | ⟨way, hway, rfl, hincluded, -⟩ := h.included
  · have hall := isExcludedBy_eq_false_iff.1 (Argot.isExcluded_eq_false_iff.1 hincluded pattern hpattern)
    exact ⟨fun h => h.2, fun h => ⟨hall.1, h⟩⟩
  · obtain ⟨hname, hcomponents, -⟩ :=
      isExcludedBy_eq_false_iff.1 (Argot.isExcluded_eq_false_iff.1 hincluded pattern hpattern)
    rw [Path.name_below hway, Path.components_below, List.mem_append, not_or]
    exact ⟨fun h => ⟨h.2.1.1, h.2.2⟩, fun h => ⟨hname, ⟨h.1, hcomponents⟩, h.2⟩⟩

/-- A pattern for names leaves out a file that was found only for a component above it. -/
theorem IsFound.leftOutAt_iff (h : IsFound t exclude target f) (ht : t.Sound) (hroot : IsFront target.root.toList)
    {pattern : String} (hpattern : pattern ∈ exclude) (hnames : IsForNames pattern) :
    LeftOutAt target f pattern ↔ pattern ∈ target.components := by
  refine ⟨fun hout => hout.resolve_right fun hpath => ?_, .inl⟩
  obtain ⟨rfl, hincluded⟩ | ⟨way, hway, rfl, hincluded, hslash⟩ := h.included
  · have hall := isExcludedBy_eq_false_iff.1 (Argot.isExcluded_eq_false_iff.1 hincluded pattern hpattern)
    rcases hpath with hpath | hpath
    · rw [hall.2.2.1] at hpath
      cases hpath
    · rw [hall.2.2.2] at hpath
      cases hpath
  · have hname := (isExcludedBy_eq_false_iff.1 (Argot.isExcluded_eq_false_iff.1 hincluded pattern hpattern)).1
    obtain ⟨front, hfront, hshape⟩ := Path.exists_front (p := target.below way) (by simp [Path.below, hway]) hroot
    have hfits := fits_name_of_fits_path hnames hfront hshape (hslash ht) hpath
    rw [Path.name_below hway] at hfits
    change matchesText pattern (way.getLastD "") = false at hname
    rw [hname] at hfits
    cases hfits

end

/-- **A file that is found through its directory is found directly unless its location leaves it out.**  Searched for by its
own path, it is found exactly if no pattern is a component of the target or fits the path as a whole or an end of it;
otherwise nothing is found.  Where patterns are for names, only the components of the target count; from the directory
one is in, nothing does. -/
theorem found_directly_iff {t : FileTree} {recursive : Bool} {exclude patterns : List String} {target : String}
    {files : List Path} (h : findFiles t recursive exclude (.ofString target) patterns = .ok files) {f : Path}
    (hf : f ∈ files) (others : List String) :
    (findFiles t recursive exclude f others = .ok [f] ↔ ∀ p ∈ exclude, ¬LeftOutAt (.ofString target) f p) ∧
      (findFiles t recursive exclude f others = .ok [f] ∨ findFiles t recursive exclude f others = .ok []) ∧
      (t.Sound → (∀ p ∈ exclude, IsForNames p) → (findFiles t recursive exclude f others = .ok [f] ↔
        ∀ p ∈ exclude, p ∉ (Path.ofString target).components)) ∧
      (Path.ofString target = ⟨"", []⟩ → findFiles t recursive exclude f others = .ok [f]) := by
  have hfound := isFound_of_mem h hf
  have hdirect : findFiles t recursive exclude f others = .ok (if isExcluded exclude f then [] else [f]) :=
    findFiles_of_file hfound.there
  have hiff : findFiles t recursive exclude f others = .ok [f] ↔ isExcluded exclude f = false := by
    rw [hdirect]
    cases isExcluded exclude f <;> simp
  refine ⟨hiff.trans hfound.isExcluded_eq_false_iff, ?_, fun ht hnames => ?_, fun hhere => hiff.2 ?_⟩
  · rw [hdirect]
    cases isExcluded exclude f <;> simp
  · rw [hiff, hfound.isExcluded_eq_false_iff]
    exact forall₂_congr fun p hp => not_congr (hfound.leftOutAt_iff ht (Path.isFront_rootOf _) hp (hnames p hp))
  · obtain ⟨-, hincluded⟩ | ⟨way, -, rfl, hincluded, -⟩ := hfound.included
    · exact hincluded
    · rw [hhere]
      exact hincluded

/-- What files are left out by unless something else is asked for are patterns for names. -/
theorem isForNames_of_mem_exclude : ∀ p ∈ ({} : BatchSettings).exclude, IsForNames p := by decide

/-- A directory to work in with a directory in it, in which there is a file. -/
def directoryWithFile (directory name : String) : FileTree :=
  ((FileTree.bare ["work"]).put ["work", directory] .directory).put ["work", directory, name] (.file [] { stamp := .given 1 })

/-- A file in a directory that is not left out is found both ways. -/
theorem found_directly_in_source :
    let t := directoryWithFile "src" "a.js"
    let settings : BatchSettings := {}
    findFiles t true settings.exclude (.ofString "src") settings.patterns = .ok [⟨"", ["src", "a.js"]⟩] ∧
      t.Sound ∧ (∀ p ∈ settings.exclude, IsForNames p) ∧ (∀ p ∈ settings.exclude, p ∉ (Path.ofString "src").components) ∧
      findFiles t true settings.exclude ⟨"", ["src", "a.js"]⟩ settings.patterns = .ok [⟨"", ["src", "a.js"]⟩] := by
  intro t settings
  have hfind : findFiles t true settings.exclude (.ofString "src") settings.patterns = .ok [⟨"", ["src", "a.js"]⟩] :=
    findFiles_of_ordered ["work", "src"] (by decide +kernel) (by decide +kernel) (by decide +kernel) (by decide +kernel)
      (by decide)
  have hsound : t.Sound := ⟨⟨by decide, by decide⟩, by decide⟩
  have hlocation : ∀ p ∈ settings.exclude, p ∉ (Path.ofString "src").components := by decide +kernel
  have hnames := isForNames_of_mem_exclude
  obtain ⟨-, -, hiff, -⟩ := found_directly_iff hfind List.mem_cons_self settings.patterns
  exact ⟨hfind, hsound, hnames, hlocation, (hiff hsound hnames).2 hlocation⟩

/-- A file that is found through a directory whose own name is left out is not found directly. -/
theorem not_found_directly_in_output :
    let t := directoryWithFile "dist" "a.js"
    let settings : BatchSettings := {}
    findFiles t true settings.exclude (.ofString "dist") settings.patterns = .ok [⟨"", ["dist", "a.js"]⟩] ∧
      findFiles t true settings.exclude ⟨"", ["dist", "a.js"]⟩ settings.patterns = .ok [] := by
  intro t settings
  have hout : isExcluded settings.exclude ⟨"", ["dist", "a.js"]⟩ = true := by decide +kernel
  refine ⟨findFiles_of_ordered ["work", "dist"] (by decide +kernel) (by decide +kernel) (by decide +kernel)
    (by decide +kernel) (by decide), ?_⟩
  rw [findFiles_of_file (by decide +kernel), hout]
  rfl

end Argot
