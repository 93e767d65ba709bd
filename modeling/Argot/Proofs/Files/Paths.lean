import Argot.Files.Path
import Mathlib.Data.List.TakeWhile
/-!
# Paths — components, names and suffixes

The components of a path that was read are neither empty nor a single dot and hold no slash (`proper_ofString`), and a
text of that kind is a path of one component (`ofString_of_isComponent`).  A name is its stem and its suffix
(`stem_append_suffix`), and another extension behind the stem is the suffix of the new name (`splitSuffix_append`).
-/
namespace Argot
namespace Path

/-- A text that stands between the slashes of a path that was read. -/
def IsComponent (text : String) : Prop :=
  text ≠ "" ∧ text ≠ "." ∧ '/' ∉ text.toList

instance (text : String) : Decidable (IsComponent text) :=
  inferInstanceAs (Decidable (_ ∧ _ ∧ _))

/-- A component that leads to something below, and not up. -/
def IsPlain (text : String) : Prop :=
  IsComponent text ∧ text ≠ ".."

instance (text : String) : Decidable (IsPlain text) :=
  inferInstanceAs (Decidable (_ ∧ _))

/-- A path as it comes from a text. -/
def Proper (p : Path) : Prop :=
  ∀ part ∈ p.parts, IsComponent part

instance (p : Path) : Decidable p.Proper :=
  inferInstanceAs (Decidable (∀ part ∈ p.parts, IsComponent part))

/-! ## Reading -/

theorem separator_notMem_pieces {separator : Char} : ∀ {cs piece : List Char}, piece ∈ pieces separator cs →
    separator ∉ piece
  | [], piece, h => by
    rw [pieces, List.mem_singleton] at h
    simp [h]
  | c :: rest, piece, h => by
    have ih : ∀ {piece}, piece ∈ pieces separator rest → separator ∉ piece := separator_notMem_pieces
    by_cases hc : c = separator
    · rw [pieces, if_pos (by simpa using hc), List.mem_cons] at h
      rcases h with rfl | h
      · exact List.not_mem_nil
      · exact ih h
    · rw [pieces, if_neg (by simpa using hc)] at h
      have hne : separator ≠ c := Ne.symm hc
      cases hp : pieces separator rest with
      | nil =>
        rw [hp, List.mem_singleton] at h
        simp [h, hne]
      | cons first more =>
        rw [hp, List.mem_cons] at h
        rcases h with rfl | h
        · have hfirst : separator ∉ first := ih (by rw [hp]; exact List.mem_cons_self)
          simp [hne, hfirst]
        · exact ih (by rw [hp]; exact List.mem_cons_of_mem _ h)

theorem pieces_of_notMem {separator : Char} : ∀ {cs : List Char}, separator ∉ cs → pieces separator cs = [cs]
  | [], _ => rfl
  | c :: rest, h => by
    rw [List.mem_cons, not_or] at h
    have hc : ¬(c == separator) = true := by simpa using Ne.symm h.1
    rw [pieces, if_neg hc, pieces_of_notMem h.2]

theorem proper_ofString (text : String) : (ofString text).Proper := by
  intro part hpart
  obtain ⟨hmem, hkeep⟩ := List.mem_filter.1 hpart
  obtain ⟨piece, hpiece, rfl⟩ := List.mem_map.1 hmem
  rw [Bool.and_eq_true, bne_iff_ne, bne_iff_ne] at hkeep
  exact ⟨hkeep.1, hkeep.2, by simpa using separator_notMem_pieces hpiece⟩

theorem ofString_of_isComponent {text : String} (h : IsComponent text) : ofString text = ⟨"", [text]⟩ := by
  obtain ⟨hne, hdot, hslash⟩ := h
  have hroot : rootOf text.toList = "" := by
    have hfront : text.toList.takeWhile (· == '/') = [] := by
      cases hcs : text.toList with
      | nil => rfl
      | cons c cs =>
        rw [hcs, List.mem_cons, not_or] at hslash
        have hc : (c == '/') = false := by simpa using Ne.symm hslash.1
        rw [List.takeWhile_cons, hc]
        rfl
    unfold rootOf
    rw [hfront]
    rfl
  unfold ofString
  rw [hroot, pieces_of_notMem hslash]
  simp [hne, hdot]

theorem isName_of_isComponent {text : String} (h : IsComponent text) : isName text = true := by
  obtain ⟨hne, hdot, hslash⟩ := h
  have hlast : text.toList.getLast? ≠ some '/' := fun hlast => hslash (List.mem_of_getLast? hlast)
  unfold isName
  rw [ofString_of_isComponent ⟨hne, hdot, hslash⟩]
  simp [hlast, hne]

/-- The path that a way below another path leads to. -/
def below (p : Path) (way : List String) : Path :=
  { p with parts := p.parts ++ way }

theorem below_below (p : Path) (way rest : List String) : (p.below way).below rest = p.below (way ++ rest) := by
  unfold below
  rw [List.append_assoc]

theorem below_inj {p : Path} {way way' : List String} : p.below way = p.below way' ↔ way = way' :=
  ⟨fun h => List.append_cancel_left (congrArg Path.parts h), congrArg p.below⟩

theorem child_of_isComponent (p : Path) {name : String} (h : IsComponent name) : p.child name = p.below [name] := by
  unfold child
  rw [ofString_of_isComponent h]
  rfl

theorem withName_of_isComponent {p : Path} {name : String} (hp : p.parts ≠ []) (h : IsComponent name) :
    p.withName name = .ok (p.parent.below [name]) := by
  unfold withName
  rw [if_neg (by simpa using hp), if_pos (isName_of_isComponent h)]
  rfl

theorem parent_append_name {p : Path} (h : p.parts ≠ []) : p.parts = p.parent.parts ++ [p.name] := by
  unfold parent name
  dsimp only
  rw [List.getLastD_eq_getLast?, List.getLast?_eq_some_getLast h]
  exact (List.dropLast_concat_getLast h).symm

theorem Proper.parent {p : Path} (hp : p.Proper) : p.parent.Proper :=
  fun c hc => hp c (List.dropLast_subset _ hc)

theorem mem_intercalate {α : Type} {separator piece : List α} {c : α} (hc : c ∈ piece) : ∀ {pieces : List (List α)},
    piece ∈ pieces → c ∈ separator.intercalate pieces
  | [], h => (List.not_mem_nil h).elim
  | [one], h => by
    rw [List.intercalate_singleton]
    exact List.mem_singleton.1 h ▸ hc
  | one :: next :: rest, h => by
    rw [List.intercalate_cons_cons, List.mem_append]
    rcases List.mem_cons.1 h with rfl | h
    · exact .inl (List.mem_append_left _ hc)
    · exact .inr (mem_intercalate hc h)

/-- A path without a null character has none in its components. -/
theorem hasNull_of_mem_parts {p : Path} (h : hasNull p.toString = false) {part : String} (hpart : part ∈ p.parts) :
    hasNull part = false := by
  have hshown : p.toString = p.root ++ "/".intercalate p.parts := by
    unfold Path.toString
    rw [if_neg]
    rw [Bool.and_eq_true, not_and, List.isEmpty_iff]
    exact fun _ hnil => List.ne_nil_of_mem hpart hnil
  unfold hasNull at h ⊢
  rw [List.contains_eq_mem, decide_eq_false_iff_not] at h ⊢
  intro hnull
  apply h
  rw [hshown, String.toList_append, String.toList_intercalate]
  exact List.mem_append_right _ (mem_intercalate hnull (List.mem_map.2 ⟨part, hpart, rfl⟩))

/-! ## Stems and suffixes -/

/-- The suffix of a name begins at its last dot, if characters stand on both sides of it. -/
theorem splitSuffix_of_toList {name : String} {stem suffix : List Char} (hname : name.toList = stem ++ '.' :: suffix)
    (hstem : stem ≠ []) (hsuffix : suffix ≠ []) (hdot : '.' ∉ suffix) :
    splitSuffix name = (String.ofList stem, String.ofList ('.' :: suffix)) := by
  have hback : name.toList.reverse.takeWhile (· != '.') = suffix.reverse := by
    have hall : ∀ c ∈ suffix.reverse, (c != '.') = true := fun c hc => by
      rw [List.mem_reverse] at hc
      have hne : c ≠ '.' := fun h => hdot (h ▸ hc)
      simpa using hne
    have hrev : name.toList.reverse = suffix.reverse ++ '.' :: stem.reverse := by simp [hname]
    rw [hrev, List.takeWhile_append_of_pos hall]
    simp
  have htake : name.toList.take (name.toList.length - suffix.length - 1) = stem := by
    have hlength : name.toList.length - suffix.length - 1 = stem.length := by
      rw [hname, List.length_append, List.length_cons]
      omega
    rw [hlength, hname, List.take_left]
  have hlonger : suffix.length ≠ name.toList.length := by
    rw [hname, List.length_append, List.length_cons]
    omega
  unfold splitSuffix
  simp only [hback, List.reverse_reverse, htake]
  rw [if_neg (by simpa [hstem, hsuffix] using hlonger)]

theorem splitSuffix_eq (name : String) : splitSuffix name = (name, "") ∨ ∃ stem suffix, stem ≠ [] ∧ suffix ≠ [] ∧
    '.' ∉ suffix ∧ name.toList = stem ++ '.' :: suffix := by
  rcases hrest : name.toList.reverse.dropWhile (· != '.') with _ | ⟨c, rest⟩
  · left
    have hall : name.toList.reverse.takeWhile (· != '.') = name.toList.reverse := by
      have h := List.takeWhile_append_dropWhile (p := (· != '.')) (l := name.toList.reverse)
      rwa [hrest, List.append_nil] at h
    unfold splitSuffix
    simp only [hall, List.reverse_reverse]
    rw [if_pos (by simp)]
  · have hc : c = '.' := by
      have h := List.head_dropWhile_not (· != '.') (l := name.toList.reverse) (by simp [hrest])
      simpa [hrest] using h
    subst hc
    have hdot : '.' ∉ name.toList.reverse.takeWhile (· != '.') := fun h => by
      simpa using List.mem_takeWhile_imp h
    have hname : name.toList = rest.reverse ++ '.' :: (name.toList.reverse.takeWhile (· != '.')).reverse := by
      have h := List.takeWhile_append_dropWhile (p := (· != '.')) (l := name.toList.reverse)
      rw [hrest] at h
      have h' := congrArg List.reverse h
      rw [List.reverse_reverse, List.reverse_append, List.reverse_cons, List.append_assoc] at h'
      exact h'.symm
    by_cases hends : rest = [] ∨ name.toList.reverse.takeWhile (· != '.') = []
    · left
      unfold splitSuffix
      rcases hends with rfl | hempty
      · have htake : name.toList.take (name.toList.length -
            (name.toList.reverse.takeWhile (· != '.')).reverse.length - 1) = [] := by
          have hlength := congrArg List.length hname
          rw [List.length_append, List.length_cons] at hlength
          rw [List.take_eq_nil_iff]
          left
          simp at hlength ⊢
          omega
        simp only [htake]
        rw [if_pos (by simp)]
      · simp only [hempty]
        rw [if_pos (by simp)]
    · rw [not_or] at hends
      exact .inr ⟨rest.reverse, _, by simpa using hends.1, by simpa using hends.2, by simpa using hdot, hname⟩

theorem stem_append_suffix (name : String) : (splitSuffix name).1 ++ (splitSuffix name).2 = name := by
  rcases splitSuffix_eq name with h | ⟨stem, suffix, hstem, hsuffix, hdot, hname⟩
  · rw [h]
    exact String.append_empty
  · rw [splitSuffix_of_toList hname hstem hsuffix hdot, ← String.toList_inj, String.toList_append, String.toList_ofList,
      String.toList_ofList, hname]

theorem stem_ne_empty {name : String} (h : name ≠ "") : (splitSuffix name).1 ≠ "" := by
  rcases splitSuffix_eq name with hsplit | ⟨stem, suffix, hstem, hsuffix, hdot, hname⟩
  · rwa [hsplit]
  · rw [splitSuffix_of_toList hname hstem hsuffix hdot]
    intro hempty
    exact hstem (by simpa using congrArg String.toList hempty)

/-- What an extension is: a dot and what follows it. -/
def IsExtension (text : String) : Prop :=
  ∃ rest, rest ≠ [] ∧ '.' ∉ rest ∧ '/' ∉ rest ∧ text.toList = '.' :: rest

/-- The extension that is put behind a stem is the suffix of the new name. -/
theorem splitSuffix_append {stem extension : String} (hstem : stem ≠ "") (h : IsExtension extension) :
    splitSuffix (stem ++ extension) = (stem, extension) := by
  obtain ⟨rest, hrest, hdot, -, hlist⟩ := h
  have hne : stem.toList ≠ [] := fun hnil => hstem (by simpa using hnil)
  have hname : (stem ++ extension).toList = stem.toList ++ '.' :: rest := by rw [String.toList_append, hlist]
  rw [splitSuffix_of_toList hname hne hrest hdot, ← hlist, String.ofList_toList, String.ofList_toList]

/-- A component with another extension is one that leads down. -/
theorem isPlain_stem_append {name extension : String} (hname : IsComponent name) (h : IsExtension extension) :
    IsPlain ((splitSuffix name).1 ++ extension) := by
  obtain ⟨rest, hrest, hdot, hslash, hlist⟩ := h
  have hstem : (splitSuffix name).1.toList ≠ [] := fun hnil => stem_ne_empty hname.1 (by simpa using hnil)
  have hslashStem : '/' ∉ (splitSuffix name).1.toList := fun hmem => hname.2.2 (by
    rw [← stem_append_suffix name, String.toList_append]
    exact List.mem_append_left _ hmem)
  have hlength : ∀ text : String, (splitSuffix name).1 ++ extension = text → 2 < text.toList.length := by
    rintro text rfl
    have hfirst := List.length_pos_iff.2 hstem
    have hlast := List.length_pos_iff.2 hrest
    rw [String.toList_append, hlist, List.length_append, List.length_cons]
    omega
  refine ⟨⟨fun he => ?_, fun he => ?_, ?_⟩, fun he => ?_⟩
  · exact absurd (hlength _ he) (by decide)
  · exact absurd (hlength _ he) (by decide)
  · rw [String.toList_append, List.mem_append, not_or, hlist, List.mem_cons, not_or]
    exact ⟨hslashStem, by decide, hslash⟩
  · exact absurd (hlength _ he) (by decide)

end Path
end Argot
