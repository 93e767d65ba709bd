import Argot.Files.Glob
import Mathlib.Data.List.Infix
/-!
# Fitting — what patterns stand for

A text fits a pattern when it is made of a part for each piece, one after another (`fits_iff`).  Patterns know no
separators, so a star takes slashes as well; what only a star may do is kept to the front of a pattern for names, and
such a pattern fits a whole path no better than the name at its end (`fits_name_of_fits_path`).
-/
namespace Argot
namespace Glob

/-- What a piece stands for: any text, or one character that it takes. -/
def Piece.Covers : Piece → List Char → Prop
  | .star, _ => True
  | piece, part => ∃ c, part = [c] ∧ piece.takes c = true

/-- A text is made of parts that the pieces stand for. -/
def Fits : List Piece → List Char → Prop
  | [], cs => cs = []
  | piece :: pieces, cs => ∃ part rest, cs = part ++ rest ∧ piece.Covers part ∧ Fits pieces rest

theorem covers_iff_of_ne_star {piece : Piece} (h : piece ≠ .star) {part : List Char} :
    piece.Covers part ↔ ∃ c, part = [c] ∧ piece.takes c = true := by
  cases piece with
  | star => exact (h rfl).elim
  | _ => rfl

/-! ## The places that a pattern reaches -/

theorem length_spread : ∀ (before : Bool) (reached : List Bool), (spread before reached).length = reached.length
  | _, [] => rfl
  | before, here :: rest => congrArg (· + 1) (length_spread (before || here) rest)

theorem length_advance {cs : List Char} {reached : List Bool} (h : reached.length = cs.length + 1) (piece : Piece) :
    (advance cs reached piece).length = cs.length + 1 := by
  cases piece <;> simp [advance, length_spread, h]

theorem getElem?_spread : ∀ (before : Bool) (reached : List Bool) (k : Nat), (spread before reached)[k]? = some true ↔
    k < reached.length ∧ (before = true ∨ ∃ i ≤ k, reached[i]? = some true)
  | _, [], k => by simp [spread]
  | before, here :: rest, 0 => by
    have hfirst : (∃ i ≤ 0, (here :: rest)[i]? = some true) ↔ here = true := by simp
    rw [spread, List.getElem?_cons_zero, Option.some_inj, Bool.or_eq_true, hfirst]
    simp
  | before, here :: rest, k + 1 => by
    have hsplit : (∃ i ≤ k + 1, (here :: rest)[i]? = some true) ↔ here = true ∨ ∃ i ≤ k, rest[i]? = some true := by
      constructor
      · rintro ⟨_ | i, hi, h⟩
        · exact .inl (by simpa using h)
        · exact .inr ⟨i, by omega, h⟩
      · rintro (rfl | ⟨i, hi, h⟩)
        · exact ⟨0, by omega, rfl⟩
        · exact ⟨i + 1, by omega, h⟩
    rw [spread, List.getElem?_cons_succ, getElem?_spread, List.length_cons, Nat.add_lt_add_iff_right, hsplit,
      Bool.or_eq_true, or_assoc]

/-- One step reaches what is behind a reached place and a part that the piece stands for. -/
theorem getElem?_advance {cs : List Char} {reached : List Bool} (hlength : reached.length = cs.length + 1) (piece : Piece)
    (k : Nat) : (advance cs reached piece)[k]? = some true ↔
      ∃ i, reached[i]? = some true ∧ ∃ part rest, cs.drop i = part ++ rest ∧ piece.Covers part ∧ k = i + part.length ∧
        k ≤ cs.length := by
  by_cases hstar : piece = .star
  · subst hstar
    change (spread false reached)[k]? = some true ↔ _
    rw [getElem?_spread, hlength]
    constructor
    · rintro ⟨hk, hnot | ⟨i, hi, h⟩⟩
      · cases hnot
      · refine ⟨i, h, (cs.drop i).take (k - i), (cs.drop i).drop (k - i), (List.take_append_drop _ _).symm, trivial, ?_,
          Nat.le_of_lt_succ hk⟩
        rw [List.length_take, List.length_drop]
        omega
    · rintro ⟨i, h, part, rest, -, -, rfl, hk⟩
      exact ⟨Nat.lt_succ_of_le hk, .inr ⟨i, Nat.le_add_right _ _, h⟩⟩
  · have hadvance : advance cs reached piece =
        false :: List.zipWith (fun here c => here && piece.takes c) reached cs := by
      cases piece with
      | star => exact (hstar rfl).elim
      | _ => rfl
    rw [hadvance]
    constructor
    · intro h
      cases k with
      | zero => simp at h
      | succ k =>
        rw [List.getElem?_cons_succ, List.getElem?_zipWith_eq_some] at h
        obtain ⟨here, c, hhere, hc, hboth⟩ := h
        rw [Bool.and_eq_true] at hboth
        obtain ⟨hk, rfl⟩ := List.getElem?_eq_some_iff.1 hc
        refine ⟨k, hboth.1 ▸ hhere, [cs[k]], cs.drop (k + 1), ?_, ?_, rfl, hk⟩
        · rw [List.singleton_append, List.getElem_cons_drop]
        · exact (covers_iff_of_ne_star hstar).2 ⟨_, rfl, hboth.2⟩
    · rintro ⟨i, h, part, rest, hrest, hpart, rfl, hk⟩
      obtain ⟨c, rfl, htakes⟩ := (covers_iff_of_ne_star hstar).1 hpart
      have hc : cs[i]? = some c := by
        have hfirst := congrArg List.head? hrest
        rwa [List.head?_drop] at hfirst
      rw [List.length_singleton, List.getElem?_cons_succ, List.getElem?_zipWith_eq_some]
      exact ⟨true, c, h, hc, by rw [htakes]; rfl⟩

theorem getLastD_foldl_advance {cs : List Char} : ∀ (pieces : List Piece) {reached : List Bool},
    reached.length = cs.length + 1 → ((pieces.foldl (advance cs) reached).getLastD false = true ↔
      ∃ i, reached[i]? = some true ∧ Fits pieces (cs.drop i))
  | [], reached, hlength => by
    have hlast : reached.getLastD false = true ↔ reached[cs.length]? = some true := by
      rw [List.getLastD_eq_getLast?, List.getLast?_eq_getElem?, hlength, Nat.add_sub_cancel]
      obtain ⟨b, hb⟩ : ∃ b, reached[cs.length]? = some b :=
        ⟨_, List.getElem?_eq_getElem (hlength ▸ Nat.lt_succ_self cs.length)⟩
      rw [hb, Option.getD_some, Option.some_inj]
    rw [List.foldl_nil, hlast]
    constructor
    · exact fun h => ⟨cs.length, h, List.drop_length⟩
    · rintro ⟨i, h, hrest⟩
      have hi : i < reached.length := (List.getElem?_eq_some_iff.1 h).1
      obtain rfl : i = cs.length := Nat.le_antisymm (by omega) (List.drop_eq_nil_iff.1 hrest)
      exact h
  | piece :: pieces, reached, hlength => by
    rw [List.foldl_cons, getLastD_foldl_advance pieces (length_advance hlength piece)]
    constructor
    · rintro ⟨k, hk, hfits⟩
      obtain ⟨i, hi, part, rest, hrest, hpart, rfl, -⟩ := (getElem?_advance hlength piece k).1 hk
      refine ⟨i, hi, part, rest, hrest, hpart, ?_⟩
      rwa [← List.drop_drop, hrest, List.drop_left] at hfits
    · rintro ⟨i, hi, part, rest, hrest, hpart, hfits⟩
      have hi' : i < reached.length := (List.getElem?_eq_some_iff.1 hi).1
      have hsum := congrArg List.length hrest
      rw [List.length_drop, List.length_append] at hsum
      refine ⟨i + part.length, (getElem?_advance hlength piece _).2 ⟨i, hi, part, rest, hrest, hpart, rfl, by omega⟩, ?_⟩
      rwa [← List.drop_drop, hrest, List.drop_left]

/-- **A text fits a pattern when it is made of what the pieces stand for.** -/
theorem fits_iff {pieces : List Piece} {cs : List Char} : fits pieces cs = true ↔ Fits pieces cs := by
  unfold fits
  rw [getLastD_foldl_advance pieces (by simp)]
  constructor
  · rintro ⟨_ | i, hi, h⟩
    · exact h
    · rw [List.getElem?_cons_succ] at hi
      simpa using List.mem_of_getElem? hi
  · exact fun h => ⟨0, rfl, h⟩

/-! ## Patterns for names -/

/-- The pieces behind a star that a pattern may begin with. -/
def behindStar : List Piece → List Piece
  | .star :: pieces => pieces
  | pieces => pieces

/-- A pattern for names: only a star at its beginning takes slashes. -/
def IsForNames (pattern : String) : Prop :=
  ∀ piece ∈ behindStar (parseFrom 0 pattern.toList), piece.takes '/' = false

instance (pattern : String) : Decidable (IsForNames pattern) :=
  inferInstanceAs (Decidable (∀ piece ∈ behindStar (parseFrom 0 pattern.toList), piece.takes '/' = false))

theorem slash_notMem_of_fits : ∀ {pieces : List Piece} {cs : List Char},
    (∀ piece ∈ pieces, piece.takes '/' = false) → Fits pieces cs → '/' ∉ cs
  | [], cs, _, h => by
    obtain rfl : cs = [] := h
    exact List.not_mem_nil
  | piece :: pieces, _, htakes, ⟨part, rest, rfl, hpart, hrest⟩ => by
    have hfirst := htakes piece List.mem_cons_self
    have hstar : piece ≠ .star := by
      rintro rfl
      cases hfirst
    obtain ⟨c, rfl, hc⟩ := (covers_iff_of_ne_star hstar).1 hpart
    rw [List.mem_append, List.mem_singleton, not_or]
    refine ⟨?_, slash_notMem_of_fits (fun q hq => htakes q (List.mem_cons_of_mem _ hq)) hrest⟩
    rintro rfl
    rw [hfirst] at hc
    cases hc

/-- What is in front of a name in a path. -/
def IsFront (front : List Char) : Prop :=
  front = [] ∨ ∃ above, front = above ++ ['/']

theorem eq_nil_of_append_eq {before more above : List Char} (h : before ++ more = above ++ ['/']) (hmore : '/' ∉ more) :
    more = [] := by
  by_contra hne
  have hend := congrArg List.getLast? h
  rw [List.getLast?_append_of_ne_nil _ hne, List.getLast?_concat] at hend
  exact hmore (List.mem_of_getLast? hend)

/-- An end of a path without a slash is an end of its name. -/
theorem suffix_of_notMem {front name last : List Char} (hfront : IsFront front) (hlast : '/' ∉ last)
    (h : last <:+ front ++ name) : last <:+ name := by
  rcases List.suffix_or_suffix_of_suffix h (List.suffix_append front name) with hname | ⟨more, rfl⟩
  · exact hname
  · obtain ⟨before, hbefore⟩ := h
    rw [← List.append_assoc, List.append_cancel_right_eq] at hbefore
    rw [List.mem_append, not_or] at hlast
    have hmore : more = [] := by
      rcases hfront with rfl | ⟨above, rfl⟩
      · exact (List.append_eq_nil_iff.1 hbefore).2
      · exact eq_nil_of_append_eq hbefore hlast.1
    rw [hmore]
    exact List.suffix_rfl

theorem fits_star_iff {pieces : List Piece} {cs : List Char} :
    Fits (.star :: pieces) cs ↔ ∃ last, last <:+ cs ∧ Fits pieces last := by
  constructor
  · rintro ⟨part, last, rfl, -, h⟩
    exact ⟨last, List.suffix_append _ _, h⟩
  · rintro ⟨last, ⟨part, rfl⟩, h⟩
    exact ⟨part, last, rfl, trivial, h⟩

theorem fits_behind_slash_iff {pieces : List Piece} {cs : List Char} :
    Fits (.star :: .exactly '/' :: pieces) cs ↔ ∃ last, '/' :: last <:+ cs ∧ Fits pieces last := by
  rw [fits_star_iff]
  constructor
  · rintro ⟨_, hsuffix, part, last, rfl, ⟨c, rfl, hc⟩, h⟩
    obtain rfl : '/' = c := beq_iff_eq.1 hc
    exact ⟨last, hsuffix, h⟩
  · rintro ⟨last, hsuffix, h⟩
    exact ⟨'/' :: last, hsuffix, ['/'], last, rfl, ⟨'/', rfl, rfl⟩, h⟩

theorem parseFrom_behind_slash (pattern : String) :
    parseFrom 0 ("*/" ++ pattern).toList = .star :: .exactly '/' :: parseFrom 0 pattern.toList := by
  rw [String.toList_append]
  rfl

/-- **A pattern for names that fits a path, or an end of it behind a slash, fits the name.** -/
theorem fits_name_of_fits_path {pattern name path : String} (hpattern : IsForNames pattern) {front : List Char}
    (hpath : path.toList = front ++ name.toList) (hfront : IsFront front) (hname : '/' ∉ name.toList)
    (h : matchesText pattern path = true ∨ matchesText ("*/" ++ pattern) path = true) :
    matchesText pattern name = true := by
  unfold matchesText at *
  rw [parseFrom_behind_slash, fits_iff, fits_iff, hpath, fits_behind_slash_iff] at h
  rw [fits_iff]
  unfold IsForNames at hpattern
  generalize parseFrom 0 pattern.toList = pieces at hpattern h ⊢
  by_cases hstar : ∃ rest, pieces = .star :: rest
  · obtain ⟨rest, rfl⟩ := hstar
    rw [fits_star_iff] at h ⊢
    have hlast : ∃ last, last <:+ front ++ name.toList ∧ Fits rest last := by
      rcases h with h | ⟨last, hlast, hfits⟩
      · exact h
      · obtain ⟨more, hmore, hfits⟩ := fits_star_iff.1 hfits
        exact ⟨more, (hmore.trans (List.suffix_cons _ _)).trans hlast, hfits⟩
    obtain ⟨last, hlast, hfits⟩ := hlast
    exact ⟨last, suffix_of_notMem hfront (slash_notMem_of_fits hpattern hfits) hlast, hfits⟩
  · have hbehind : behindStar pieces = pieces := by
      unfold behindStar
      split
      · exact (hstar ⟨_, rfl⟩).elim
      · rfl
    rw [hbehind] at hpattern
    have hslash : ∀ {cs : List Char}, Fits pieces cs → '/' ∉ cs := slash_notMem_of_fits hpattern
    rcases h with h | ⟨last, hlast, hfits⟩
    · -- without a slash in it, the path is the name
      have hwhole := suffix_of_notMem hfront (hslash h) List.suffix_rfl
      rwa [← hwhole.eq_of_length_le (List.suffix_append _ _).length_le]
    · -- a slash in front of less than the name would be one of the name
      obtain ⟨more, hmore⟩ := suffix_of_notMem hfront (hslash hfits) ((List.suffix_cons _ _).trans hlast)
      obtain ⟨before, hbefore⟩ := hlast
      rw [← hmore, ← List.append_assoc, ← List.singleton_append, ← List.append_assoc, List.append_cancel_right_eq] at hbefore
      rw [eq_nil_of_append_eq hbefore.symm fun hmem => hname (hmore ▸ List.mem_append_left _ hmem),
        List.nil_append] at hmore
      rwa [← hmore]

end Glob
end Argot
