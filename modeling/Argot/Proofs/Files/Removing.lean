import Argot.Proofs.Files.Found
import Argot.Proofs.Files.OneFile
/-!
# Removing — what the removal of an output does to a workshop

A file is removed if its path leads to it, and nothing else goes with it (`remove_of_isFile`, `Removed`).  So the removal
of an output drops the record of its input and deletes one file at most: the one that the recorded output is, or the
output that a source without a record would have (`removesAt`).
-/
namespace Argot

namespace FileTree

open Argot.Path

variable {t t' : FileTree} {p : Path} {place q : Place}

theorem isFile_of_locate (hlocate : t.locate p = .ok place) (hfile : t.IsFileAt place) : t.isFile p = .ok true := by
  obtain ⟨bytes, status, hentry⟩ := hfile
  unfold FileTree.isFile FileTree.look
  rw [hlocate]
  dsimp only
  rw [hentry]
  rfl

theorem Later.isFile (h : Later t t') (hp : p.Proper) (hfile : t.isFile p = .ok true) : t'.isFile p = .ok true := by
  obtain ⟨place, hlocate, hthere⟩ := locate_of_isFile hfile
  exact isFile_of_locate (h.locate_ok hp hlocate) (h.file place hthere)

/-- A tree after the file at a place is gone. -/
structure Removed (t t' : FileTree) (place : Place) : Prop where
  base : t'.base = t.base
  file : t.IsFileAt place
  gone : t'.entry? place = none
  kept : ∀ q, q ≠ place → t'.entry? q = t.entry? q

theorem Removed.directory (h : Removed t t' place) (hq : t.entry? q = some .directory) :
    t'.entry? q = some .directory := by
  have hne : q ≠ place := by
    rintro rfl
    obtain ⟨bytes, status, hentry⟩ := h.file
    rw [hq] at hentry
    cases hentry
  rw [h.kept q hne, hq]

theorem Removed.rooted (h : Removed t t' place) (ht : t.Rooted) : t'.Rooted where
  root := h.directory ht.root
  base := by
    rw [h.base]
    exact h.directory ht.base

/-- No way goes through a file, so every path leads to where it led. -/
theorem Removed.locate_ok (h : Removed t t' place) (hp : p.Proper) (hlocate : t.locate p = .ok q) :
    t'.locate p = .ok q := by
  obtain ⟨hask, hwalk⟩ := (locate_eq_ok_iff hp).1 hlocate
  obtain ⟨hplace, hshort, hway⟩ := walk_eq_ok_iff.1 hwalk
  refine (locate_eq_ok_iff hp).2 ⟨hask, ?_⟩
  rw [startOf_of_base p h.base]
  exact walk_eq_ok_iff.2 ⟨hplace, hshort, fun pre part rest hsplit => h.directory (hway pre part rest hsplit)⟩

/-- The files at other places stay. -/
theorem Removed.isFile (h : Removed t t' place) (hp : p.Proper) (hne : t.placeOf p ≠ place)
    (hfile : t.isFile p = .ok true) : t'.isFile p = .ok true := by
  obtain ⟨q, hlocate, bytes, status, hentry⟩ := locate_of_isFile hfile
  have hq : q ≠ place := place_of_locate hp hlocate ▸ hne
  exact isFile_of_locate (h.locate_ok hp hlocate) ⟨bytes, status, (h.kept q hq).trans hentry⟩

theorem Removed.isFile_eq_false (h : Removed t t' place) (hp : p.Proper) (hlocate : t.locate p = .ok place) :
    t'.isFile p = .ok false := by
  unfold FileTree.isFile FileTree.look
  rw [h.locate_ok hp hlocate]
  dsimp only
  rw [h.gone]
  rfl

theorem removed_of_remove (h : t.remove p = .ok t') : ∃ place, t.locate p = .ok place ∧ Removed t t' place := by
  unfold remove at h
  cases hlocate : t.locate p with
  | error e => simp [hlocate, bind, Except.bind] at h
  | ok place =>
    rcases hentry : t.entry? place with _ | (_ | ⟨bytes, status⟩)
    · simp [hlocate, hentry, bind, Except.bind] at h
    · simp [hlocate, hentry, bind, Except.bind] at h
    · simp only [hlocate, hentry, bind, Except.bind, Except.ok.injEq] at h
      subst h
      have herase : ∀ q, FileTree.entry? { t with entries := t.entries.erase place } q =
          if q = place then none else t.entry? q := fun q => t.entries.get?_erase place q
      exact ⟨place, rfl, rfl, ⟨bytes, status, hentry⟩, (herase place).trans (if_pos rfl), fun q hq =>
        (herase q).trans (if_neg hq)⟩

theorem remove_of_isFile (h : t.isFile p = .ok true) : ∃ t', t.remove p = .ok t' := by
  obtain ⟨place, hlocate, bytes, status, hentry⟩ := locate_of_isFile h
  unfold remove
  rw [hlocate]
  dsimp only [bind, Except.bind]
  rw [hentry]
  exact ⟨_, rfl⟩

end FileTree

namespace Workshop

open FileTree Argot.Path

variable {w : Workshop} {input output : Path} {place : Place}

/-- The place of the file that is deleted when the output of an input at a place is removed, if there is one. -/
def deletedPlace (w : Workshop) (input : Path) (place : Place) : Option Place :=
  match w.removable input place with
  | .ok (some output) => match w.tree.remove output with
    | .ok _ => (w.tree.locate output).toOption
    | .error _ => none
  | _ => none

/-- What the removal of an output leaves of a workshop, if the file at a place is deleted. -/
structure RemovesAt (w w' : Workshop) (input : Path) (place : Place) (deleted : Option Place) : Prop where
  settings : w'.settings = w.settings
  base : w'.tree.base = w.tree.base
  rooted : w.tree.Rooted → w'.tree.Rooted
  outputs : w'.outputs = w.outputs.erase place
  /-- What is deleted is what the output to be removed leads to. -/
  target : ∀ q, deleted = some q → ∃ output, w.removable input place = .ok (some output) ∧ w.tree.locate output = .ok q
  /-- A file on record is deleted. -/
  own : ∀ output, w.outputs.get? place = some output → output.Proper → w.tree.isFile output = .ok true →
    deleted = some (w.tree.placeOf output) ∧ w'.tree.isFile output = .ok false
  /-- A file at another place is not. -/
  others : ∀ p, p.Proper → deleted ≠ some (w.tree.placeOf p) → w.tree.isFile p = .ok true → w'.tree.isFile p = .ok true

theorem removesAt (hplace : input.resolve w.tree.base = .ok place) :
    RemovesAt w (w.removeOutput input).2 input place (w.deletedPlace input place) := by
  have hrecorded : ∀ output, w.outputs.get? place = some output → w.removable input place = .ok (some output) := by
    intro output h
    unfold removable
    rw [h]
  -- without a deletion the record alone changes, so a file on record would have been deleted
  have hnone : (∀ output, w.removable input place = .ok (some output) → ∃ e, w.tree.remove output = .error e) →
      RemovesAt w { w with outputs := w.outputs.erase place } input place none := by
    intro hrefused
    refine ⟨rfl, rfl, id, rfl, nofun, fun output hrecord _ hfile => ?_, fun p _ _ hfile => hfile⟩
    obtain ⟨e, he⟩ := hrefused output (hrecorded output hrecord)
    obtain ⟨t', ht'⟩ := remove_of_isFile hfile
    rw [ht'] at he
    cases he
  rw [removeOutput_eq hplace]
  unfold deletedPlace
  rcases htarget : w.removable input place with e | (_ | output)
  · exact hnone fun output h => by rw [htarget] at h; cases h
  · exact hnone fun output h => by rw [htarget] at h; cases h
  · dsimp only
    cases hremove : w.tree.remove output with
    | error e =>
      refine hnone fun output' h => ?_
      rw [htarget] at h
      cases h
      exact ⟨e, hremove⟩
    | ok tree =>
      obtain ⟨q, hlocate, hremoved⟩ := removed_of_remove hremove
      rw [hlocate]
      refine ⟨rfl, hremoved.base, hremoved.rooted, rfl, fun q' hq' => ?_, fun output' hrecord hp hfile => ?_,
        fun p hp hne hfile => ?_⟩
      · cases hq'
        exact ⟨output, htarget, hlocate⟩
      · have hsame := hrecorded output' hrecord
        rw [htarget] at hsame
        cases hsame
        exact ⟨congrArg some (place_of_locate hp hlocate), hremoved.isFile_eq_false hp hlocate⟩
      · exact hremoved.isFile hp (fun h => hne (congrArg some h.symm)) hfile

end Workshop
end Argot
