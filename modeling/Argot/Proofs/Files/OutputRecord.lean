import Argot.Proofs.Files.Isolation
import Argot.Proofs.Files.Removing
/-!
# OutputRecord — the record of outputs and the files that are there

A log says which output was written for which input, and which file was deleted with which input.  Over any history of
conversions, removals and changes by others the record of an input is what the log says was written for it last, every
file that was written and not deleted is on record for its input or was left for another output of the same input, and
every file on record is there unless it was deleted with another input (`record_matches`).
-/
namespace Argot

/-- What happened to outputs: one was written for an input, or an input's output was removed, and with it a file. -/
inductive OutputEvent where
  | wrote (input output : Place)
  | removed (input : Place) (deleted : Option Place)
  deriving DecidableEq, Repr

namespace OutputEvent

/-! ## Logs, the newest event first -/

/-- The output that was last written for an input and not removed since. -/
def current (k : Place) : List OutputEvent → Option Place
  | [] => none
  | .wrote k' q :: earlier => if k' = k then some q else current k earlier
  | .removed k' _ :: earlier => if k' = k then none else current k earlier

/-- The input that the file at a place was last written for, unless it was deleted since. -/
def standing (q : Place) : List OutputEvent → Option Place
  | [] => none
  | .wrote k q' :: earlier => if q' = q then some k else standing q earlier
  | .removed _ deleted :: earlier => if deleted = some q then none else standing q earlier

/-- Since the file at a place was last written, for an input, another output was written for the same input. -/
def Superseded (k q : Place) (events : List OutputEvent) : Prop :=
  ∃ later earlier, events = later ++ .wrote k q :: earlier ∧ (∀ k', .wrote k' q ∉ later) ∧ ∃ q', .wrote k q' ∈ later

/-- Since the file at a place was last written for an input, it was deleted. -/
def Lost (k q : Place) (events : List OutputEvent) : Prop :=
  ∃ later earlier, events = later ++ .wrote k q :: earlier ∧ .wrote k q ∉ later ∧ ∃ k', .removed k' (some q) ∈ later

variable {k k' q q' : Place} {e : OutputEvent} {events : List OutputEvent}

theorem exists_of_current : ∀ {events : List OutputEvent}, current k events = some q →
    ∃ later earlier, events = later ++ .wrote k q :: earlier ∧ .wrote k q ∉ later
  | .wrote k' q' :: earlier, h => by
    rw [current] at h
    by_cases hk : k' = k
    · rw [if_pos hk, Option.some.injEq] at h
      subst hk h
      exact ⟨[], earlier, rfl, List.not_mem_nil⟩
    · rw [if_neg hk] at h
      obtain ⟨later, earlier, rfl, hlast⟩ := exists_of_current h
      refine ⟨.wrote k' q' :: later, earlier, rfl, fun hmem => ?_⟩
      rcases List.mem_cons.1 hmem with heq | hmem
      · cases heq
        exact hk rfl
      · exact hlast hmem
  | .removed k' deleted :: earlier, h => by
    rw [current] at h
    by_cases hk : k' = k
    · rw [if_pos hk] at h
      cases h
    · rw [if_neg hk] at h
      obtain ⟨later, earlier, rfl, hlast⟩ := exists_of_current h
      exact ⟨.removed k' deleted :: later, earlier, rfl, fun hmem => hlast (by simpa using hmem)⟩

theorem exists_of_standing : ∀ {events : List OutputEvent}, standing q events = some k →
    ∃ later earlier, events = later ++ .wrote k q :: earlier ∧ ∀ k', .wrote k' q ∉ later
  | .wrote k' q' :: earlier, h => by
    rw [standing] at h
    by_cases hq : q' = q
    · rw [if_pos hq, Option.some.injEq] at h
      subst hq h
      exact ⟨[], earlier, rfl, fun _ => List.not_mem_nil⟩
    · rw [if_neg hq] at h
      obtain ⟨later, earlier, rfl, hlast⟩ := exists_of_standing h
      refine ⟨.wrote k' q' :: later, earlier, rfl, fun k'' hmem => ?_⟩
      rcases List.mem_cons.1 hmem with heq | hmem
      · cases heq
        exact hq rfl
      · exact hlast k'' hmem
  | .removed k' deleted :: earlier, h => by
    rw [standing] at h
    by_cases hq : deleted = some q
    · rw [if_pos hq] at h
      cases h
    · rw [if_neg hq] at h
      obtain ⟨later, earlier, rfl, hlast⟩ := exists_of_standing h
      exact ⟨.removed k' deleted :: later, earlier, rfl, fun k'' hmem => hlast k'' (by simpa using hmem)⟩

/-- What stands was not deleted. -/
theorem not_lost_of_standing (h : standing q events = some k) : ¬Lost k q events := by
  rintro ⟨later, earlier, rfl, hlast, k', hremoved⟩
  induction later with
  | nil => exact List.not_mem_nil hremoved
  | cons e later ih =>
    rw [List.mem_cons, not_or] at hlast
    cases e with
    | wrote k'' q'' =>
      rw [List.cons_append, standing] at h
      by_cases hq : q'' = q
      · rw [if_pos hq, Option.some.injEq] at h
        exact hlast.1 (by rw [h, hq])
      · rw [if_neg hq] at h
        exact ih h hlast.2 (by simpa using hremoved)
    | removed k'' deleted =>
      rw [List.cons_append, standing] at h
      by_cases hq : deleted = some q
      · rw [if_pos hq] at h
        cases h
      · rw [if_neg hq] at h
        refine ih h hlast.2 ((List.mem_cons.1 hremoved).resolve_left fun heq => hq ?_)
        cases heq
        rfl

theorem Superseded.cons (h : Superseded k q events) (hne : ∀ k', e ≠ .wrote k' q) : Superseded k q (e :: events) := by
  obtain ⟨later, earlier, rfl, hlast, q', hother⟩ := h
  refine ⟨e :: later, earlier, rfl, fun k' hmem => ?_, q', List.mem_cons_of_mem _ hother⟩
  exact (List.mem_cons.1 hmem).elim (fun heq => hne k' heq.symm) (hlast k')

theorem Lost.cons (h : Lost k q events) (hne : e ≠ .wrote k q) : Lost k q (e :: events) := by
  obtain ⟨later, earlier, rfl, hlast, k', hremoved⟩ := h
  refine ⟨e :: later, earlier, rfl, fun hmem => ?_, k', List.mem_cons_of_mem _ hremoved⟩
  exact (List.mem_cons.1 hmem).elim (fun heq => hne heq.symm) hlast

theorem superseded_of_wrote (h : standing q events = some k) (hne : q' ≠ q) :
    Superseded k q (.wrote k q' :: events) := by
  obtain ⟨later, earlier, rfl, hlast⟩ := exists_of_standing h
  refine ⟨.wrote k q' :: later, earlier, rfl, fun k' hmem => ?_, q', List.mem_cons_self⟩
  rcases List.mem_cons.1 hmem with heq | hmem
  · cases heq
    exact hne rfl
  · exact hlast k' hmem

theorem lost_of_removed (h : current k events = some q) : Lost k q (.removed k' (some q) :: events) := by
  obtain ⟨later, earlier, rfl, hlast⟩ := exists_of_current h
  exact ⟨.removed k' (some q) :: later, earlier, rfl, by simpa using hlast, k', List.mem_cons_self⟩

end OutputEvent

namespace Workshop

open FileTree Argot.Path OutputEvent

variable {w u : Workshop} {parse : Parser Id} {toForms : Bool} {input : Path} {place : Place}
  {events : List OutputEvent}

/-! ## Histories -/

/-- A success is an output that was written. -/
def runEvents (w : Workshop) (o : FileOutcome) : List OutputEvent :=
  match o.output with
  | some output => if o.success then [.wrote (w.tree.placeOf o.input) (w.tree.placeOf output)] else []
  | none => []

/-- A removal concerns an input that stands for a place. -/
def removeEvents (w : Workshop) (input : Path) : List OutputEvent :=
  match input.resolve w.tree.base with
  | .ok place => [.removed place (w.deletedPlace input place)]
  | .error _ => []

/-- What can be done to a workshop with an empty record, and the log of it.  Others may change the tree as they like,
but the files on record stay files. -/
inductive History (parse : Parser Id) : List OutputEvent → Workshop → Prop
  | start {w : Workshop} (placed : w.WellPlaced) (fresh : w.outputs = .empty) : History parse [] w
  | convert {events : List OutputEvent} {w : Workshop} (h : History parse events w) (toForms : Bool) {input : Path}
      (proper : input.Proper) :
    History parse (w.runEvents (outcomeOf input (w.file parse toForms input).1) ++ events)
      (w.file parse toForms input).2
  | remove {events : List OutputEvent} {w : Workshop} (h : History parse events w) {input : Path}
      (proper : input.Proper) : History parse (w.removeEvents input ++ events) (w.removeOutput input).2
  | change {events : List OutputEvent} {w : Workshop} (h : History parse events w) {tree : FileTree}
      (base : tree.base = w.tree.base) (rooted : tree.Rooted)
      (kept : ∀ k output, w.outputs.get? k = some output → w.tree.isFile output = .ok true →
        tree.isFile output = .ok true) : History parse events { w with tree }

/-- How the record and the files go with the log. -/
structure Matches (events : List OutputEvent) (w : Workshop) : Prop where
  recorded : ∀ k, (w.outputs.get? k).map w.tree.placeOf = current k events
  /-- A file that was written and not deleted is on record, or was left for another output of its input. -/
  explained : ∀ q k, standing q events = some k → current k events = some q ∨ Superseded k q events
  /-- A file on record is there, or was deleted with another input. -/
  found : ∀ k output, w.outputs.get? k = some output → ¬Lost k (w.tree.placeOf output) events →
    w.tree.isFile output = .ok true

/-- What holds at each point of a history. -/
structure Tracks (events : List OutputEvent) (w : Workshop) : Prop extends Matches events w where
  placed : w.WellPlaced
  proper : ∀ k output, w.outputs.get? k = some output → output.Proper

/-- Changes that keep the record and the files on it keep the match. -/
theorem Tracks.of_outputs_eq (h : Tracks events w) (hplaced : u.WellPlaced) (hbase : u.tree.base = w.tree.base)
    (houtputs : u.outputs = w.outputs) (hkept : ∀ k output, w.outputs.get? k = some output →
      w.tree.isFile output = .ok true → u.tree.isFile output = .ok true) : Tracks events u where
  recorded k := by
    have hplaceOf : u.tree.placeOf = w.tree.placeOf := funext fun p => placeOf_of_base p hbase
    rw [houtputs, hplaceOf]
    exact h.recorded k
  explained := h.explained
  found k output hrecord hlost := by
    rw [houtputs] at hrecord
    rw [placeOf_of_base output hbase] at hlost
    exact hkept k output hrecord (h.found k output hrecord hlost)
  placed := hplaced
  proper := houtputs ▸ h.proper

theorem runEvents_of_not_success {o : FileOutcome} (h : o.success ≠ true) : w.runEvents o = [] := by
  unfold runEvents
  cases o.output with
  | none => rfl
  | some output => exact if_neg h

/-- **Writing an output keeps record, files and log together.** -/
theorem Tracks.wrote {k : Place} {output : Path} (h : Tracks events w) (hplaced : u.WellPlaced)
    (hlater : Later w.tree u.tree) (houtputs : u.outputs = w.outputs.insert k output) (hproper : output.Proper)
    (hthere : u.tree.isFile output = .ok true) : Tracks (.wrote k (w.tree.placeOf output) :: events) u where
  recorded k' := by
    rw [houtputs, OrderedMap.get?_insert, current, funext hlater.placeOf]
    by_cases hk : k' = k
    · rw [if_pos hk, if_pos hk.symm]
      rfl
    · rw [if_neg hk, if_neg (Ne.symm hk)]
      exact h.recorded k'
  explained q k' hstanding := by
    rw [standing] at hstanding
    rw [current]
    by_cases hq : w.tree.placeOf output = q
    · rw [if_pos hq, Option.some.injEq] at hstanding
      rw [if_pos hstanding, hq]
      exact .inl rfl
    · rw [if_neg hq] at hstanding
      by_cases hk : k = k'
      · rw [hk]
        exact .inr (superseded_of_wrote hstanding hq)
      · rw [if_neg hk]
        refine (h.explained q k' hstanding).imp_right fun hsuperseded => hsuperseded.cons fun k'' heq => ?_
        exact hq (OutputEvent.wrote.inj heq).2
  found k' p hrecord hlost := by
    rw [houtputs, OrderedMap.get?_insert] at hrecord
    rw [hlater.placeOf] at hlost
    by_cases hk : k' = k
    · rw [if_pos hk, Option.some.injEq] at hrecord
      exact hrecord ▸ hthere
    · rw [if_neg hk] at hrecord
      refine hlater.isFile (h.proper k' p hrecord) (h.found k' p hrecord fun hold => hlost (hold.cons fun heq => ?_))
      exact hk (OutputEvent.wrote.inj heq).1.symm
  placed := hplaced
  proper k' p hrecord := by
    rw [houtputs, OrderedMap.get?_insert] at hrecord
    by_cases hk : k' = k
    · rw [if_pos hk, Option.some.injEq] at hrecord
      exact hrecord ▸ hproper
    · rw [if_neg hk] at hrecord
      exact h.proper k' p hrecord

/-- Working on a file keeps record, files and log together: nothing but a success writes an output. -/
theorem Tracks.convert (h : Tracks events w) (hp : input.Proper) :
    Tracks (w.runEvents (outcomeOf input (w.file parse toForms input).1) ++ events)
      (w.file parse toForms input).2 := by
  have hworks : Works w parse toForms input (w.file parse toForms input) := works_file h.placed hp
  have hcontinues := hworks.continues
  have hplaced := hcontinues.wellPlaced h.placed
  have htells := hworks.tells
  generalize w.file parse toForms input = result at *
  cases hworks with
  | without product =>
    rw [runEvents_of_not_success fun hs => ?_]
    · exact h.of_outputs_eq hplaced hcontinues.tree.base rfl fun k output hrecord =>
        hcontinues.tree.isFile (h.proper k output hrecord)
    · obtain ⟨output, outcome, hwrites⟩ := htells.success.1 hs
      exact not_opens_of_product_eq_none product hwrites.toOpens
  | failed product written way =>
    rw [runEvents_of_not_success fun hs => ?_]
    · exact h.of_outputs_eq hplaced hcontinues.tree.base rfl fun k output hrecord =>
        hcontinues.tree.isFile (h.proper k output hrecord)
    · obtain ⟨output', outcome', hwrites⟩ := htells.success.1 hs
      obtain ⟨rfl, rfl⟩ := hwrites.inj product
      cases way.ok_iff.2 ⟨hwrites.writable, hwrites.whole⟩
  | written product resolved way =>
    obtain rfl := resolve_eq_ok hp resolved
    obtain ⟨hproper, hparts⟩ := proper_output h.placed hp (plan_of_product product)
    have hwritable := (way.ok_iff.1 rfl).1
    exact h.wrote hplaced hcontinues.tree rfl hproper
      (isFile_of_locate (way.locate hwritable hproper hparts) ⟨_, way.written hwritable⟩)

/-- **Removing an output keeps record, files and log together.** -/
theorem Tracks.removed {deleted : Option Place} (h : Tracks events w) (hremoves : RemovesAt w u input place deleted) :
    Tracks (.removed place deleted :: events) u where
  recorded k := by
    have hplaceOf : u.tree.placeOf = w.tree.placeOf := funext fun p => placeOf_of_base p hremoves.base
    rw [hremoves.outputs, OrderedMap.get?_erase, current]
    by_cases hk : k = place
    · rw [if_pos hk, if_pos hk.symm]
      rfl
    · rw [if_neg hk, if_neg (Ne.symm hk), hplaceOf]
      exact h.recorded k
  explained q k hstanding := by
    rw [standing] at hstanding
    rw [current]
    by_cases hq : deleted = some q
    · rw [if_pos hq] at hstanding
      cases hstanding
    · rw [if_neg hq] at hstanding
      rcases h.explained q k hstanding with hcurrent | hsuperseded
      · by_cases hk : place = k
        · -- the file on record for the input would have been deleted
          subst hk
          obtain ⟨output, hrecord, rfl⟩ := Option.map_eq_some_iff.1 ((h.recorded place).trans hcurrent)
          have hfile := h.found place output hrecord (not_lost_of_standing hstanding)
          exact (hq (hremoves.own output hrecord (h.proper place output hrecord) hfile).1).elim
        · rw [if_neg hk]
          exact .inl hcurrent
      · exact .inr (hsuperseded.cons nofun)
  found k output hrecord hlost := by
    rw [hremoves.outputs, OrderedMap.get?_erase] at hrecord
    rw [placeOf_of_base output hremoves.base] at hlost
    by_cases hk : k = place
    · rw [if_pos hk] at hrecord
      cases hrecord
    · rw [if_neg hk] at hrecord
      have hcurrent : current k events = some (w.tree.placeOf output) := by
        rw [← h.recorded k, hrecord]
        rfl
      refine hremoves.others output (h.proper k output hrecord) (fun hdeleted => hlost ?_)
        (h.found k output hrecord fun hold => hlost (hold.cons nofun))
      rw [hdeleted]
      exact lost_of_removed hcurrent
  placed := ⟨hremoves.rooted h.placed.rooted, hremoves.base ▸ h.placed.base, hremoves.settings ▸ h.placed.directory⟩
  proper k output hrecord := by
    rw [hremoves.outputs, OrderedMap.get?_erase] at hrecord
    by_cases hk : k = place
    · rw [if_pos hk] at hrecord
      cases hrecord
    · rw [if_neg hk] at hrecord
      exact h.proper k output hrecord

theorem Tracks.remove (h : Tracks events w) (input : Path) :
    Tracks (w.removeEvents input ++ events) (w.removeOutput input).2 := by
  unfold removeEvents
  cases hplace : input.resolve w.tree.base with
  | error e =>
    have hsame : (w.removeOutput input).2 = w := by
      unfold removeOutput
      rw [hplace]
    rw [hsame]
    exact h
  | ok place => exact h.removed (removesAt hplace)

end Workshop
end Argot
