import Argot.Proofs.Files.Making
/-!
# Writing — what writing a file with its way does to a tree

A file is opened with the directories on its way if the way is clear and nothing at its place bars it; it then has as
much of what is written as there is room for, and nothing but its place and missing directories on its way change
(`writeWithWay_spec`).  What keeps a file from being written does so in later trees as well and in the same words, unless
directories were made before the refusal (`Later.writeWithWay_error`).
-/
namespace Argot
namespace FileTree

open Argot.Path

variable {t t' : FileTree} {here place q : Place} {parts : List String} {p : Path} {e : SystemError}

/-- Why the system refuses to write at a path, even if the directory is there and nothing else is. -/
def refusal? (p : Path) : Option SystemFault :=
  if hasNull p.toString then some .nullCharacter
  else if p.toString.utf8ByteSize > maxPathBytes || p.name.utf8ByteSize > maxNameBytes then some .nameTooLong
  else none

theorem refusal?_eq_none_iff : refusal? p = none ↔ Askable p ∧ p.name.utf8ByteSize ≤ maxNameBytes := by
  unfold refusal? Askable
  by_cases hnull : hasNull p.toString = true
  · simp [hnull]
  · rw [if_neg hnull]
    simp [hnull]

theorem locate_of_walk {name : String} (hp : p.Proper) (hparts : p.parts = parts ++ [name])
    (hwalk : t.walk (t.startOf p) parts = .ok here) (hdir : t.entry? here = some .directory) :
    t.locate p = match refusal? p with
      | some f => .error ⟨f, p⟩
      | none => .ok (t.placeOf p) := by
  have hname : p.name = name := by
    unfold Path.name
    rw [hparts, List.getLastD_concat]
  have hway : t.walk (t.startOf p) p.parts =
      if p.name.utf8ByteSize > maxNameBytes then .error .nameTooLong else .ok (t.placeOf p) := by
    rw [placeOf, hparts, walk_append, hwalk, hname, endOf_append, ← (walk_eq_ok_iff.1 hwalk).1]
    exact walk_cons_of_directory name [] hdir
  by_cases hask : Askable p
  · have hrefusal : refusal? p = if p.name.utf8ByteSize > maxNameBytes then some .nameTooLong else none := by
      unfold refusal?
      rw [if_neg (by simp [hask.1])]
      simp [Nat.not_lt.2 hask.2]
    rw [locate_of_askable hp hask, hway, hrefusal]
    split <;> rfl
  · unfold locate refusal?
    by_cases hnull : hasNull p.toString = true
    · rw [if_pos hnull, if_pos hnull]
    · have hlong : p.toString.utf8ByteSize > maxPathBytes := by
        by_contra hshort
        exact hask ⟨by simpa using hnull, Nat.le_of_not_gt hshort⟩
      rw [if_neg hnull, if_pos hlong, if_neg hnull, if_pos (by simp [hlong])]

/-- What keeps the system from opening what is at a place for writing. -/
def barred : Option Entry → Option SystemFault
  | none => none
  | some .directory => some .isDirectory
  | some (.file _ status) => if status.writable then none else some .denied

theorem barred_file (bytes : List UInt8) (status : FileStatus) :
    barred (some (.file bytes status)) = if status.writable then none else some .denied := rfl

theorem barred_eq_none_iff {found : Option Entry} : barred found = none ↔
    found ≠ some .directory ∧ ∀ bytes status, found = some (.file bytes status) → status.writable = true := by
  rcases found with _ | (_ | ⟨bytes, status⟩)
  · exact iff_of_true rfl ⟨nofun, nofun⟩
  · exact iff_of_false nofun fun h => h.1 rfl
  · rw [barred_file]
    by_cases hwritable : status.writable = true
    · rw [if_pos hwritable]
      refine iff_of_true rfl ⟨nofun, ?_⟩
      rintro _ _ ⟨⟩
      exact hwritable
    · rw [if_neg hwritable]
      exact iff_of_false nofun fun h => hwritable (h.2 _ _ rfl)

/-- A file that bars itself is closed to writing, and every other bar is a directory. -/
theorem barred_of_isFileAt {f : SystemFault} (hfile : t.IsFileAt place) (hbarred : barred (t.entry? place) = some f) :
    f = .denied := by
  obtain ⟨bytes, status, hentry⟩ := hfile
  rw [hentry, barred_file] at hbarred
  by_cases hwritable : status.writable = true
  · rw [if_pos hwritable] at hbarred
    cases hbarred
  · rw [if_neg hwritable] at hbarred
    exact (Option.some.inj hbarred).symm

theorem directory_of_barred {f : SystemFault} (hfile : ¬t.IsFileAt place) (hbarred : barred (t.entry? place) = some f) :
    f = .isDirectory ∧ t.entry? place = some .directory := by
  rcases hentry : t.entry? place with _ | (_ | ⟨bytes, status⟩)
  · rw [hentry] at hbarred
    cases hbarred
  · rw [hentry] at hbarred
    exact ⟨(Option.some.inj hbarred).symm, rfl⟩
  · exact (hfile ⟨bytes, status, hentry⟩).elim

/-- Opening at a place that a path leads to. -/
theorem openToWrite_of_locate (hlocate : t.locate p = .ok place) (stamp : Stamp) :
    ∃ status, t.openToWrite p stamp = match barred (t.entry? place) with
      | some f => .error ⟨f, p⟩
      | none => .ok (place, status) := by
  unfold openToWrite
  rw [hlocate]
  dsimp only [bind, Except.bind]
  rcases t.entry? place with _ | (_ | ⟨bytes, status⟩)
  · exact ⟨{ stamp }, rfl⟩
  · exact ⟨{ stamp }, rfl⟩
  · refine ⟨{ status with stamp }, ?_⟩
    rw [barred_file]
    dsimp only
    by_cases hwritable : status.writable = true
    · rw [if_pos hwritable, if_pos hwritable]
    · rw [if_neg hwritable, if_neg hwritable]

/-- Writing at a path whose directory is there: the tree after it has at most one more file than one with the same
entries. -/
theorem write_of_walk {name : String} (hp : p.Proper) (hparts : p.parts = parts ++ [name])
    (hwalk : t.walk (t.startOf p) parts = .ok here) (hdir : t.entry? here = some .directory) (bytes : List UInt8) :
    ∃ writes status, t.write p bytes = match (refusal? p).or (barred (t.entry? (t.placeOf p))) with
      | some f => (.error ⟨f, p⟩, { t with writes })
      | none => (if t.fitting (t.placeOf p) bytes = bytes then .ok () else .error ⟨.noSpace, p⟩,
          put { t with writes } (t.placeOf p) (.file (t.fitting (t.placeOf p) bytes) status)) := by
  have hlocate := locate_of_walk hp hparts hwalk hdir
  unfold write writeStamped
  cases hrefusal : refusal? p with
  | some f =>
    rw [hrefusal] at hlocate
    refine ⟨t.writes + 1, { stamp := .given 0 }, ?_⟩
    unfold openToWrite
    rw [hlocate]
    rfl
  | none =>
    rw [hrefusal] at hlocate
    obtain ⟨status, hopen⟩ := openToWrite_of_locate hlocate (.written t.writes)
    refine ⟨t.writes + 1, status, ?_⟩
    rw [hopen, Option.none_or]
    cases barred (t.entry? (t.placeOf p)) <;> rfl

/-- Writes a file after making the directories on its way. -/
def writeWithWay (t : FileTree) (p : Path) (bytes : List UInt8) : Except SystemError Unit × FileTree :=
  match t.makeDirectories p.parent with
  | (.error e, t) => (.error e, t)
  | (.ok (), t) => t.write p bytes

/-- The places where a file at a path needs directories, as far as they can be made. -/
def Makes (t : FileTree) (p : Path) (q : Place) : Prop :=
  Askable p.parent ∧ t.Reached (t.startOf p) p.parent.parts q

/-- A path where a file can be opened for writing: its way is clear and nothing at its place bars it, nor is a directory
made there. -/
structure Writable (t : FileTree) (p : Path) : Prop where
  accepted : refusal? p = none
  clear : t.Clear (t.startOf p) p.parent.parts
  free : barred (t.entry? (t.placeOf p)) = none
  unmade : ¬t.Makes p (t.placeOf p)

theorem Writable.not_directory (h : t.Writable p) : t.entry? (t.placeOf p) ≠ some .directory :=
  (barred_eq_none_iff.1 h.free).1

/-- What writing a file with its way has to do with the path. -/
structure WritesWithWay (t : FileTree) (p : Path) (bytes : List UInt8) (result : Except SystemError Unit × FileTree) :
    Prop where
  base : result.2.base = t.base
  room : result.2.room = t.room
  ok_iff : result.1 = .ok () ↔ t.Writable p ∧ t.fitting (t.placeOf p) bytes = bytes
  /-- What was opened has the beginning of the bytes, and all of them if nothing failed. -/
  written : t.Writable p → ∃ status,
    entry? result.2 (t.placeOf p) = some (.file (t.fitting (t.placeOf p) bytes) status)
  brokenOff : t.Writable p → t.fitting (t.placeOf p) bytes ≠ bytes → result.1 = .error ⟨.noSpace, p⟩
  made : ∀ q, t.Makes p q → entry? result.2 q = some .directory
  kept : ∀ q, ¬t.Makes p q → ¬(t.Writable p ∧ q = t.placeOf p) → entry? result.2 q = t.entry? q

/-- What is not opened leaves nothing but directories behind. -/
theorem WritesWithWay.of_filled {bytes : List UInt8} {result : Except SystemError Unit × FileTree}
    (hfilled : Filled t result.2 (t.Makes p)) (hnot : ¬t.Writable p) (hfailed : result.1 ≠ .ok ()) :
    WritesWithWay t p bytes result where
  base := hfilled.base
  room := hfilled.room
  ok_iff := iff_of_false hfailed fun h => hnot h.1
  written := fun h => (hnot h).elim
  brokenOff := fun h => (hnot h).elim
  made := hfilled.made
  kept := fun q hq _ => hfilled.kept q hq

theorem askable_parent (h : Askable p) : Askable p.parent := by
  by_cases hparts : p.parts = []
  · have hself : p.parent = p := by
      unfold Path.parent
      rw [hparts]
      exact congrArg (Path.mk p.root) hparts.symm
    rwa [hself]
  · have hsplit := parent_append_name hparts
    have hp : p = ⟨p.root, p.parent.parts ++ [p.name]⟩ := by
      rw [← hsplit]
    rw [hp] at h
    exact askable_of_append h

/-- Making directories for a path changes nothing else. -/
theorem filled_makeDirectories (ht : t.Rooted) (hp : p.Proper) (hask : Askable p.parent) :
    Filled t (t.makeDirectories p.parent).2 (t.Makes p) := by
  obtain ⟨hfilled, -, -⟩ := makeDirectories_spec ht hp.parent hask
  exact ⟨hfilled.base, hfilled.room, fun q hq => hfilled.made q hq.2, fun q hq => hfilled.kept q fun h => hq ⟨hask, h⟩⟩

/-- Where the way is clear, only a refusal of the path, what is at its place or a lack of room keeps a file from being
written. -/
theorem writeWithWay_of_clear (ht : t.Rooted) (hp : p.Proper) (hparts : p.parts ≠ []) (hask : Askable p.parent)
    (hclear : t.Clear (t.startOf p) p.parent.parts) (bytes : List UInt8) :
    ∃ t' status, Filled t t' (t.Makes p) ∧
      t.writeWithWay p bytes = match (refusal? p).or (barred (t'.entry? (t.placeOf p))) with
        | some f => (.error ⟨f, p⟩, t')
        | none => (if t.fitting (t.placeOf p) bytes = bytes then .ok () else .error ⟨.noSpace, p⟩,
            t'.put (t.placeOf p) (.file (t.fitting (t.placeOf p) bytes) status)) := by
  have hfilled := filled_makeDirectories ht hp hask
  obtain ⟨hway, hok, -⟩ := makeDirectories_spec ht hp.parent hask
  unfold writeWithWay
  generalize t.makeDirectories p.parent = result at hfilled hway hok ⊢
  obtain ⟨made, t'⟩ := result
  obtain rfl : made = .ok () := hok.2 hclear
  obtain ⟨hwalk, hdir⟩ := walk_of_filled hway hclear
  have hstart : t'.startOf p = t.startOf p := startOf_of_base p hfilled.base
  have hplace : t'.placeOf p = t.placeOf p := placeOf_of_base p hfilled.base
  obtain ⟨writes, status, hwrite⟩ :=
    write_of_walk hp (parent_append_name hparts) (hstart ▸ hwalk) hdir bytes
  refine ⟨{ t' with writes }, status, ⟨hfilled.base, hfilled.room, hfilled.made, hfilled.kept⟩, ?_⟩
  dsimp only at hwrite ⊢
  rw [hwrite, hplace, fitting_of_room _ _ hfilled.room]
  rfl

/-- **A file is opened with its way or not at all**, and nothing else changes but the directories that are made. -/
theorem writeWithWay_spec (ht : t.Rooted) (hp : p.Proper) (hparts : p.parts ≠ []) (bytes : List UInt8) :
    WritesWithWay t p bytes (t.writeWithWay p bytes) := by
  by_cases hask : Askable p.parent
  · by_cases hclear : t.Clear (t.startOf p) p.parent.parts
    · obtain ⟨t', status, hfilled, hwrite⟩ := writeWithWay_of_clear ht hp hparts hask hclear bytes
      rw [hwrite]
      rcases hopen : (refusal? p).or (barred (t'.entry? (t.placeOf p))) with _ | f
      · rw [Option.or_eq_none_iff] at hopen
        have hunmade : ¬t.Makes p (t.placeOf p) := fun hm => by
          rw [hfilled.made _ hm] at hopen
          cases hopen.2
        have hyes : t.Writable p := ⟨hopen.1, hclear, hfilled.kept _ hunmade ▸ hopen.2, hunmade⟩
        exact {
          base := hfilled.base
          room := hfilled.room
          ok_iff := by
            dsimp only
            by_cases hfits : t.fitting (t.placeOf p) bytes = bytes
            · rw [if_pos hfits]
              exact iff_of_true rfl ⟨hyes, hfits⟩
            · rw [if_neg hfits]
              exact iff_of_false nofun fun h => hfits h.2
          written := fun _ => ⟨status, (entry?_put _ _ _).trans (if_pos rfl)⟩
          brokenOff := fun _ hshort => if_neg hshort
          made := fun q hq => by
            have hne : q ≠ t.placeOf p := fun h => hunmade (h ▸ hq)
            exact ((entry?_put _ _ _).trans (if_neg hne)).trans (hfilled.made q hq)
          kept := fun q hq hne => by
            have hne' : q ≠ t.placeOf p := fun h => hne ⟨hyes, h⟩
            exact ((entry?_put _ _ _).trans (if_neg hne')).trans (hfilled.kept q hq) }
      · refine .of_filled hfilled (fun h => ?_) nofun
        rw [h.accepted, Option.none_or, hfilled.kept _ h.unmade, h.free] at hopen
        cases hopen
    · have hfilled := filled_makeDirectories ht hp hask
      have hok := (makeDirectories_spec ht hp.parent hask).ok_iff
      unfold writeWithWay
      generalize t.makeDirectories p.parent = result at hfilled hok ⊢
      obtain ⟨e | ⟨⟩, t'⟩ := result
      · exact .of_filled hfilled (fun h => hclear h.clear) nofun
      · exact (hclear (hok.1 rfl)).elim
  · have hnot : ¬t.Writable p := fun h => hask (askable_parent (refusal?_eq_none_iff.1 h.accepted).1)
    obtain ⟨f, hmake⟩ := exists_makeDirectories_of_not_askable hask
    unfold writeWithWay
    rw [hmake]
    exact .of_filled ⟨rfl, rfl, fun q hq => (hask hq.1).elim, fun _ _ => rfl⟩ hnot nofun

theorem Reached.not_isFileAt (h : t.Reached here parts q) : ¬t.IsFileAt q := by
  obtain ⟨pre, rest, -, hclear, rfl⟩ := h
  exact hclear.noFile pre [] (List.append_nil _).symm

theorem Makes.not_isFileAt (h : t.Makes p q) : ¬t.IsFileAt q :=
  h.2.not_isFileAt

theorem WritesWithWay.later {bytes : List UInt8} {result : Except SystemError Unit × FileTree}
    (h : WritesWithWay t p bytes result) : Later t result.2 where
  base := h.base
  room := h.room
  directory := fun q hq => by
    by_cases hmade : t.Makes p q
    · exact h.made q hmade
    · exact (h.kept q hmade fun hw => hw.1.not_directory (hw.2 ▸ hq)).trans hq
  file := fun q hq => by
    by_cases hw : t.Writable p ∧ q = t.placeOf p
    · obtain ⟨hwritable, rfl⟩ := hw
      exact ⟨_, h.written hwritable⟩
    · unfold IsFileAt
      rw [h.kept q (fun hmade => hmade.not_isFileAt hq) hw]
      exact hq

/-- A file that others put where no directory is changes no more than that. -/
theorem later_put {place : Place} (h : t.entry? place ≠ some .directory) (bytes : List UInt8)
    (status : FileStatus) : Later t (t.put place (.file bytes status)) where
  base := rfl
  room := rfl
  directory := fun q hq => by
    have hne : q ≠ place := fun heq => h (heq ▸ hq)
    exact ((entry?_put place q _).trans (if_neg hne)).trans hq
  file := fun q ⟨bytes', status', hq⟩ => by
    by_cases heq : q = place
    · exact ⟨bytes, status, (entry?_put place q _).trans (if_pos heq)⟩
    · exact ⟨bytes', status', ((entry?_put place q _).trans (if_neg heq)).trans hq⟩

/-- What was written can be found. -/
theorem WritesWithWay.locate {bytes : List UInt8} {result : Except SystemError Unit × FileTree}
    (h : WritesWithWay t p bytes result) (hw : t.Writable p) (hp : p.Proper) (hparts : p.parts ≠ []) :
    result.2.locate p = .ok (t.placeOf p) := by
  have hlater := h.later
  have hask : Askable p.parent := askable_parent (refusal?_eq_none_iff.1 hw.accepted).1
  have hmade : ∀ pre rest, p.parent.parts = pre ++ rest →
      entry? result.2 (endOf (t.startOf p) pre) = some .directory := fun pre rest hway =>
    h.made _ ⟨hask, pre, rest, hway, (hway ▸ hw.clear : t.Clear _ (pre ++ rest)).of_append, rfl⟩
  have hwalk : result.2.walk (result.2.startOf p) p.parent.parts = .ok (endOf (t.startOf p) p.parent.parts) := by
    rw [hlater.startOf]
    exact walk_eq_ok_iff.2 ⟨rfl, hw.clear.short, fun pre c rest hway => hmade pre (c :: rest) hway⟩
  have hlocate := locate_of_walk hp (parent_append_name hparts) hwalk (hmade _ [] (List.append_nil _).symm)
  rw [hw.accepted] at hlocate
  rw [hlocate, hlater.placeOf]

/-! ## Refusals -/

/-- Whether some directories of a path are made, but not all. -/
def StopsHalfway (t : FileTree) (p : Path) : Prop :=
  ∃ e q, (t.makeDirectories p).1 = .error e ∧ t.entry? q = none ∧ entry? (t.makeDirectories p).2 q = some .directory

/-- Where the way of a file is blocked, the fault is that of making its directory. -/
theorem writeWithWay_of_blocked (ht : t.Rooted) (hp : p.Proper) (hask : Askable p.parent)
    (hclear : ¬t.Clear (t.startOf p) p.parent.parts) (bytes : List UInt8) :
    ∃ e, (t.makeDirectories p.parent).1 = .error e ∧ (t.writeWithWay p bytes).1 = .error e ∧
      e.fault ≠ .nullCharacter := by
  obtain ⟨-, hok, hfault⟩ := makeDirectories_spec ht hp.parent hask
  unfold writeWithWay
  generalize t.makeDirectories p.parent = result at hok hfault ⊢
  obtain ⟨e | ⟨⟩, t'⟩ := result
  · exact ⟨e, rfl, rfl, hfault e rfl⟩
  · exact (hclear (hok.1 rfl)).elim

theorem fault_of_blocked {bytes : List UInt8} (ht : t.Rooted) (hp : p.Proper) (hask : Askable p.parent)
    (hclear : ¬t.Clear (t.startOf p) p.parent.parts) (he : (t.writeWithWay p bytes).1 = .error e) :
    e.fault ≠ .nullCharacter := by
  obtain ⟨e', -, he', hfault⟩ := writeWithWay_of_blocked ht hp hask hclear bytes
  rw [he'] at he
  cases he
  exact hfault

/-- Only a way that is asked for and blocked stops halfway. -/
theorem StopsHalfway.blocked (h : t.StopsHalfway p.parent) (ht : t.Rooted) (hp : p.Proper) :
    Askable p.parent ∧ ¬t.Clear (t.startOf p) p.parent.parts := by
  obtain ⟨e, q, he, hnone, hmade⟩ := h
  have hask : Askable p.parent := by
    by_contra hnot
    obtain ⟨f, hmake⟩ := exists_makeDirectories_of_not_askable hnot
    rw [hmake, hnone] at hmade
    cases hmade
  refine ⟨hask, fun hclear => ?_⟩
  rw [(makeDirectories_spec ht hp.parent hask).ok_iff.2 hclear] at he
  cases he

/-- Where making a directory fails and nothing was made, every directory that was reached is there. -/
theorem directory_of_reached (ht : t.Rooted) (hp : p.Proper) (hask : Askable p) (hmake : (t.makeDirectories p).1 = .error e)
    (hwhole : ¬t.StopsHalfway p) (hq : t.Reached (t.startOf p) p.parts q) : t.entry? q = some .directory := by
  have hmade := (makeDirectories_spec ht hp hask).filled.made q hq
  rcases hentry : t.entry? q with _ | (_ | ⟨bytes, status⟩)
  · exact (hwhole ⟨e, q, hmake, hentry, hmade⟩).elim
  · rfl
  · exact (hq.not_isFileAt ⟨bytes, status, hentry⟩).elim

/-- Where the way is clear, what bars the place of a path does so in later trees as well. -/
theorem Later.barred_eq {u t' u' : FileTree} {f : SystemFault} (h : Later t u)
    (hway : u.Clear (u.startOf p) p.parent.parts) (hnot : ¬u.Writable p) (haccepted : refusal? p = none)
    (hfilled : Filled t t' (t.Makes p)) (hfilled' : Filled u u' (u.Makes p))
    (hbarred : barred (t'.entry? (t.placeOf p)) = some f) : barred (u'.entry? (u.placeOf p)) = some f := by
  rw [h.placeOf]
  by_cases hfile : t'.IsFileAt (t.placeOf p)
  · -- a file that is closed to writing was there before, and nothing was put in its place
    obtain rfl := barred_of_isFileAt hfile hbarred
    have hunmade : ¬t.Makes p (t.placeOf p) := fun hm => not_isFileAt_of_directory (hfilled.made _ hm) hfile
    have hfile' : u.IsFileAt (t.placeOf p) := h.file _ (by
      unfold IsFileAt at hfile ⊢
      rwa [← hfilled.kept _ hunmade])
    have hunmade' : ¬u.Makes p (t.placeOf p) := fun hm => hm.not_isFileAt hfile'
    rw [hfilled'.kept _ hunmade']
    rcases hfree : barred (u.entry? (t.placeOf p)) with _ | f
    · rw [← h.placeOf p] at hfree hunmade'
      exact (hnot ⟨haccepted, hway, hfree, hunmade'⟩).elim
    · exact congrArg some (barred_of_isFileAt hfile' hfree)
  · obtain ⟨rfl, hdir⟩ := directory_of_barred hfile hbarred
    have hdir' : u'.entry? (t.placeOf p) = some .directory := by
      by_cases hm : t.Makes p (t.placeOf p)
      · obtain ⟨hask, pre, rest, hsplit, -, hplace⟩ := hm
        refine hfilled'.made _ ⟨hask, pre, rest, hsplit, Clear.of_append (hsplit ▸ hway), ?_⟩
        rw [h.startOf]
        exact hplace
      · have hthere := h.directory _ ((hfilled.kept _ hm).symm.trans hdir)
        by_cases hm' : u.Makes p (t.placeOf p)
        · exact hfilled'.made _ hm'
        · exact (hfilled'.kept _ hm').trans hthere
    rw [hdir']
    rfl

/-- Where the way is clear, what is not opened is refused for the path itself or for what is at its place. -/
theorem Later.writeWithWay_error_of_clear {u : FileTree} {bytes : List UInt8} (h : Later t u) (ht : t.Rooted)
    (hp : p.Proper) (hparts : p.parts ≠ []) (hask : Askable p.parent) (hway : t.Clear (t.startOf p) p.parent.parts)
    (hway' : u.Clear (t.startOf p) p.parent.parts) (hnot : ¬t.Writable p) (hnot' : ¬u.Writable p)
    (he : (t.writeWithWay p bytes).1 = .error e) : (u.writeWithWay p bytes).1 = .error e := by
  rw [← h.startOf] at hway'
  obtain ⟨t', status, hfilled, hwrite⟩ := writeWithWay_of_clear ht hp hparts hask hway bytes
  obtain ⟨u', status', hfilled', hwrite'⟩ := writeWithWay_of_clear (h.rooted ht) hp hparts hask hway' bytes
  rw [hwrite] at he
  rw [hwrite']
  cases hr : refusal? p with
  | some f =>
    rw [hr] at he
    exact he
  | none =>
    rw [hr, Option.none_or] at he
    rw [Option.none_or]
    rcases hbarred : barred (t'.entry? (t.placeOf p)) with _ | f
    · have hunmade : ¬t.Makes p (t.placeOf p) := fun hm => by
        rw [hfilled.made _ hm] at hbarred
        cases hbarred
      rw [hfilled.kept _ hunmade] at hbarred
      exact (hnot ⟨hr, hway, hbarred, hunmade⟩).elim
    · rw [hbarred] at he
      rw [h.barred_eq hway' hnot' hr hfilled hfilled' hbarred]
      exact he

/-- **What fails without stopping halfway fails in the same words ever after**, where nothing more is in the way. -/
theorem Later.writeWithWay_error {u : FileTree} {bytes : List UInt8} (h : Later t u) (ht : t.Rooted)
    (hp : p.Proper) (hparts : p.parts ≠ []) (hclear : u.Clear (t.startOf p) p.parent.parts ↔
      t.Clear (t.startOf p) p.parent.parts) (hwritable : u.Writable p ↔ t.Writable p)
    (hwhole : ¬t.StopsHalfway p.parent) (he : (t.writeWithWay p bytes).1 = .error e) :
    (u.writeWithWay p bytes).1 = .error e := by
  have hspec := writeWithWay_spec ht hp hparts bytes
  have hspec' := writeWithWay_spec (h.rooted ht) hp hparts bytes
  by_cases hyes : t.Writable p
  · -- what is opened breaks off for lack of room, which is the same in both trees
    have hshort : t.fitting (t.placeOf p) bytes ≠ bytes := fun hfits => by
      rw [hspec.ok_iff.2 ⟨hyes, hfits⟩] at he
      cases he
    rw [hspec.brokenOff hyes hshort] at he
    rw [← he]
    refine hspec'.brokenOff (hwritable.2 hyes) ?_
    rwa [h.placeOf, fitting_of_room _ _ h.room]
  by_cases hask : Askable p.parent
  · by_cases hway : t.Clear (t.startOf p) p.parent.parts
    · exact h.writeWithWay_error_of_clear ht hp hparts hask hway (hclear.2 hway) hyes (mt hwritable.1 hyes) he
    · obtain ⟨e', hmake, hwrite, -⟩ := writeWithWay_of_blocked ht hp hask hway bytes
      rw [hwrite] at he
      cases he
      -- nothing was made before the refusal, so that the later tree stops at the same place
      have hmake' := h.makeDirectories_error hp.parent hask
        (fun q hq => directory_of_reached ht hp.parent hask hmake hwhole hq) hmake
      unfold writeWithWay
      generalize u.makeDirectories p.parent = result at hmake' ⊢
      obtain ⟨e' | ⟨⟩, u'⟩ := result
      · exact hmake'
      · cases hmake'
  · obtain ⟨f, hmake⟩ := exists_makeDirectories_of_not_askable hask
    unfold writeWithWay at he ⊢
    rw [hmake] at he ⊢
    exact he

end FileTree
end Argot
