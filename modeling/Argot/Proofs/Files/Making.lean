import Argot.Proofs.Files.Trees
/-!
# Making — what making directories does to a tree

Making a directory with those above it goes along the way of its path until a file or too long a name blocks it, and
makes every directory up to there that is missing (`makeDirectories_spec`).  It succeeds if nothing blocks the way
(`Clear`).
-/
namespace Argot
namespace FileTree

open Argot.Path

variable {t t' : FileTree} {here place q : Place} {parts : List String} {part : String} {p : Path} {e : SystemError}

/-! ## Askable beginnings -/

theorem askable_of_append {root : String} {rest : List String} (h : Askable ⟨root, parts ++ rest⟩) :
    Askable ⟨root, parts⟩ := by
  by_cases hhere : root.isEmpty = true ∧ parts.isEmpty = true
  · have hdot : Path.toString ⟨root, parts⟩ = "." := by
      unfold Path.toString
      rw [if_pos (by simpa using hhere)]
    unfold Askable
    rw [hdot]
    exact ⟨by decide, by decide⟩
  · obtain ⟨behind, hbehind⟩ : ∃ behind, Path.toString ⟨root, parts ++ rest⟩ = Path.toString ⟨root, parts⟩ ++ behind := by
      have hwhole : ¬(root.isEmpty && (parts ++ rest).isEmpty) = true := fun hw => hhere (by
        rw [Bool.and_eq_true, List.isEmpty_iff, List.append_eq_nil_iff] at hw
        exact ⟨hw.1, by simp [hw.2.1]⟩)
      unfold Path.toString
      rw [if_neg hwhole, if_neg (by simpa using hhere)]
      by_cases hrest : rest = []
      · exact ⟨"", by simp [hrest]⟩
      · by_cases hparts : parts = []
        · exact ⟨"/".intercalate rest, by simp [hparts]⟩
        · exact ⟨"/" ++ "/".intercalate rest, by
            simp [String.intercalate_append_of_ne_nil hparts hrest, String.append_assoc]⟩
    obtain ⟨hnull, hsize⟩ := h
    rw [hbehind] at hnull hsize
    rw [String.utf8ByteSize_append] at hsize
    refine ⟨?_, by omega⟩
    unfold hasNull at hnull ⊢
    rw [String.toList_append, List.contains_eq_mem, decide_eq_false_iff_not, List.mem_append, not_or] at hnull
    simpa using hnull.1

/-! ## Clear ways -/

/-- Nothing on a way blocks it: no file, and no name that is too long. -/
structure Clear (t : FileTree) (here : Place) (parts : List String) : Prop where
  short : Short parts
  noFile : ∀ pre rest, parts = pre ++ rest → ¬t.IsFileAt (endOf here pre)

/-- A place on a way in front of all that blocks it. -/
def Reached (t : FileTree) (here : Place) (parts : List String) (q : Place) : Prop :=
  ∃ pre rest, parts = pre ++ rest ∧ t.Clear here pre ∧ q = endOf here pre

theorem not_isFileAt_of_directory (h : t.entry? place = some .directory) : ¬t.IsFileAt place := by
  rintro ⟨bytes, status, hfile⟩
  rw [h] at hfile
  cases hfile

theorem clear_concat_iff : t.Clear here (parts ++ [part]) ↔
    t.Clear here parts ∧ part.utf8ByteSize ≤ maxNameBytes ∧ ¬t.IsFileAt (endOf here (parts ++ [part])) := by
  constructor
  · rintro ⟨hshort, hfile⟩
    refine ⟨⟨fun c hc => hshort c (List.mem_append_left _ hc), fun pre rest hsplit => ?_⟩,
      hshort part (by simp), hfile _ [] (List.append_nil _).symm⟩
    exact hfile pre (rest ++ [part]) (by rw [hsplit, List.append_assoc])
  · rintro ⟨⟨hshort, hfile⟩, hpart, hlast⟩
    refine ⟨fun c hc => ?_, fun pre rest hsplit => ?_⟩
    · rcases List.mem_append.1 hc with hc | hc
      · exact hshort c hc
      · rw [List.mem_singleton] at hc
        exact hc ▸ hpart
    · rcases List.eq_nil_or_concat rest with rfl | ⟨rest, c, rfl⟩
      · rw [List.append_nil] at hsplit
        exact hsplit ▸ hlast
      · rw [List.concat_eq_append, ← List.append_assoc] at hsplit
        exact hfile pre rest (List.append_inj' hsplit rfl).1

theorem Clear.of_append {rest : List String} (h : t.Clear here (parts ++ rest)) : t.Clear here parts where
  short := fun c hc => h.short c (List.mem_append_left _ hc)
  noFile := fun pre rest' hsplit => h.noFile pre (rest' ++ rest) (by rw [hsplit, List.append_assoc])

theorem reached_concat_iff : t.Reached here (parts ++ [part]) q ↔
    t.Reached here parts q ∨ t.Clear here (parts ++ [part]) ∧ q = endOf here (parts ++ [part]) := by
  constructor
  · rintro ⟨pre, rest, hsplit, hclear, rfl⟩
    rcases List.eq_nil_or_concat rest with rfl | ⟨rest, c, rfl⟩
    · rw [List.append_nil] at hsplit
      exact .inr ⟨hsplit ▸ hclear, by rw [hsplit]⟩
    · rw [List.concat_eq_append, ← List.append_assoc] at hsplit
      exact .inl ⟨pre, rest, (List.append_inj' hsplit rfl).1, hclear, rfl⟩
  · rintro (⟨pre, rest, hsplit, hclear, rfl⟩ | ⟨hclear, rfl⟩)
    · exact ⟨pre, rest ++ [part], by rw [hsplit, List.append_assoc], hclear, rfl⟩
    · exact ⟨_, [], (List.append_nil _).symm, hclear, rfl⟩

/-- A way through directories is clear, and so is the place it leads to unless a file is there. -/
theorem reached_of_walk (hwalk : t.walk here parts = .ok place) (h : t.Reached here parts q) :
    q = place ∨ t.entry? q = some .directory := by
  obtain ⟨rfl, -, hway⟩ := walk_eq_ok_iff.1 hwalk
  obtain ⟨pre, rest, rfl, -, rfl⟩ := h
  cases rest with
  | nil => exact .inl (by rw [List.append_nil])
  | cons part rest => exact .inr (hway pre part rest rfl)

theorem clear_iff_of_walk (hwalk : t.walk here parts = .ok place) : t.Clear here parts ↔ ¬t.IsFileAt place := by
  obtain ⟨rfl, hshort, hway⟩ := walk_eq_ok_iff.1 hwalk
  constructor
  · exact fun h => h.noFile parts [] (List.append_nil _).symm
  · refine fun h => ⟨hshort, fun pre rest hsplit => ?_⟩
    cases rest with
    | nil =>
      rw [List.append_nil] at hsplit
      exact hsplit ▸ h
    | cons part rest => exact not_isFileAt_of_directory (hway pre part rest hsplit)

/-- Behind what blocks a way nothing is reached. -/
theorem reached_of_walk_error {f : SystemFault} (hwalk : t.walk here parts = .error f) (hf : f ≠ .missing) :
    ¬t.Clear here parts ∧ ∀ q, t.Reached here parts q → t.entry? q = some .directory := by
  obtain ⟨pre, part, rest, rfl, hpre, hends⟩ := walk_eq_error hwalk
  have hblocked : ∀ more, ¬t.Clear here (pre ++ part :: more) := by
    intro more hclear
    rcases hends with ⟨rfl, -⟩ | ⟨-, hfile⟩ | ⟨-, -, hlong⟩
    · exact hf rfl
    · exact hclear.noFile pre _ rfl hfile
    · exact absurd (hclear.short part (by simp)) (Nat.not_le.2 hlong)
  refine ⟨hblocked rest, ?_⟩
  rintro q ⟨pre', rest', hsplit, hclear, rfl⟩
  rcases List.append_eq_append_iff.1 hsplit with ⟨more, rfl, hmore⟩ | ⟨more, rfl, -⟩
  · cases more with
    | nil =>
      rw [List.append_nil]
      rw [List.append_nil] at hclear
      rcases hends with ⟨rfl, -⟩ | ⟨-, hfile⟩ | ⟨-, hdir, -⟩
      · exact (hf rfl).elim
      · exact (hclear.noFile pre [] (List.append_nil _).symm hfile).elim
      · exact hdir
    | cons c more =>
      rw [List.cons_append, List.cons.injEq] at hmore
      obtain ⟨rfl, -⟩ := hmore
      exact (hblocked more hclear).elim
  · cases more with
    | nil =>
      rw [List.append_nil] at hpre hends
      rcases hends with ⟨rfl, -⟩ | ⟨-, hfile⟩ | ⟨-, hdir, -⟩
      · exact (hf rfl).elim
      · exact (hclear.noFile pre' [] (List.append_nil _).symm hfile).elim
      · exact hdir
    | cons c more => exact (walk_eq_ok_iff.1 hpre).2.2 pre' c more rfl

/-- Where a way breaks off, the place where nothing is would be reached. -/
theorem exists_reached_of_missing (hwalk : t.walk here parts = .error .missing) :
    ∃ q, t.Reached here parts q ∧ t.entry? q = none := by
  obtain ⟨pre, part, rest, rfl, hpre, ⟨-, hnone⟩ | ⟨hf, -⟩ | ⟨hf, -⟩⟩ := walk_eq_error hwalk
  · refine ⟨_, ⟨pre, part :: rest, rfl, (clear_iff_of_walk hpre).2 ?_, rfl⟩, hnone⟩
    rintro ⟨bytes, status, hfile⟩
    rw [hnone] at hfile
    cases hfile
  · cases hf
  · cases hf

/-! ## Making directories -/

/-- One tree is another with directories at some places. -/
structure Filled (t t' : FileTree) (at' : Place → Prop) : Prop where
  base : t'.base = t.base
  room : t'.room = t.room
  made : ∀ q, at' q → t'.entry? q = some .directory
  kept : ∀ q, ¬at' q → t'.entry? q = t.entry? q

theorem Filled.of_directories {at' : Place → Prop} (h : ∀ q, at' q → t.entry? q = some .directory) :
    Filled t t at' :=
  ⟨rfl, rfl, h, fun _ _ => rfl⟩

theorem entry?_put (place q : Place) (e : Entry) :
    entry? (t.put place e) q = if q = place then some e else t.entry? q :=
  t.entries.get?_insert place q e

/-- A directory is made where a path leads to nothing. -/
theorem makeDirectory_of_locate (h : t.locate p = .ok place) : t.makeDirectory p =
    match t.entry? place with
    | some _ => .error ⟨.exists, p⟩
    | none => .ok (t.put place .directory) := by
  unfold makeDirectory
  rw [h]
  rfl

theorem makeDirectory_of_error (h : t.locate p = .error e) : t.makeDirectory p = .error e := by
  unfold makeDirectory
  rw [h]
  rfl

theorem unlessThere_of_locate (h : t.locate p = .ok place) :
    t.unlessThere p e = if t.entry? place = some .directory then .ok () else .error e := by
  unfold unlessThere isDirectory look
  rw [h]
  dsimp only
  generalize t.entry? place = found
  rcases found with _ | (_ | ⟨bytes, status⟩) <;> simp [Except.map, bind, Except.bind, pure, Except.pure]

theorem unlessThere_of_error (h : t.locate p = .error e) : t.unlessThere p e = .error e := by
  unfold unlessThere isDirectory look
  rw [h]
  dsimp only
  by_cases hlong : e.fault = .nameTooLong
  · rw [if_pos hlong]
    rfl
  · rw [if_neg hlong]
    rfl

/-- Making one directory, where a refusal does not count if it is there. -/
def attempt (t : FileTree) (p : Path) : Except SystemError Unit × FileTree :=
  match t.makeDirectory p with
  | .ok t => (.ok (), t)
  | .error e => (t.unlessThere p e, t)

theorem attempt_of_walk_error (hp : p.Proper) (hask : Askable p) (hwalk : t.walk (t.startOf p) p.parts = .error f) :
    t.attempt p = (.error ⟨f, p⟩, t) := by
  have hlocate : t.locate p = .error ⟨f, p⟩ := by
    rw [locate_of_askable hp hask, hwalk]
    rfl
  unfold attempt
  rw [makeDirectory_of_error hlocate]
  dsimp only
  rw [unlessThere_of_error hlocate]

theorem attempt_of_isFileAt (hp : p.Proper) (hask : Askable p) (hwalk : t.walk (t.startOf p) p.parts = .ok place)
    (hfile : t.IsFileAt place) : t.attempt p = (.error ⟨.exists, p⟩, t) := by
  obtain ⟨bytes, status, hentry⟩ := hfile
  have hlocate : t.locate p = .ok place := (locate_eq_ok_iff hp).2 ⟨hask, hwalk⟩
  unfold attempt
  rw [makeDirectory_of_locate hlocate, hentry]
  dsimp only
  rw [unlessThere_of_locate hlocate, if_neg (by simp [hentry])]

theorem makeDirectoriesFrom_of_not_missing {root : String}
    (h : ∀ e, t.makeDirectory ⟨root, parts.reverse⟩ = .error e → e.fault ≠ .missing) :
    makeDirectoriesFrom root parts t = t.attempt ⟨root, parts.reverse⟩ := by
  unfold makeDirectoriesFrom attempt
  dsimp only
  rcases hmake : t.makeDirectory ⟨root, parts.reverse⟩ with ⟨f, path⟩ | made
  · have hf := h _ hmake
    cases f
    case missing => exact (hf rfl).elim
    all_goals rfl
  · rfl

theorem makeDirectoriesFrom_of_missing {root : String} {above : List String} {path : Path}
    (h : t.makeDirectory ⟨root, (part :: above).reverse⟩ = .error ⟨.missing, path⟩) :
    makeDirectoriesFrom root (part :: above) t = match makeDirectoriesFrom root above t with
      | (.error e, t) => (.error e, t)
      | (.ok (), t) => match t.makeDirectory ⟨root, (part :: above).reverse⟩ with
        | .ok t => (.ok (), t)
        | .error e => (if e.fault = .missing then .error e else t.unlessThere ⟨root, (part :: above).reverse⟩ e, t) := by
  rewrite [makeDirectoriesFrom, h]
  rfl

/-- What an attempt to make the directories of a way has to do with the way. -/
structure MakesWay (t : FileTree) (here : Place) (parts : List String) (result : Except SystemError Unit × FileTree) :
    Prop where
  filled : Filled t result.2 (t.Reached here parts)
  ok_iff : result.1 = .ok () ↔ t.Clear here parts
  fault : ∀ e, result.1 = .error e → e.fault ≠ .nullCharacter

/-- The attempt that finds its way, where there is nothing more to make than the last directory. -/
theorem makesWay_of_walk (hp : p.Proper) (hask : Askable p) (hwalk : t.walk (t.startOf p) p.parts = .ok place) :
    MakesWay t (t.startOf p) p.parts (t.attempt p) := by
  have hlocate : t.locate p = .ok place := (locate_eq_ok_iff hp).2 ⟨hask, hwalk⟩
  have hclear := clear_iff_of_walk hwalk
  rcases hentry : t.entry? place with _ | (_ | ⟨bytes, status⟩)
  · have hfree : ¬t.IsFileAt place := by
      rintro ⟨bytes, status, hfile⟩
      rw [hentry] at hfile
      cases hfile
    have hmake : t.attempt p = (.ok (), t.put place .directory) := by
      unfold attempt
      rw [makeDirectory_of_locate hlocate, hentry]
    rw [hmake]
    refine ⟨⟨rfl, rfl, fun q hq => ?_, fun q hq => ?_⟩, ⟨fun _ => hclear.2 hfree, fun _ => rfl⟩,
      fun e he => by cases he⟩
    · rw [entry?_put]
      by_cases hqp : q = place
      · rw [if_pos hqp]
      · rw [if_neg hqp]
        exact (reached_of_walk hwalk hq).resolve_left hqp
    · have hne : q ≠ place := fun h => hq ⟨p.parts, [], (List.append_nil _).symm, hclear.2 hfree, by
        rw [h, (walk_eq_ok_iff.1 hwalk).1]⟩
      rw [entry?_put, if_neg hne]
  · have hmake : t.attempt p = (.ok (), t) := by
      unfold attempt
      rw [makeDirectory_of_locate hlocate, hentry]
      dsimp only
      rw [unlessThere_of_locate hlocate, if_pos hentry]
    rw [hmake]
    refine ⟨.of_directories fun q hq => ?_, ⟨fun _ => hclear.2 (not_isFileAt_of_directory hentry), fun _ => rfl⟩,
      fun e he => by cases he⟩
    rcases reached_of_walk hwalk hq with rfl | hdir
    · exact hentry
    · exact hdir
  · have hfile : t.IsFileAt place := ⟨bytes, status, hentry⟩
    rw [attempt_of_isFileAt hp hask hwalk hfile]
    refine ⟨.of_directories fun q hq => ?_, ⟨fun h => (by cases h), fun h => (hclear.1 h hfile).elim⟩, fun e he => ?_⟩
    · obtain ⟨pre, rest, hsplit, hpre, rfl⟩ := hq
      rcases reached_of_walk hwalk ⟨pre, rest, hsplit, hpre, rfl⟩ with hplace | hdir
      · exact (hpre.noFile pre [] (List.append_nil _).symm (hplace ▸ hfile)).elim
      · exact hdir
    · cases he
      nofun

/-- The attempt whose way is blocked. -/
theorem makesWay_of_blocked (hp : p.Proper) (hask : Askable p) (hwalk : t.walk (t.startOf p) p.parts = .error f)
    (hf : f ≠ .missing) : MakesWay t (t.startOf p) p.parts (t.attempt p) := by
  obtain ⟨hblocked, hdirs⟩ := reached_of_walk_error hwalk hf
  rw [attempt_of_walk_error hp hask hwalk]
  refine ⟨.of_directories hdirs, ⟨fun h => (by cases h), fun h => (hblocked h).elim⟩, fun e he => ?_⟩
  cases he
  obtain ⟨-, -, -, -, -, ⟨rfl, -⟩ | ⟨rfl, -⟩ | ⟨rfl, -⟩⟩ := walk_eq_error hwalk <;> nofun

/-- Where no way leads through what is missing, the attempt at one directory makes its whole way. -/
theorem makesWay_attempt (hp : p.Proper) (hask : Askable p) (hwalk : t.walk (t.startOf p) p.parts ≠ .error .missing) :
    MakesWay t (t.startOf p) p.parts (t.attempt p) := by
  rcases hway : t.walk (t.startOf p) p.parts with f | place
  · exact makesWay_of_blocked hp hask hway fun hf => hwalk (by rw [hway, hf])
  · exact makesWay_of_walk hp hask hway

theorem Filled.isFileAt_iff (h : Filled t t' (t.Reached here parts)) : t'.IsFileAt q ↔ t.IsFileAt q := by
  by_cases hq : t.Reached here parts q
  · have hmade := not_isFileAt_of_directory (h.made q hq)
    obtain ⟨pre, rest, -, hclear, rfl⟩ := hq
    exact iff_of_false hmade (hclear.noFile pre [] (List.append_nil _).symm)
  · unfold IsFileAt
    rw [h.kept q hq]

theorem Filled.clear_iff {from' : Place} {way : List String} (h : Filled t t' (t.Reached here parts)) :
    t'.Clear from' way ↔ t.Clear from' way :=
  ⟨fun hc => ⟨hc.short, fun pre rest hs hf => hc.noFile pre rest hs (h.isFileAt_iff.2 hf)⟩,
    fun hc => ⟨hc.short, fun pre rest hs hf => hc.noFile pre rest hs (h.isFileAt_iff.1 hf)⟩⟩

theorem Filled.reached_iff {from' : Place} {way : List String} (h : Filled t t' (t.Reached here parts)) :
    t'.Reached from' way q ↔ t.Reached from' way q := by
  unfold Reached
  simp only [h.clear_iff]

/-- Making the rest of a way after its beginning makes the way. -/
theorem MakesWay.after {rest : List String} {result : Except SystemError Unit × FileTree}
    (h : Filled t t' (t.Reached here parts)) (hrest : MakesWay t' here (parts ++ rest) result) :
    MakesWay t here (parts ++ rest) result where
  filled := {
    base := hrest.filled.base.trans h.base
    room := hrest.filled.room.trans h.room
    made := fun q hq => hrest.filled.made q (h.reached_iff.2 hq)
    kept := fun q hq => by
      have hq' : ¬t.Reached here parts q := by
        rintro ⟨pre, more, hsplit, hclear, hend⟩
        exact hq ⟨pre, more ++ rest, by rw [hsplit, List.append_assoc], hclear, hend⟩
      rw [hrest.filled.kept q fun h' => hq (h.reached_iff.1 h'), h.kept q hq'] }
  ok_iff := hrest.ok_iff.trans h.clear_iff
  fault := hrest.fault

/-- A way that is clear leads through what was made on it. -/
theorem walk_of_filled (h : Filled t t' (t.Reached here parts)) (hclear : t.Clear here parts) :
    t'.walk here parts = .ok (endOf here parts) ∧ t'.entry? (endOf here parts) = some .directory :=
  ⟨walk_eq_ok_iff.2 ⟨rfl, hclear.short, fun pre c rest hsplit => h.made _ ⟨pre, c :: rest, hsplit,
    Clear.of_append (hsplit ▸ hclear), rfl⟩⟩, h.made _ ⟨parts, [], (List.append_nil _).symm, hclear, rfl⟩⟩

theorem makeDirectory_ne_missing (hp : p.Proper) (hask : Askable p)
    (hwalk : t.walk (t.startOf p) p.parts ≠ .error .missing) :
    ∀ e, t.makeDirectory p = .error e → e.fault ≠ .missing := by
  intro e he
  rcases hway : t.walk (t.startOf p) p.parts with f | place
  · rw [makeDirectory_of_error (e := ⟨f, p⟩) (by rw [locate_of_askable hp hask, hway]; rfl)] at he
    cases he
    exact fun hf => hwalk (by rw [hway]; exact congrArg _ hf)
  · rw [makeDirectory_of_locate ((locate_eq_ok_iff hp).2 ⟨hask, hway⟩)] at he
    cases hentry : t.entry? place with
    | none => rw [hentry] at he; cases he
    | some found => rw [hentry] at he; cases he; nofun

/-- A second attempt makes no exception for what is missing, where nothing is. -/
theorem attempt_of_not_missing (h : ∀ e, t.makeDirectory p = .error e → e.fault ≠ .missing) :
    t.attempt p = match t.makeDirectory p with
      | .ok t => (.ok (), t)
      | .error e => (if e.fault = .missing then .error e else t.unlessThere p e, t) := by
  unfold attempt
  rcases hmake : t.makeDirectory p with e | t'
  · dsimp only
    rw [if_neg (h e hmake)]
  · rfl

theorem walk_concat_ne_missing (part : String) (hwalk : t.walk here parts = .ok place)
    (hdir : t.entry? place = some .directory) : t.walk here (parts ++ [part]) ≠ .error .missing := by
  rw [walk_append, hwalk]
  change t.walk place [part] ≠ _
  rw [walk_cons_of_directory part [] hdir]
  by_cases hlong : part.utf8ByteSize > maxNameBytes
  · rw [if_pos hlong]
    nofun
  · rw [if_neg hlong]
    nofun

/-- A way that is blocked is so for all that lies behind it. -/
theorem MakesWay.of_error (h : MakesWay t here parts (.error e, t')) (part : String) :
    MakesWay t here (parts ++ [part]) (.error e, t') := by
  obtain ⟨hfilled, hok, hfault⟩ := h
  have hblocked : ¬t.Clear here (parts ++ [part]) := fun hc => by
    cases hok.2 (clear_concat_iff.1 hc).1
  refine ⟨⟨hfilled.base, hfilled.room, fun q hq => ?_, fun q hq => hfilled.kept q fun h => hq ?_⟩,
    ⟨fun h => (by cases h), fun h => (hblocked h).elim⟩, hfault⟩
  · exact hfilled.made q ((reached_concat_iff.1 hq).resolve_right fun h => hblocked h.1)
  · exact reached_concat_iff.2 (.inl h)

/-- **Making a directory and those above it makes the missing ones up to what blocks the way**, and succeeds if nothing
does.  The induction is on the components from the last one up, as the directories above are tried first. -/
theorem makeDirectoriesFrom_spec (root : String) : ∀ (above : List String) (t : FileTree),
    Path.Proper ⟨root, above.reverse⟩ → Askable ⟨root, above.reverse⟩ →
    t.entry? (t.startOf ⟨root, above.reverse⟩) = some .directory →
    MakesWay t (t.startOf ⟨root, above.reverse⟩) above.reverse (makeDirectoriesFrom root above t)
  | [], t, hp, hask, hstart => by
    rw [makeDirectoriesFrom_of_not_missing (makeDirectory_ne_missing hp hask nofun)]
    exact makesWay_attempt hp hask nofun
  | part :: above, t, hp, hask, hstart => by
    by_cases hwalk : t.walk (t.startOf ⟨root, (part :: above).reverse⟩) (part :: above).reverse = .error .missing
    · have hmissing : t.makeDirectory ⟨root, (part :: above).reverse⟩ = .error ⟨.missing, _⟩ :=
        makeDirectory_of_error (by rw [locate_of_askable hp hask, hwalk]; rfl)
      rw [makeDirectoriesFrom_of_missing hmissing]
      rw [List.reverse_cons] at hp hask hstart hwalk ⊢
      have habove := makeDirectoriesFrom_spec root above t (fun c hc => hp c (List.mem_append_left _ hc))
        (askable_of_append hask) hstart
      generalize makeDirectoriesFrom root above t = result at habove ⊢
      obtain ⟨e | ⟨⟩, t'⟩ := result
      · exact habove.of_error part
      · obtain ⟨hwalk', hdir⟩ := walk_of_filled habove.filled (habove.ok_iff.1 rfl)
        have hstart' : t'.startOf ⟨root, above.reverse ++ [part]⟩ = t.startOf ⟨root, above.reverse⟩ :=
          startOf_of_base _ habove.filled.base
        have hthere : t'.walk (t'.startOf ⟨root, above.reverse ++ [part]⟩) (above.reverse ++ [part]) ≠
            .error .missing := by
          rw [hstart']
          exact walk_concat_ne_missing part hwalk' hdir
        have hlast := makesWay_attempt hp hask hthere
        rw [hstart', attempt_of_not_missing (makeDirectory_ne_missing hp hask hthere)] at hlast
        exact hlast.after habove.filled
    · rw [makeDirectoriesFrom_of_not_missing (makeDirectory_ne_missing hp hask hwalk)]
      exact makesWay_attempt hp hask hwalk

theorem makeDirectories_spec (ht : t.Rooted) (hp : p.Proper) (hask : Askable p) :
    MakesWay t (t.startOf p) p.parts (t.makeDirectories p) := by
  have h := makeDirectoriesFrom_spec p.root p.parts.reverse t
  rw [List.reverse_reverse] at h
  exact h hp hask (ht.start p)

/-- A path that the system is not asked about makes no directory, and is refused in every tree alike. -/
theorem exists_makeDirectories_of_not_askable (h : ¬Askable p) :
    ∃ f, ∀ t : FileTree, t.makeDirectories p = (.error ⟨f, p⟩, t) := by
  obtain ⟨f, hf, hlocate⟩ := exists_locate_of_not_askable h
  refine ⟨f, fun t => ?_⟩
  have hmake : t.makeDirectory p = .error ⟨f, p⟩ := makeDirectory_of_error (hlocate t)
  unfold makeDirectories
  rw [makeDirectoriesFrom_of_not_missing (by
    rw [List.reverse_reverse, hmake]
    rintro e ⟨⟩
    rcases hf with rfl | rfl <;> nofun)]
  unfold attempt
  rw [List.reverse_reverse, hmake]
  dsimp only
  rw [unlessThere_of_error (hlocate t)]

theorem makeDirectories_eq_attempt (hp : p.Proper) (hask : Askable p)
    (hwalk : t.walk (t.startOf p) p.parts ≠ .error .missing) : t.makeDirectories p = t.attempt p := by
  have h : makeDirectoriesFrom p.root p.parts.reverse t = t.attempt ⟨p.root, p.parts.reverse.reverse⟩ :=
    makeDirectoriesFrom_of_not_missing (by
      rw [List.reverse_reverse]
      exact makeDirectory_ne_missing hp hask hwalk)
  rwa [List.reverse_reverse] at h

/-- What keeps a path from being made a directory, where no directory is missing on its way, does so ever after. -/
theorem Later.makeDirectories_error (h : Later t t') (hp : p.Proper) (hask : Askable p)
    (hthere : ∀ q, t.Reached (t.startOf p) p.parts q → t.entry? q = some .directory)
    (he : (t.makeDirectories p).1 = .error e) : (t'.makeDirectories p).1 = .error e := by
  rcases hwalk : t.walk (t.startOf p) p.parts with f | place
  · have hf : f ≠ .missing := by
      rintro rfl
      obtain ⟨q, hq, hnone⟩ := exists_reached_of_missing hwalk
      rw [hthere q hq] at hnone
      cases hnone
    have hwalk' : t'.walk (t'.startOf p) p.parts = .error f := by
      rw [h.startOf]
      exact h.walk_error hwalk hf
    rw [makeDirectories_eq_attempt hp hask (by rw [hwalk]; simpa using hf), attempt_of_walk_error hp hask hwalk] at he
    rw [makeDirectories_eq_attempt hp hask (by rw [hwalk']; simpa using hf), attempt_of_walk_error hp hask hwalk', ← he]
  · have hwalk' : t'.walk (t'.startOf p) p.parts = .ok place := by
      rw [h.startOf]
      exact h.walk_ok hwalk
    have hthere' : t.walk (t.startOf p) p.parts ≠ .error .missing := by
      rw [hwalk]
      nofun
    have hmake := makeDirectories_eq_attempt hp hask hthere'
    have hfile : t.IsFileAt place := by
      have hway := makesWay_of_walk hp hask hwalk
      by_contra hfree
      rw [hmake, hway.ok_iff.2 ((clear_iff_of_walk hwalk).2 hfree)] at he
      cases he
    rw [hmake, attempt_of_isFileAt hp hask hwalk hfile] at he
    rw [makeDirectories_eq_attempt hp hask (by rw [hwalk']; nofun), attempt_of_isFileAt hp hask hwalk' (h.file _ hfile),
      ← he]

end FileTree
end Argot
